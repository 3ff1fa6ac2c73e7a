import FuzzyInference.Description.Basic
import FuzzyInference.Proofs.Language.Reading
import FuzzyInference.Proofs.Language.Scanning

/-!
# Layout means nothing

The rules of a text depend on its lexemes alone (`Writing.readRules_text`).
So it does not matter how the lexemes are laid out, with which blanks and
comments between them and in which capitals (`scan_of_lexemes`), and texts
can be put together one per line (`readRules_intercalate`).

A text that is put behind another one begins on a new line. The end of the
line keeps words apart, and it closes the comment in which the first text
may have ended: what stands between the two texts is a blank or a comment
(`Writing.seam`).
-/

namespace FuzzyInference

namespace Writing

variable {names : Resolver} {rules : List Rule}

/-- **The rules of a writing** are those that its lexemes denote. -/
theorem readRules_text (w : Writing) :
    readRules names w.text = .ok rules ↔ ∃ ps, w.lexemes = Passage.spelled ps ∧
      List.Forall₂ (Sentence.Denotes names) (Passage.sentences ps) rules := by
  rw [readRules_of_scan w.scan_text, ← map_lexeme_located]
  exact Reader.State.read_between

/-- A text in which rules are read is a writing. -/
theorem exists_of_readRules {source : String} (h : readRules names source = .ok rules) :
    ∃ w : Writing, w.text = source := by
  obtain ⟨ls, hscan, -⟩ := Except.bind_eq_ok_iff.mp h
  obtain ⟨w, hw, -⟩ := exists_of_scan hscan
  exact ⟨w, hw⟩

end Writing

/-! ## One list of lexemes, many writings -/

/-- A proper lexeme has a spelling. -/
theorem Lexeme.IsProper.exists_spells {l : Lexeme} (h : l.IsProper) : ∃ word, Spells word l := by
  cases l with
  | keyword k => exact ⟨k.spelling, .keyword (by cases k <;> decide)⟩
  | semicolon => exact ⟨_, .semicolon⟩
  | name text =>
    refine ⟨text.toList, ?_⟩
    rw [← String.ofList_toList (s := text), String.toList_ofList]
    exact .name h

/-- **Proper lexemes can be written**, for instance with a space behind each of
them. -/
theorem Writing.exists_lexemes_eq {ls : List Lexeme} (h : ∀ l ∈ ls, l.IsProper) :
    ∃ w : Writing, w.trailing = none ∧ w.lexemes = ls := by
  induction ls with
  | nil => exact ⟨⟨[], none, .nil⟩, rfl, rfl⟩
  | cons l ls ih =>
    obtain ⟨hl, hls⟩ := List.forall_mem_cons.mp h
    obtain ⟨word, hword⟩ := hl.exists_spells
    obtain ⟨⟨parts, trailing, apart⟩, htrailing, hlexemes⟩ := ih hls
    have hspace : ¬ (Part.blank ' ' rfl).IsWord := Part.not_isWord_of_lexeme? rfl
    refine ⟨⟨.lexeme l word hword :: .blank ' ' rfl :: parts, trailing, ?_⟩, htrailing, ?_⟩
    · refine (apart.cons fun b _ h => hspace h.1).cons fun b hb h => ?_
      cases hb
      exact hspace h.2
    · exact congrArg (l :: ·) hlexemes

/-- **Layout and capitals mean nothing.** Every list of proper lexemes can be
written, and in whatever way it is written, the scanner finds just this list;
so the same rules are read from any two writings of it. -/
theorem scan_of_lexemes (ls : List Lexeme) (h : ∀ l ∈ ls, l.IsProper) :
    (∃ w : Writing, w.trailing = none ∧ w.lexemes = ls) ∧
    (∀ w : Writing, w.lexemes = ls →
      ∃ found, scan w.text = .ok found ∧ found.map Located.lexeme = ls) ∧
    ∀ w w' : Writing, w.lexemes = ls → w'.lexemes = ls → ∀ (names : Resolver) (rules : List Rule),
      readRules names w.text = .ok rules ↔ readRules names w'.text = .ok rules := by
  refine ⟨Writing.exists_lexemes_eq h, fun w hw => ?_, fun w w' hw hw' names rules => ?_⟩
  · exact ⟨w.located, w.scan_text, w.map_lexeme_located.trans hw⟩
  · rw [w.readRules_text, w'.readRules_text, hw, hw']

/-- Lexemes of every kind, with names that only begin like keywords. -/
def Lexeme.mixed : List Lexeme :=
  [.keyword .if, .name "iffy", .semicolon, .name "not-hot", .keyword .not]

/-- These lexemes with as little between them as can be, and a comment that
would be a rule. -/
def Writing.mixed : Writing where
  parts :=
    [.blank '\n' rfl, .lexeme (.keyword .if) ['i', 'F'] (.keyword rfl),
      .comment ⟨" IF né IS".toList, by decide⟩,
      .lexeme (.name "iffy") "iffy".toList (.name (by decide)),
      .lexeme .semicolon [';'] .semicolon,
      .lexeme (.name "not-hot") "not-hot".toList (.name (by decide)), .blank '\t' rfl,
      .lexeme (.keyword .not) ['N', 'o', 't'] (.keyword rfl)]
  trailing := none
  apart := by decide

/-- **A text of five lexemes**, of which a comment hides three more. -/
theorem scan_of_lexemes_mixed :
    (∀ l ∈ Lexeme.mixed, l.IsProper) ∧ Writing.mixed.lexemes = Lexeme.mixed ∧
      Writing.mixed.text = "\niF# IF né IS\niffy;not-hot\tNot" ∧
      ∃ found, scan Writing.mixed.text = .ok found ∧ found.map Located.lexeme = Lexeme.mixed := by
  have hproper : ∀ l ∈ Lexeme.mixed, l.IsProper := by decide
  have hlexemes : Writing.mixed.lexemes = Lexeme.mixed := by decide
  exact ⟨hproper, hlexemes, rfl, (scan_of_lexemes _ hproper).2.1 _ hlexemes⟩

/-! ## Texts one per line -/

namespace Writing

/-- What comes to stand between two texts, the second on a new line. -/
def seam (w : Writing) : Part :=
  match w.trailing with
  | none => .blank '\n' rfl
  | some r => .comment r

theorem lexeme?_seam (w : Writing) : w.seam.lexeme? = none := by
  unfold seam
  cases w.trailing <;> rfl

theorem not_isWord_seam (w : Writing) : ¬ w.seam.IsWord :=
  Part.not_isWord_of_lexeme? w.lexeme?_seam

/-- **One text behind another**, on a new line. -/
def join (w v : Writing) : Writing where
  parts := w.parts ++ w.seam :: v.parts
  trailing := v.trailing
  apart := by
    refine w.apart.append (v.apart.cons fun b _ h => w.not_isWord_seam h.1) fun a _ b hb h => ?_
    cases hb
    exact w.not_isWord_seam h.2

theorem chars_join (w v : Writing) : (w.join v).chars = w.chars ++ '\n' :: v.chars := by
  have hseam : w.seam.chars = w.ending ++ ['\n'] := by
    unfold seam ending
    cases w.trailing <;> rfl
  show Part.allChars (w.parts ++ w.seam :: v.parts) ++ v.ending = _
  rw [Part.allChars_append, Part.allChars_cons, hseam, chars, chars]
  simp only [List.append_assoc, List.cons_append, List.nil_append]

theorem text_join (w v : Writing) : (w.join v).text = w.text ++ "\n" ++ v.text := by
  rw [text, chars_join, List.append_cons, String.ofList_append, String.ofList_append]
  rfl

theorem lexemes_join (w v : Writing) : (w.join v).lexemes = w.lexemes ++ v.lexemes := by
  show (w.parts ++ w.seam :: v.parts).filterMap Part.lexeme? = _
  rw [List.filterMap_append, List.filterMap_cons_none w.lexeme?_seam]
  rfl

end Writing

variable {names : Resolver}

/-- **Two texts, one after the other**, have the rules of the first and then
those of the second. -/
theorem readRules_append {s t : String} {rules more : List Rule}
    (hs : readRules names s = .ok rules) (ht : readRules names t = .ok more) :
    readRules names (s ++ "\n" ++ t) = .ok (rules ++ more) := by
  obtain ⟨w, rfl⟩ := Writing.exists_of_readRules hs
  obtain ⟨v, rfl⟩ := Writing.exists_of_readRules ht
  obtain ⟨ps, hps, hrules⟩ := w.readRules_text.mp hs
  obtain ⟨qs, hqs, hmore⟩ := v.readRules_text.mp ht
  rw [← Writing.text_join, Writing.readRules_text]
  refine ⟨ps ++ qs, ?_, ?_⟩
  · rw [Writing.lexemes_join, hps, hqs]
    exact List.flatMap_append.symm
  · rw [Passage.sentences, List.filterMap_append]
    exact List.rel_append hrules hmore

/-- **Texts of rules can be put together**, one per line: if each of them can be
read on its own, all of them can be read together, and the rules are those of
the texts in their order. This is how the texts of a description become one. -/
theorem readRules_intercalate {texts : List String} {rules : List (List Rule)}
    (h : List.Forall₂ (fun text rules => readRules names text = .ok rules) texts rules) :
    readRules names ("\n".intercalate texts) = .ok rules.flatten ∧
      ∀ {α : Type} (d : Description α), d.rules = texts →
        readRules names d.ruleText = .ok rules.flatten := by
  have hread : readRules names ("\n".intercalate texts) = .ok rules.flatten := by
    induction h with
    | nil => exact (Writing.readRules_text ⟨[], none, .nil⟩).mpr ⟨[], rfl, .nil⟩
    | @cons text rule texts rules hfirst hrest ih =>
      cases hrest with
      | nil =>
        rw [String.intercalate_singleton, List.flatten_singleton]
        exact hfirst
      | cons hsecond hrest =>
        rw [String.intercalate_cons_cons, String.append_assoc, ← String.append_assoc]
        exact readRules_append hfirst ih
  exact ⟨hread, fun d hd => by rw [Description.ruleText, hd, hread]⟩

/-- **Three texts in one**: a comment that is not closed, a rule that is not
closed, and a separator with another rule behind it. -/
theorem readRules_intercalate_heating :
    readRules Names.heating.resolver ("\n".intercalate
      ["# heating", "IF room IS cold THEN heating IS strong # and",
        "; if room is hot then heating is not strong END ;"]) =
      .ok [⟨some ⟨⟨0, .is 0⟩, []⟩, [⟨0, .is 0⟩]⟩, ⟨some ⟨⟨0, .is 1⟩, []⟩, [⟨0, .isNot 0⟩]⟩] := by
  have hread : List.Forall₂ (fun text rules => readRules Names.heating.resolver text = .ok rules)
      ["# heating", "IF room IS cold THEN heating IS strong # and",
        "; if room is hot then heating is not strong END ;"]
      [[], [⟨some ⟨⟨0, .is 0⟩, []⟩, [⟨0, .is 0⟩]⟩], [⟨some ⟨⟨0, .is 1⟩, []⟩, [⟨0, .isNot 0⟩]⟩]] :=
    .cons (by decide +kernel) (.cons (by decide +kernel) (.cons (by decide +kernel) .nil))
  exact (readRules_intercalate hread).1

end FuzzyInference
