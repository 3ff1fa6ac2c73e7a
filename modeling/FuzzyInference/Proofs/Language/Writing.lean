import FuzzyInference.Language.Scan
import Mathlib.Data.List.Chain
import Mathlib.Data.List.DropRight

/-!
# How a text of rules is written

A text is a sequence of `Part`s: blanks, comments, and lexemes in one of
their spellings. It is a `Writing` if no two words stand side by side in
it, and it may end within a comment. Nothing is said of a scanner here:
what a lexeme looks like, and where it stands, are read off the characters
alone.

A lexeme stands at a `Span`, which is the text before it and its own
characters, and the place of a span is counted in the text before it
(`Place.behind`).
-/

namespace FuzzyInference

/-! ## Words -/

/-- **What words look like**: they begin with a letter or an underscore, and
go on with letters, digits, underscores and hyphens. -/
def IsWordlike : List Char → Prop
  | [] => False
  | c :: cs => Scan.isWordStart c ∧ ∀ d ∈ cs, Scan.isWordPart d

/-- **What names look like**: they are words, and no keyword in whatever
mixture of capitals and small letters. -/
structure IsName (word : List Char) : Prop where
  /-- It is a word. -/
  wordlike : IsWordlike word
  /-- It is not spelled like a keyword. -/
  notKeyword : ∀ k : Keyword, word.map Char.toLower ≠ k.spelling

theorem Keyword.mem_all (k : Keyword) : k ∈ Keyword.all := by cases k <;> decide

instance : DecidablePred IsWordlike
  | [] => .isFalse id
  | c :: cs => decidable_of_iff (Scan.isWordStart c ∧ cs.all Scan.isWordPart)
    (and_congr_right' List.all_eq_true)

instance : DecidablePred IsName := fun word =>
  decidable_of_iff
    (IsWordlike word ∧ ∀ k ∈ Keyword.all, word.map Char.toLower ≠ k.spelling)
    ⟨fun h => ⟨h.1, fun k => h.2 k k.mem_all⟩, fun h => ⟨h.wordlike, fun k _ => h.notKeyword k⟩⟩

/-- A character is a letter if its small letter is one. -/
theorem isAlpha_of_isAlpha_toLower {c : Char} (h : c.toLower.isAlpha) : c.isAlpha := by
  unfold Char.toLower at h
  split at h
  · next hupper =>
    have hisUpper : c.isUpper := decide_eq_true hupper
    exact Bool.or_eq_true_iff.mpr (.inl hisUpper)
  · exact h

theorem isWordStart_of_isAlpha {c : Char} (h : c.isAlpha) : Scan.isWordStart c := by
  rw [Scan.isWordStart, h, Bool.true_or]

theorem isWordPart_of_isWordStart {c : Char} (h : Scan.isWordStart c) : Scan.isWordPart c := by
  rcases Bool.or_eq_true_iff.mp h with h | h
  · rw [Scan.isWordPart, Char.isAlphanum, h]
    rfl
  · rw [Scan.isWordPart, h, Bool.or_true, Bool.true_or]

/-- All the characters of a word can stand in words. -/
theorem IsWordlike.isWordPart {word : List Char} (h : IsWordlike word) :
    ∀ c ∈ word, Scan.isWordPart c := by
  cases word with
  | nil => exact h.elim
  | cons c cs => exact List.forall_mem_cons.mpr ⟨isWordPart_of_isWordStart h.1, h.2⟩

/-- What consists of letters is a word. -/
theorem isWordlike_of_isAlpha {word : List Char} (hne : word ≠ []) (h : ∀ c ∈ word, c.isAlpha) :
    IsWordlike word := by
  cases word with
  | nil => exact absurd rfl hne
  | cons c cs =>
    obtain ⟨hc, hcs⟩ := List.forall_mem_cons.mp h
    exact ⟨isWordStart_of_isAlpha hc,
      fun d hd => isWordPart_of_isWordStart (isWordStart_of_isAlpha (hcs d hd))⟩

/-- A keyword is a word, in capitals or not. -/
theorem Keyword.isWordlike {k : Keyword} {word : List Char}
    (h : word.map Char.toLower = k.spelling) : IsWordlike word := by
  have hletters : k.spelling ≠ [] ∧ k.spelling.all Char.isAlpha := by cases k <;> decide
  rw [← h] at hletters
  refine isWordlike_of_isAlpha (fun hnil => hletters.1 (by rw [hnil]; rfl)) fun c hc => ?_
  exact isAlpha_of_isAlpha_toLower (List.all_eq_true.mp hletters.2 _ (List.mem_map_of_mem hc))

/-! ## Spellings -/

/-- **The spellings of a lexeme**: of a keyword any mixture of capitals and
small letters, of a name only itself. -/
inductive Spells : List Char → Lexeme → Prop where
  /-- A keyword, capitals or not. -/
  | keyword {k : Keyword} {word : List Char} (h : word.map Char.toLower = k.spelling) :
    Spells word (.keyword k)
  /-- A semicolon. -/
  | semicolon : Spells [';'] .semicolon
  /-- A name, as it is. -/
  | name {word : List Char} (h : IsName word) : Spells word (.name (String.ofList word))

namespace Lexeme

/-- Whether a lexeme is written as a word. -/
def IsWord : Lexeme → Prop
  | .semicolon => False
  | _ => True

/-- Whether a lexeme can be written at all: a name has to be one. -/
def IsProper : Lexeme → Prop
  | .name text => IsName text.toList
  | _ => True

instance : DecidablePred IsWord
  | .semicolon => .isFalse id
  | .keyword _ | .name _ => .isTrue trivial

instance : DecidablePred IsProper
  | .name text => inferInstanceAs (Decidable (IsName text.toList))
  | .keyword _ | .semicolon => .isTrue trivial

end Lexeme

namespace Spells

variable {word : List Char} {l : Lexeme}

theorem ne_nil (h : Spells word l) : word ≠ [] := by
  cases h with
  | @keyword k _ h =>
    rintro rfl
    cases k <;> cases h
  | semicolon => exact List.cons_ne_nil _ _
  | name h =>
    rintro rfl
    exact h.wordlike

/-- What is written as a word is a word. -/
theorem wordlike (h : Spells word l) (hl : l.IsWord) : IsWordlike word := by
  cases h with
  | keyword h => exact Keyword.isWordlike h
  | semicolon => exact hl.elim
  | name h => exact h.wordlike

/-- **A word spells one lexeme only.** -/
theorem ofWord_eq (h : Spells word l) (hl : l.IsWord) : Lexeme.ofWord word = l := by
  cases h with
  | @keyword k _ h =>
    have hfound : Keyword.ofWord? word = some k := by
      unfold Keyword.ofWord?
      rw [h]
      cases k <;> rfl
    rw [Lexeme.ofWord, hfound]
  | semicolon => exact hl.elim
  | name h =>
    have hnone : Keyword.ofWord? word = none :=
      List.find?_eq_none.mpr fun k _ => by simpa using h.notKeyword k
    rw [Lexeme.ofWord, hnone]

end Spells

/-- **A word spells the lexeme that it is.** -/
theorem IsWordlike.spells {word : List Char} (h : IsWordlike word) :
    Spells word (Lexeme.ofWord word) := by
  unfold Lexeme.ofWord
  cases hfound : Keyword.ofWord? word with
  | some k => exact .keyword (by simpa using List.find?_some hfound)
  | none =>
    refine .name ⟨h, fun k => ?_⟩
    simpa using List.find?_eq_none.mp hfound k k.mem_all

/-! ## Parts of a text -/

/-- **A comment**, without the end of its line. -/
structure Comment where
  /-- What stands behind the mark that begins it. -/
  body : List Char
  /-- It does not go beyond its line. -/
  oneLine : '\n' ∉ body

/-- The characters of a comment. -/
def Comment.chars (r : Comment) : List Char := '#' :: r.body

/-- **A part of a text.** -/
inductive Part where
  /-- A blank. -/
  | blank (c : Char) (h : Scan.isBlank c)
  /-- A comment, and the end of its line. -/
  | comment (r : Comment)
  /-- A lexeme. -/
  | lexeme (l : Lexeme) (spelling : List Char) (h : Spells spelling l)

namespace Part

/-- The characters of a part. -/
def chars : Part → List Char
  | .blank c _ => [c]
  | .comment r => r.chars ++ ['\n']
  | .lexeme _ spelling _ => spelling

/-- The lexeme that a part is, if it is one. -/
def lexeme? : Part → Option Lexeme
  | .lexeme l _ _ => some l
  | _ => none

/-- Whether a part is a word. -/
def IsWord (a : Part) : Prop := ∃ l ∈ a.lexeme?, l.IsWord

instance : DecidablePred IsWord := fun a =>
  inferInstanceAs (Decidable (∃ l ∈ a.lexeme?, l.IsWord))

/-- Whether two parts may stand side by side: two words would become one. -/
def Apart (a b : Part) : Prop := ¬ (a.IsWord ∧ b.IsWord)

instance : DecidableRel Apart := fun _ _ => inferInstanceAs (Decidable (¬ (_ ∧ _)))

/-- Whether a part may stand in front of a text: a word has to end there. -/
def Ends (a : Part) (rest : List Char) : Prop :=
  a.IsWord → ∀ c ∈ rest.head?, Scan.isWordPart c = false

/-- The characters of a sequence of parts. -/
def allChars (as : List Part) : List Char := as.flatMap chars

theorem allChars_cons (a : Part) (as : List Part) : allChars (a :: as) = a.chars ++ allChars as :=
  List.flatMap_cons

theorem allChars_append (as bs : List Part) :
    allChars (as ++ bs) = allChars as ++ allChars bs :=
  List.flatMap_append

theorem not_isWord_of_lexeme? {a : Part} (h : a.lexeme? = none) : ¬ a.IsWord := by
  rintro ⟨l, hl, -⟩
  rw [h] at hl
  cases hl

/-- What is not a word may stand in front of anything. -/
theorem ends_of_not_isWord {a : Part} (h : ¬ a.IsWord) (rest : List Char) : a.Ends rest :=
  fun ha => absurd ha h

theorem chars_ne_nil (a : Part) : a.chars ≠ [] := by
  cases a with
  | blank c h => exact List.cons_ne_nil _ _
  | comment r => exact List.cons_ne_nil _ _
  | lexeme l spelling h => exact h.ne_nil

/-- A word begins as words go on. -/
theorem isWordPart_of_mem_head? {a : Part} (ha : a.IsWord) :
    ∀ c ∈ a.chars.head?, Scan.isWordPart c := by
  obtain ⟨l, hl, hword⟩ := ha
  cases a with
  | blank c h => cases hl
  | comment r => cases hl
  | lexeme l' spelling h =>
    cases hl
    intro c hc
    exact (h.wordlike hword).isWordPart c (List.mem_of_mem_head? hc)

/-- **Only a word goes on with a character of words**: any other part begins
with another one. -/
theorem not_isWordPart_of_mem_head? {a : Part} (ha : ¬ a.IsWord) :
    ∀ c ∈ a.chars.head?, Scan.isWordPart c = false := by
  cases a with
  | blank c h =>
    intro d hd
    cases hd
    rcases Bool.or_eq_true_iff.mp h with h | h
    · simp only [Bool.or_eq_true, decide_eq_true_eq] at h
      rcases h with ((rfl | rfl) | rfl) | rfl <;> rfl
    · rw [of_decide_eq_true h]
      rfl
  | comment r =>
    intro d hd
    cases hd
    rfl
  | lexeme l spelling h =>
    cases h with
    | semicolon =>
      intro d hd
      cases hd
      rfl
    | keyword h => exact absurd ⟨_, rfl, trivial⟩ ha
    | name h => exact absurd ⟨_, rfl, trivial⟩ ha

/-- A part ends in front of another exactly when they may stand side by
side. -/
theorem ends_chars_append_iff {a b : Part} (rest : List Char) :
    a.Ends (b.chars ++ rest) ↔ a.Apart b := by
  have hhead : (b.chars ++ rest).head? = b.chars.head? :=
    List.head?_append_of_ne_nil _ b.chars_ne_nil
  rw [Ends, hhead]
  constructor
  · rintro h ⟨ha, hb⟩
    obtain ⟨c, cs, hchars⟩ := List.exists_cons_of_ne_nil b.chars_ne_nil
    have hc : c ∈ b.chars.head? := by rw [hchars]; rfl
    exact Bool.false_ne_true ((h ha c hc).symm.trans (isWordPart_of_mem_head? hb c hc))
  · intro h ha
    exact not_isWordPart_of_mem_head? fun hb => h ⟨ha, hb⟩

/-- **In a row of parts** that may stand in front of a text, the first one may
stand in front of what follows it. -/
theorem ends_of_isChain_cons {a : Part} {as : List Part} {rest : List Char}
    (has : (a :: as).IsChain Apart) (hlast : ∀ b ∈ (a :: as).getLast?, b.Ends rest) :
    a.Ends (allChars as ++ rest) ∧ ∀ b ∈ as.getLast?, b.Ends rest := by
  cases as with
  | nil => exact ⟨hlast a rfl, fun b hb => by cases hb⟩
  | cons b bs =>
    refine ⟨?_, hlast⟩
    rw [allChars_cons, List.append_assoc, ends_chars_append_iff]
    exact (List.isChain_cons.mp has).1 b rfl

end Part

/-! ## Writings -/

/-- **A text that is written properly.** -/
structure Writing where
  /-- What stands in it. -/
  parts : List Part
  /-- The comment in which it ends, if it does. -/
  trailing : Option Comment
  /-- No two words stand side by side. -/
  apart : parts.IsChain Part.Apart

namespace Writing

/-- What stands behind the parts. -/
def ending (w : Writing) : List Char := w.trailing.elim [] Comment.chars

/-- The characters of a writing. -/
def chars (w : Writing) : List Char := Part.allChars w.parts ++ w.ending

/-- The text that is written. -/
def text (w : Writing) : String := String.ofList w.chars

/-- The lexemes that are written. -/
def lexemes (w : Writing) : List Lexeme := w.parts.filterMap Part.lexeme?

/-- The parts may stand in front of what stands behind them. -/
theorem ends_ending (w : Writing) : ∀ a ∈ w.parts.getLast?, a.Ends w.ending := by
  obtain ⟨parts, trailing, apart⟩ := w
  intro a _ _ c hc
  cases trailing with
  | none => cases hc
  | some r =>
    cases hc
    rfl

end Writing

/-! ## Where a lexeme stands -/

/-- **The place behind a text**: the line counts the ends of lines in it, and
the column the bytes since the last of them. -/
def Place.behind (before : List Char) : Place where
  line := 1 + before.count '\n'
  column := 1 + (String.ofList (before.rtakeWhile (· ≠ '\n'))).utf8ByteSize

/-- The place behind one more character. -/
theorem Place.behind_concat (before : List Char) (c : Char) :
    behind (before ++ [c]) = (behind before).after c := by
  by_cases hc : c = '\n'
  · subst hc
    simp [behind, after, Nat.add_assoc]
  · simp [behind, after, hc, Nat.add_assoc, String.ofList_append]

/-- The place behind a longer text is found by going on. -/
theorem Place.behind_append (before cs : List Char) :
    behind (before ++ cs) = (behind before).afterAll cs := by
  induction cs generalizing before with
  | nil => rw [List.append_nil]; rfl
  | cons c cs ih => rw [List.append_cons, ih, behind_concat]; rfl

/-- **A stretch of a text**: what stands before it, and what it holds. -/
structure Span where
  /-- The text before it. -/
  before : List Char
  /-- Its own characters. -/
  content : List Char
deriving DecidableEq, Repr

/-- **One stretch lies before another**: it has ended where the other
begins. -/
def Span.Precedes (s t : Span) : Prop := s.before ++ s.content <+: t.before

/-- **A lexeme that stands at a stretch of a text.** -/
structure Located.StandsAt (source : List Char) (l : Located) (s : Span) : Prop where
  /-- The stretch spells the lexeme, which therefore is not empty. -/
  spells : Spells s.content l.lexeme
  /-- The text goes on behind the stretch, and a word has ended there. -/
  found : ∃ after, source = s.before ++ s.content ++ after ∧
    (l.lexeme.IsWord → ∀ c ∈ after.head?, Scan.isWordPart c = false)
  /-- The place is counted in the text before it. -/
  place : l.place = .behind s.before

namespace Part

/-- The stretches of the lexemes among some parts that stand behind a
text. -/
def spans (before : List Char) : List Part → List Span
  | [] => []
  | a :: as => a.lexeme?.toList.map (fun _ => ⟨before, a.chars⟩) ++ spans (before ++ a.chars) as

/-- The lexemes among some parts that stand behind a text, with their
places. -/
def located (before : List Char) : List Part → List Located
  | [] => []
  | a :: as => a.lexeme?.toList.map (⟨·, .behind before⟩) ++ located (before ++ a.chars) as

theorem map_lexeme_located (before : List Char) (as : List Part) :
    (located before as).map Located.lexeme = as.filterMap lexeme? := by
  induction as generalizing before with
  | nil => rfl
  | cons a as ih =>
    rw [located, List.map_append, List.map_map, ih, List.filterMap_cons]
    cases a.lexeme? <;> rfl

/-- All the stretches lie behind the text that stands before them. -/
theorem prefix_before_of_mem_spans {before : List Char} {as : List Part} :
    ∀ s ∈ spans before as, before <+: s.before := by
  induction as generalizing before with
  | nil => exact fun s hs => absurd hs List.not_mem_nil
  | cons a as ih =>
    intro s hs
    rcases List.mem_append.mp hs with hs | hs
    · obtain ⟨l, -, rfl⟩ := List.mem_map.mp hs
      exact List.prefix_rfl
    · exact (List.prefix_append before a.chars).trans (ih s hs)

/-- **The stretches follow each other.** -/
theorem pairwise_spans (before : List Char) (as : List Part) :
    (spans before as).Pairwise Span.Precedes := by
  induction as generalizing before with
  | nil => exact .nil
  | cons a as ih =>
    refine List.pairwise_append.mpr ⟨?_, ih _, ?_⟩
    · cases a.lexeme? with
      | none => exact .nil
      | some l => exact List.pairwise_singleton _ _
    · intro s hs t ht
      obtain ⟨l, -, rfl⟩ := List.mem_map.mp hs
      exact prefix_before_of_mem_spans t ht

/-- **Each lexeme stands at its stretch.** -/
theorem forall₂_standsAt (before : List Char) {source rest : List Char} {as : List Part}
    (hsource : source = before ++ (allChars as ++ rest)) (has : as.IsChain Apart)
    (hlast : ∀ a ∈ as.getLast?, a.Ends rest) :
    List.Forall₂ (Located.StandsAt source) (located before as) (spans before as) := by
  induction as generalizing before with
  | nil => exact .nil
  | cons a as ih =>
    obtain ⟨hends, hlater⟩ := ends_of_isChain_cons has hlast
    rw [allChars_cons, List.append_assoc] at hsource
    have hrest := ih (before ++ a.chars) (hsource.trans (List.append_assoc ..).symm)
      has.tail hlater
    cases a with
    | blank c h => exact hrest
    | comment r => exact hrest
    | lexeme l spelling h =>
      refine .cons ⟨h, ⟨allChars as ++ rest, ?_, fun hl => ?_⟩, rfl⟩ hrest
      · exact hsource.trans (List.append_assoc ..).symm
      · exact hends ⟨l, rfl, hl⟩

end Part

namespace Writing

/-- The stretches of the lexemes of a writing. -/
def spans (w : Writing) : List Span := Part.spans [] w.parts

/-- The lexemes of a writing with their places. -/
def located (w : Writing) : List Located := Part.located [] w.parts

theorem map_lexeme_located (w : Writing) : w.located.map Located.lexeme = w.lexemes :=
  Part.map_lexeme_located [] w.parts

theorem forall₂_standsAt (w : Writing) :
    List.Forall₂ (Located.StandsAt w.chars) w.located w.spans :=
  Part.forall₂_standsAt [] rfl w.apart w.ends_ending

end Writing

end FuzzyInference
