import FuzzyInference.Language.Read
import FuzzyInference.Proofs.Language.Writing
import FuzzyInference.Proofs.Sequence

/-!
# The scanner finds what is written

The scanner finds the lexemes of a writing and nothing else, each at its
place (`Writing.scan_text`), whatever stands between them. And every text
is a writing, or begins with one and breaks off at a character with which
nothing begins (`Writing.exists_divides`): the scanner then reports this
character.

The first is an induction on the parts of a writing, with a lemma for each
kind of part; the second one on the length of the text, and its cases are
those of the scanner.
-/

namespace FuzzyInference

namespace Scan

/-- **A character with which nothing begins.** -/
structure IsStray (c : Char) : Prop where
  /-- It is no blank. -/
  notBlank : ¬ isBlank c
  /-- It begins no comment. -/
  notComment : c ≠ '#'
  /-- It is no semicolon. -/
  notSemicolon : c ≠ ';'
  /-- It begins no word. -/
  notWord : ¬ isWordStart c

variable {p : Place} {rest : List Char}

/-- The characters of a comment are those before the end of the line. -/
theorem isComment_of_mem (r : Comment) : ∀ c ∈ r.body, isComment c = true :=
  fun _ hc => decide_eq_true fun h => r.oneLine (h ▸ hc)

/-! ## One part -/

theorem lexemes_blank {c : Char} (h : isBlank c) :
    lexemes p (c :: rest) = lexemes (p.after c) rest := by
  rw [lexemes, if_pos h]

/-- A comment that the text ends in. -/
theorem lexemes_trailing (r : Comment) : lexemes p r.chars = .ok [] := by
  have hend : ∀ c ∈ ([] : List Char).head?, isComment c = false := fun _ h => by cases h
  obtain ⟨htake, hdrop⟩ := List.span_append (isComment_of_mem r) hend
  rw [List.append_nil] at htake hdrop
  rw [Comment.chars, lexemes, if_neg (by decide), if_pos rfl, hdrop, lexemes]

/-- A comment and the end of its line. -/
theorem lexemes_comment (r : Comment) :
    lexemes p (r.chars ++ ['\n'] ++ rest) = lexemes (p.afterAll (r.chars ++ ['\n'])) rest := by
  have hend : ∀ c ∈ ('\n' :: rest).head?, isComment c = false := fun c h => by
    cases h
    rfl
  obtain ⟨htake, hdrop⟩ := List.span_append (isComment_of_mem r) hend
  rw [List.append_assoc, List.singleton_append, Comment.chars, List.cons_append, lexemes,
    if_neg (by decide), if_pos rfl, htake, hdrop, lexemes_blank (by decide), Place.afterAll,
    Place.afterAll, List.foldl_concat]

theorem lexemes_semicolon :
    lexemes p (';' :: rest) = (lexemes (p.after ';') rest).map (⟨.semicolon, p⟩ :: ·) := by
  rw [lexemes, if_neg (by decide), if_neg (by decide), if_pos rfl]
  cases lexemes (p.after ';') rest <;> rfl

/-- **A word is taken as far as it goes.** -/
theorem lexemes_word {word : List Char} (hword : IsWordlike word)
    (hrest : ∀ c ∈ rest.head?, isWordPart c = false) :
    lexemes p (word ++ rest)
      = (lexemes (p.afterAll word) rest).map (⟨Lexeme.ofWord word, p⟩ :: ·) := by
  cases word with
  | nil => exact hword.elim
  | cons c cs =>
    obtain ⟨hstart, hparts⟩ := hword
    have hblank : ¬ isBlank c := by
      intro hblank
      simp only [isBlank, Bool.or_eq_true, decide_eq_true_eq] at hblank
      rcases hblank with (((rfl | rfl) | rfl) | rfl) | rfl
      all_goals exact absurd hstart (by decide)
    have hcomment : c ≠ '#' := by
      rintro rfl
      exact absurd hstart (by decide)
    have hsemicolon : c ≠ ';' := by
      rintro rfl
      exact absurd hstart (by decide)
    obtain ⟨htake, hdrop⟩ := List.span_append hparts hrest
    rw [List.cons_append, lexemes, if_neg hblank, if_neg hcomment, if_neg hsemicolon,
      if_pos hstart, htake, hdrop]
    dsimp only
    cases lexemes (p.afterAll (c :: cs)) rest <;> rfl

theorem lexemes_stray {c : Char} (h : IsStray c) :
    lexemes p (c :: rest) = .error (.unexpectedCharacter c p) := by
  rw [lexemes, if_neg h.notBlank, if_neg h.notComment, if_neg h.notSemicolon, if_neg h.notWord]

/-- **One part is scanned**, and then the rest of the text. -/
theorem lexemes_part {before : List Char} {a : Part} (ha : a.Ends rest) :
    lexemes (.behind before) (a.chars ++ rest)
      = (lexemes (.behind (before ++ a.chars)) rest).map
          (a.lexeme?.toList.map (⟨·, .behind before⟩) ++ ·) := by
  rw [Place.behind_append]
  cases a with
  | blank c h => exact (lexemes_blank h).trans (congrFun Except.map_id _).symm
  | comment r => exact (lexemes_comment r).trans (congrFun Except.map_id _).symm
  | lexeme l spelling h =>
    by_cases hl : l.IsWord
    · have hscan := lexemes_word (p := .behind before) (h.wordlike hl) (ha ⟨l, rfl, hl⟩)
      rw [h.ofWord_eq hl] at hscan
      exact hscan
    · cases h with
      | semicolon => exact lexemes_semicolon
      | keyword h => exact absurd trivial hl
      | name h => exact absurd trivial hl

/-- **All the parts are scanned**, and then the rest of the text. -/
theorem lexemes_parts (before rest : List Char) {as : List Part} (has : as.IsChain Part.Apart)
    (hlast : ∀ a ∈ as.getLast?, a.Ends rest) :
    lexemes (.behind before) (Part.allChars as ++ rest)
      = (lexemes (.behind (before ++ Part.allChars as)) rest).map (Part.located before as ++ ·) := by
  induction as generalizing before with
  | nil =>
    show lexemes (.behind before) rest = (lexemes (.behind (before ++ [])) rest).map id
    rw [List.append_nil, Except.map_id]
    rfl
  | cons a as ih =>
    obtain ⟨ha, hlater⟩ := Part.ends_of_isChain_cons has hlast
    rw [Part.allChars_cons, List.append_assoc, lexemes_part ha, ih _ has.tail hlater,
      List.append_assoc]
    cases lexemes (.behind (before ++ (a.chars ++ Part.allChars as))) rest with
    | error f => rfl
    | ok ls => exact congrArg Except.ok (List.append_assoc ..).symm

end Scan

/-! ## Writings -/

namespace Writing

/-- Nothing is found behind the parts of a writing. -/
theorem lexemes_ending (w : Writing) (p : Place) : Scan.lexemes p w.ending = .ok [] := by
  obtain ⟨parts, trailing, apart⟩ := w
  cases trailing with
  | none =>
    show Scan.lexemes p [] = .ok []
    rw [Scan.lexemes]
  | some r => exact Scan.lexemes_trailing r

/-- **The scanner finds what is written**, each lexeme at its place. -/
theorem scan_text (w : Writing) : scan w.text = .ok w.located := by
  rw [scan, text, String.toList_ofList]
  refine (Scan.lexemes_parts [] w.ending w.apart w.ends_ending).trans ?_
  rw [lexemes_ending]
  exact congrArg Except.ok (List.append_nil _)

/-- **A character at which a text breaks off**, behind a writing. -/
structure BreaksAt (w : Writing) (c : Char) : Prop where
  /-- It does not stand in a comment. -/
  closed : w.trailing = none
  /-- It is not part of a word. -/
  ends : ∀ a ∈ w.parts.getLast?, a.Ends [c]
  /-- Nothing begins with it. -/
  stray : Scan.IsStray c

/-- **The scanner reports the character** at which a text breaks off. -/
theorem scan_of_breaksAt {w : Writing} {c : Char} (h : w.BreaksAt c) {source : String}
    {after : List Char} (hsource : source.toList = w.chars ++ c :: after) :
    scan source = .error (.unexpectedCharacter c (.behind w.chars)) := by
  have hchars : w.chars = Part.allChars w.parts := by
    rw [chars, ending, h.closed]
    exact List.append_nil _
  rw [scan, hsource, hchars]
  refine (Scan.lexemes_parts [] (c :: after) w.apart
    fun a ha hword d hd => h.ends a ha hword d hd).trans ?_
  rw [Scan.lexemes_stray h.stray]
  rfl

/-! ## Every text is written somehow -/

/-- **A text divides** into a writing and, if it breaks off, what begins with
the character it breaks off at. -/
def Divides (w : Writing) (cs : List Char) : Prop :=
  cs = w.chars ∨ ∃ c after, w.BreaksAt c ∧ cs = w.chars ++ c :: after

/-- A text that divides begins with a writing. -/
theorem Divides.exists_eq {w : Writing} {cs : List Char} (h : w.Divides cs) :
    ∃ rest, cs = w.chars ++ rest := by
  rcases h with h | ⟨c, after, -, h⟩
  · exact ⟨[], h.trans (List.append_nil _).symm⟩
  · exact ⟨_, h⟩

/-- **One part more** in front of a text that divides. -/
theorem exists_divides_append {a : Part} {rest : List Char} (ha : a.Ends rest)
    (h : ∃ w : Writing, w.Divides rest) : ∃ w : Writing, w.Divides (a.chars ++ rest) := by
  obtain ⟨w, hw⟩ := h
  obtain ⟨parts, trailing, apart⟩ := w
  have hapart : ∀ b ∈ parts.head?, a.Apart b := by
    intro b hb
    obtain ⟨bs, rfl⟩ := List.head?_eq_some_iff.mp hb
    obtain ⟨tail, rfl⟩ := hw.exists_eq
    rw [chars, Part.allChars_cons, List.append_assoc, List.append_assoc] at ha
    exact (Part.ends_chars_append_iff _).mp ha
  have hchars : chars ⟨a :: parts, trailing, apart.cons hapart⟩
      = a.chars ++ chars ⟨parts, trailing, apart⟩ := by
    rw [chars, Part.allChars_cons, List.append_assoc]
    rfl
  refine ⟨⟨a :: parts, trailing, apart.cons hapart⟩, ?_⟩
  rcases hw with rfl | ⟨c, after, ⟨rfl, hends, hstray⟩, rfl⟩
  · exact .inl hchars.symm
  · refine .inr ⟨c, after, ⟨rfl, ?_, hstray⟩, ?_⟩
    · cases parts with
      | nil =>
        intro b hb
        cases hb
        exact ha
      | cons b bs => exact hends
    · rw [hchars, List.append_assoc]

/-- What begins with the mark of a comment is one, up to the end of its line
or of the text. -/
theorem exists_comment (tail : List Char) :
    ∃ r : Comment, '#' :: tail = r.chars ∨ ∃ rest, '#' :: tail = r.chars ++ '\n' :: rest := by
  have htail : tail = tail.takeWhile Scan.isComment ++ tail.dropWhile Scan.isComment :=
    List.takeWhile_append_dropWhile.symm
  have hend := List.head?_dropWhile_not Scan.isComment tail
  refine ⟨⟨tail.takeWhile Scan.isComment,
    fun h => absurd (List.mem_takeWhile_imp h) (by decide)⟩, ?_⟩
  cases hrest : tail.dropWhile Scan.isComment with
  | nil =>
    rw [hrest, List.append_nil] at htail
    exact .inl (congrArg ('#' :: ·) htail)
  | cons d rest =>
    rw [hrest] at htail hend
    have hd : d = '\n' := by simpa [Scan.isComment] using hend
    subst hd
    exact .inr ⟨rest, congrArg ('#' :: ·) htail⟩

/-- What begins as a word is one, as far as it goes. -/
theorem exists_word {c : Char} (h : Scan.isWordStart c) (tail : List Char) :
    ∃ word rest, c :: tail = word ++ rest ∧ IsWordlike word ∧
      ∀ d ∈ rest.head?, Scan.isWordPart d = false := by
  refine ⟨c :: tail.takeWhile Scan.isWordPart, tail.dropWhile Scan.isWordPart,
    congrArg (c :: ·) List.takeWhile_append_dropWhile.symm,
    ⟨h, fun d hd => List.mem_takeWhile_imp hd⟩, fun d hd => ?_⟩
  have hend := List.head?_dropWhile_not Scan.isWordPart tail
  rw [hd] at hend
  exact hend

/-- **What a text begins with**, if it does not end in a comment: a part or a
character with which nothing begins. The cases are those of the scanner. -/
theorem exists_part (c : Char) (tail : List Char) :
    (∃ (a : Part) (rest : List Char), c :: tail = a.chars ++ rest ∧ a.Ends rest) ∨
      (∃ r : Comment, c :: tail = r.chars) ∨ Scan.IsStray c := by
  by_cases hblank : Scan.isBlank c
  · refine .inl ⟨.blank c hblank, tail, rfl, Part.ends_of_not_isWord ?_ tail⟩
    exact Part.not_isWord_of_lexeme? rfl
  by_cases hcomment : c = '#'
  · subst hcomment
    obtain ⟨r, h | ⟨rest, h⟩⟩ := exists_comment tail
    · exact .inr (.inl ⟨r, h⟩)
    · refine .inl ⟨.comment r, rest, ?_, Part.ends_of_not_isWord ?_ rest⟩
      · rw [h, Part.chars, List.append_assoc]
        rfl
      · exact Part.not_isWord_of_lexeme? rfl
  by_cases hsemicolon : c = ';'
  · subst hsemicolon
    refine .inl ⟨.lexeme _ _ .semicolon, tail, rfl, Part.ends_of_not_isWord ?_ tail⟩
    rintro ⟨l, hl, hword⟩
    cases hl
    exact hword
  by_cases hword : Scan.isWordStart c
  · obtain ⟨word, rest, hsplit, hwordlike, hends⟩ := exists_word hword tail
    exact .inl ⟨.lexeme _ _ hwordlike.spells, rest, hsplit, fun _ => hends⟩
  · exact .inr (.inr ⟨hblank, hcomment, hsemicolon, hword⟩)

/-- **Every text divides.** By induction on its length, since comments and
words are cut off as a whole. -/
theorem exists_divides (cs : List Char) : ∃ w : Writing, w.Divides cs := by
  induction hlength : cs.length using Nat.strongRecOn generalizing cs with
  | _ n ih =>
    subst hlength
    cases cs with
    | nil => exact ⟨⟨[], none, .nil⟩, .inl rfl⟩
    | cons c tail =>
      rcases exists_part c tail with ⟨a, rest, hcs, ha⟩ | ⟨r, hcs⟩ | hstray
      · have hless : rest.length < (c :: tail).length := by
          rw [hcs, List.length_append]
          exact Nat.lt_add_of_pos_left (List.length_pos_iff.mpr a.chars_ne_nil)
        rw [hcs]
        exact exists_divides_append ha (ih _ hless rest rfl)
      · exact ⟨⟨[], some r, .nil⟩, .inl hcs⟩
      · exact ⟨⟨[], none, .nil⟩, .inr ⟨c, tail, ⟨rfl, fun a ha => (by cases ha), hstray⟩, rfl⟩⟩

/-- **What is scanned is a writing**, and what is found is what is written. -/
theorem exists_of_scan {source : String} {ls : List Located} (h : scan source = .ok ls) :
    ∃ w : Writing, w.text = source ∧ w.located = ls := by
  obtain ⟨w, hw | ⟨c, after, hbreak, hw⟩⟩ := exists_divides source.toList
  · have htext : w.text = source := by rw [text, ← hw, String.ofList_toList]
    rw [← htext, scan_text] at h
    exact ⟨w, htext, Except.ok.inj h⟩
  · rw [scan_of_breaksAt hbreak hw] at h
    cases h

/-- **What cannot be scanned breaks off** at the character that is reported. -/
theorem exists_of_scan_error {source : String} {f : LanguageFault} (h : scan source = .error f) :
    ∃ (w : Writing) (c : Char) (after : List Char), w.BreaksAt c ∧
      source.toList = w.chars ++ c :: after ∧ f = .unexpectedCharacter c (.behind w.chars) := by
  obtain ⟨w, hw | ⟨c, after, hbreak, hw⟩⟩ := exists_divides source.toList
  · have htext : w.text = source := by rw [text, ← hw, String.ofList_toList]
    rw [← htext, scan_text] at h
    cases h
  · rw [scan_of_breaksAt hbreak hw] at h
    exact ⟨w, c, after, hbreak, hw, (Except.error.inj h).symm⟩

end Writing

/-! ## What the scanner finds, and where -/

/-- **The scanner covers the text**, or stops where no lexeme can stand. If it
succeeds, the text is a writing: the stretches of its lexemes follow each
other, everything outside them is blanks and comments, and each lexeme that
is found stands at its stretch, spelled there as far as it goes and with its
place counted in the text before it. If it fails, the fault is the first
character outside comments with which nothing begins and which is part of no
word, at its place, and the text before it can be scanned. -/
theorem scan_covers (source : String) :
    (∀ ls, scan source = .ok ls → ∃ w : Writing, w.text = source ∧
      w.spans.Pairwise Span.Precedes ∧
      List.Forall₂ (Located.StandsAt source.toList) ls w.spans) ∧
    ∀ f, scan source = .error f → ∃ (w : Writing) (c : Char) (after : List Char),
      w.BreaksAt c ∧ source.toList = w.chars ++ c :: after ∧
      f = .unexpectedCharacter c (.behind w.chars) ∧ scan w.text = .ok w.located := by
  constructor
  · intro ls h
    obtain ⟨w, rfl, rfl⟩ := Writing.exists_of_scan h
    refine ⟨w, rfl, Part.pairwise_spans [] w.parts, ?_⟩
    rw [Writing.text, String.toList_ofList]
    exact w.forall₂_standsAt
  · intro f h
    obtain ⟨w, c, after, hbreak, hsource, hf⟩ := Writing.exists_of_scan_error h
    exact ⟨w, c, after, hbreak, hsource, hf, w.scan_text⟩

/-- **Two texts**: one with a comment, whose bytes count for no lexeme, and one
that breaks off at a sign. -/
theorem scan_covers_commented :
    (∃ w : Writing, w.text = "# é\n IFfy;iF" ∧ w.spans.Pairwise Span.Precedes ∧
      List.Forall₂ (Located.StandsAt "# é\n IFfy;iF".toList)
        [⟨.name "IFfy", ⟨2, 2⟩⟩, ⟨.semicolon, ⟨2, 6⟩⟩, ⟨.keyword .if, ⟨2, 7⟩⟩] w.spans) ∧
    ∃ (w : Writing) (c : Char) (after : List Char), w.BreaksAt c ∧
      "a # é\nis-1+b".toList = w.chars ++ c :: after ∧
      LanguageFault.unexpectedCharacter '+' ⟨2, 5⟩ = .unexpectedCharacter c (.behind w.chars) ∧
      scan w.text = .ok w.located :=
  ⟨(scan_covers _).1 _ (by decide +kernel), (scan_covers _).2 _ (by decide +kernel)⟩

end FuzzyInference
