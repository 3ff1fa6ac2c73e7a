import FuzzyInference.Language.Read
import Mathlib.Data.List.Forall2
import Mathlib.Data.Prod.Basic

/-!
# The grammar of the rule language

What a text of rules is made of, said without a reader. A `Phrase` is a
statement as it is written, with names where an `Atom` has numbers; a
`Sentence` is a rule as it is written; and a text is a sequence of
`Passage`s, each of which is a rule or something that stands between
rules and means nothing. Every one of them spells certain lexemes.

The grammar needs no marks of its own to be read back: no two sequences of
passages spell the same lexemes (`Passage.spelled_injective`), although
a rule may be followed by another one with nothing in between and `and`
joins the statements of a premise as well as the conclusions. A phrase
says itself where it ends, and the end of a rule shows in what follows it:
no passage begins with a connective.

What a sentence denotes is a rule in numbers (`Sentence.Denotes`), if its
names resolve (`Sentence.Resolves`).
-/

/-- **Lists that correspond** to a given one exist exactly when each of its
elements has a counterpart. -/
theorem List.exists_forall₂_iff {α β : Type} {R : α → β → Prop} {as : List α} :
    (∃ bs, List.Forall₂ R as bs) ↔ ∀ a ∈ as, ∃ b, R a b := by
  induction as with
  | nil => simp
  | cons a as ih =>
    rw [List.forall_mem_cons, ← ih]
    constructor
    · rintro ⟨_, _ | ⟨ha, has⟩⟩
      exact ⟨⟨_, ha⟩, _, has⟩
    · rintro ⟨⟨b, hb⟩, bs, hbs⟩
      exact ⟨b :: bs, .cons hb hbs⟩

namespace FuzzyInference

/-- The keyword that writes a connective. -/
def Connective.keyword : Connective → Keyword
  | .and => .and
  | .or => .or

theorem Connective.keyword_injective : Function.Injective Connective.keyword := by
  intro c d h
  cases c <;> cases d <;> first | rfl | cases h

theorem Connective.exists_iff {P : Connective → Prop} : (∃ c, P c) ↔ P .and ∨ P .or := by
  constructor
  · rintro ⟨c, h⟩
    cases c with
    | and => exact .inl h
    | or => exact .inr h
  · rintro (h | h)
    · exact ⟨.and, h⟩
    · exact ⟨.or, h⟩

/-! ## Phrases -/

/-- **A statement as it is written**: `subject IS [NOT] term`. -/
structure Phrase where
  /-- The name of the variable. -/
  subject : String
  /-- Whether the term is denied. -/
  denied : Bool
  /-- The name of the term. -/
  term : String
deriving DecidableEq, Repr

namespace Phrase

/-- The lexemes of a phrase. -/
def lexemes (p : Phrase) : List Lexeme :=
  .name p.subject :: .keyword .is :: (if p.denied then [.keyword .not] else []) ++ [.name p.term]

/-- **A phrase says itself where it ends**, whatever comes behind it. -/
theorem lexemes_append_inj {p q : Phrase} {xs ys : List Lexeme}
    (h : p.lexemes ++ xs = q.lexemes ++ ys) : p = q ∧ xs = ys := by
  obtain ⟨subject, denied, term⟩ := p
  obtain ⟨subject', denied', term'⟩ := q
  -- behind the copula either both are denied or neither is
  cases denied <;> cases denied' <;> cases h <;> exact ⟨rfl, rfl⟩

/-- **What a phrase denotes** on a side: a statement about the variable its
subject stands for, and about the term its term stands for under that
variable. -/
structure Denotes (names : Resolver) (side : Side) (p : Phrase) (a : Atom) : Prop where
  /-- The variable. -/
  subject : names.subject? side p.subject = some a.subject
  /-- The term, under the number of the variable. -/
  term : names.term? side a.subject p.term = some a.term.index
  /-- It is denied where it is written so. -/
  negated : a.term.negated = p.denied

/-- **Whether the names of a phrase resolve** on a side. -/
def Resolves (names : Resolver) (side : Side) (p : Phrase) : Prop :=
  ∃ tag, names.subject? side p.subject = some tag ∧
    ∃ index, names.term? side tag p.term = some index

/-- A phrase denotes something exactly when its names resolve. -/
theorem exists_denotes_iff {names : Resolver} {side : Side} {p : Phrase} :
    (∃ a, p.Denotes names side a) ↔ p.Resolves names side := by
  constructor
  · rintro ⟨a, h⟩
    exact ⟨a.subject, h.subject, a.term.index, h.term⟩
  · rintro ⟨tag, hsubject, index, hterm⟩
    exact ⟨⟨tag, ⟨index, p.denied⟩⟩, hsubject, hterm, rfl⟩

/-- The lexemes of phrases with connectives in front of them. -/
def linked (links : List (Connective × Phrase)) : List Lexeme :=
  links.flatMap fun (c, p) => .keyword c.keyword :: p.lexemes

theorem linked_cons (c : Connective) (p : Phrase) (links : List (Connective × Phrase)) :
    linked ((c, p) :: links) = .keyword c.keyword :: (p.lexemes ++ linked links) := by
  rw [linked, List.flatMap_cons]
  rfl

end Phrase

/-! ## Where a run of phrases ends -/

/-- **Lexemes that no run of phrases goes on with**: they do not begin with a
connective. -/
def Unlinked (xs : List Lexeme) : Prop := ∀ c : Connective, xs.head? ≠ some (.keyword c.keyword)

theorem Unlinked.cons {l : Lexeme} (h : ∀ c : Connective, l ≠ .keyword c.keyword)
    (xs : List Lexeme) : Unlinked (l :: xs) := by
  intro c hhead
  exact h c (Option.some.inj hhead)

/-- **A run of linked phrases ends** where no connective follows. -/
theorem Phrase.linked_append_inj {l m : List (Connective × Phrase)} {xs ys : List Lexeme}
    (hxs : Unlinked xs) (hys : Unlinked ys) (h : linked l ++ xs = linked m ++ ys) :
    l = m ∧ xs = ys := by
  induction l generalizing m with
  | nil =>
    cases m with
    | nil => exact ⟨rfl, h⟩
    | cons q m => exact absurd (congrArg List.head? h) (hxs q.1)
  | cons p l ih =>
    cases m with
    | nil => exact absurd (congrArg List.head? h).symm (hys p.1)
    | cons q m =>
      obtain ⟨c, p⟩ := p
      obtain ⟨d, q⟩ := q
      rw [linked_cons, linked_cons, List.cons_append, List.cons_append, List.append_assoc,
        List.append_assoc] at h
      obtain ⟨hkeyword, hphrase⟩ := List.cons.inj h
      obtain ⟨rfl, hlinked⟩ := lexemes_append_inj hphrase
      obtain ⟨rfl, hrest⟩ := ih hlinked
      rw [Connective.keyword_injective (Lexeme.keyword.inj hkeyword)]
      exact ⟨rfl, hrest⟩

/-! ## Sentences -/

/-- **A rule as it is written.** -/
structure Sentence where
  /-- The first phrase of the premise. -/
  first : Phrase
  /-- The further phrases, each with the connective in front of it. -/
  rest : List (Connective × Phrase)
  /-- The first conclusion. -/
  conclusion : Phrase
  /-- The further conclusions. -/
  others : List Phrase
deriving DecidableEq, Repr

namespace Sentence

/-- The lexemes of a sentence. -/
def lexemes (s : Sentence) : List Lexeme :=
  .keyword .if :: (s.first.lexemes ++ Phrase.linked s.rest) ++
    .keyword .then :: (s.conclusion.lexemes ++ Phrase.linked (s.others.map (Connective.and, ·)))

/-- The phrases of the premise with the connectives in front of them; the
first has none. -/
def clauses (s : Sentence) : List (Option Connective × Phrase) :=
  (none, s.first) :: s.rest.map fun (c, p) => (some c, p)

/-- The conclusions. -/
def conclusions (s : Sentence) : List Phrase := s.conclusion :: s.others

/-- **What a sentence denotes**: a rule with the same connectives, phrase by
phrase. -/
structure Denotes (names : Resolver) (s : Sentence) (r : Rule) : Prop where
  /-- The premise is about inputs. -/
  clauses : List.Forall₂ (fun p q => p.1 = q.1 ∧ p.2.Denotes names .input q.2) s.clauses r.clauses
  /-- The conclusions are about outputs. -/
  conclusions : List.Forall₂ (Phrase.Denotes names .output) s.conclusions r.conclusions

/-- **Whether the names of a sentence resolve**, each on its own side. -/
structure Resolves (names : Resolver) (s : Sentence) : Prop where
  /-- Those of the premise. -/
  clauses : ∀ p ∈ s.clauses, p.2.Resolves names .input
  /-- Those of the conclusions. -/
  conclusions : ∀ p ∈ s.conclusions, p.Resolves names .output

/-- **What a sentence denotes is a rule with a premise and a conclusion**,
part by part. -/
theorem denotes_iff {names : Resolver} {s : Sentence} {r : Rule} :
    s.Denotes names r ↔ ∃ a as b bs, r = ⟨some ⟨a, as⟩, b :: bs⟩ ∧
      s.first.Denotes names .input a ∧
      List.Forall₂ (fun p q => p.1 = q.1 ∧ p.2.Denotes names .input q.2) s.rest as ∧
      s.conclusion.Denotes names .output b ∧
      List.Forall₂ (Phrase.Denotes names .output) s.others bs := by
  constructor
  · obtain ⟨premise, conclusions⟩ := r
    rintro ⟨hclauses, hconclusions⟩
    cases premise with
    | none => cases hclauses
    | some p =>
      obtain _ | ⟨hfirst, hrest⟩ := hclauses
      obtain _ | ⟨hconclusion, hothers⟩ := hconclusions
      simp only [List.forall₂_map_left_iff, List.forall₂_map_right_iff, Option.some.injEq] at hrest
      exact ⟨p.first, p.rest, _, _, rfl, hfirst.2, hrest, hconclusion, hothers⟩
  · rintro ⟨a, as, b, bs, rfl, hfirst, hrest, hconclusion, hothers⟩
    refine ⟨.cons ⟨rfl, hfirst⟩ ?_, .cons hconclusion hothers⟩
    simpa only [List.forall₂_map_left_iff, List.forall₂_map_right_iff, Option.some.injEq]
      using hrest

/-- What a sentence denotes is complete. -/
theorem Denotes.isComplete {names : Resolver} {s : Sentence} {r : Rule} (h : s.Denotes names r) :
    r.IsComplete := by
  obtain ⟨a, as, b, bs, rfl, -⟩ := denotes_iff.mp h
  exact ⟨rfl, List.cons_ne_nil b bs⟩

/-- A sentence denotes something exactly when its names resolve. -/
theorem exists_denotes_iff {names : Resolver} {s : Sentence} :
    (∃ r, s.Denotes names r) ↔ s.Resolves names := by
  constructor
  · rintro ⟨r, hclauses, hconclusions⟩
    refine ⟨fun p hp => ?_, fun p hp => ?_⟩
    · obtain ⟨q, -, hq⟩ := List.exists_forall₂_iff.mp ⟨_, hclauses⟩ p hp
      exact Phrase.exists_denotes_iff.mp ⟨q.2, hq⟩
    · exact Phrase.exists_denotes_iff.mp (List.exists_forall₂_iff.mp ⟨_, hconclusions⟩ p hp)
  · rintro ⟨hclauses, hconclusions⟩
    obtain ⟨a, ha⟩ := Phrase.exists_denotes_iff.mpr (hclauses _ List.mem_cons_self)
    obtain ⟨b, hb⟩ := Phrase.exists_denotes_iff.mpr (hconclusions _ List.mem_cons_self)
    obtain ⟨as, has⟩ : ∃ as, List.Forall₂
        (fun p (q : Connective × Atom) => p.1 = q.1 ∧ p.2.Denotes names .input q.2) s.rest as := by
      refine List.exists_forall₂_iff.mpr fun p hp => ?_
      obtain ⟨a, ha⟩ := Phrase.exists_denotes_iff.mpr
        (hclauses _ (List.mem_cons_of_mem _ (List.mem_map_of_mem hp)))
      exact ⟨(p.1, a), rfl, ha⟩
    obtain ⟨bs, hbs⟩ : ∃ bs, List.Forall₂ (Phrase.Denotes names .output) s.others bs :=
      List.exists_forall₂_iff.mpr fun p hp =>
        Phrase.exists_denotes_iff.mpr (hconclusions p (List.mem_cons_of_mem _ hp))
    exact ⟨_, denotes_iff.mpr ⟨a, as, b, bs, rfl, ha, has, hb, hbs⟩⟩

/-- **A sentence says itself where it ends**, if no connective follows. -/
theorem lexemes_append_inj {s t : Sentence} {xs ys : List Lexeme} (hxs : Unlinked xs)
    (hys : Unlinked ys) (h : s.lexemes ++ xs = t.lexemes ++ ys) : s = t ∧ xs = ys := by
  obtain ⟨first, rest, conclusion, others⟩ := s
  obtain ⟨first', rest', conclusion', others'⟩ := t
  simp only [lexemes, List.cons_append, List.append_assoc] at h
  have hthen (zs : List Lexeme) : Unlinked (.keyword .then :: zs) :=
    Unlinked.cons (by intro c; cases c <;> exact fun h => by cases h) zs
  obtain ⟨rfl, hrest⟩ := Phrase.lexemes_append_inj (List.cons.inj h).2
  obtain ⟨rfl, hconsequence⟩ := Phrase.linked_append_inj (hthen _) (hthen _) hrest
  obtain ⟨rfl, hothers⟩ := Phrase.lexemes_append_inj (List.cons.inj hconsequence).2
  obtain ⟨hmap, hend⟩ := Phrase.linked_append_inj hxs hys hothers
  have hinj : Function.Injective fun p : Phrase => (Connective.and, p) := Prod.mk_right_injective _
  rw [(List.map_injective_iff.mpr hinj) hmap]
  exact ⟨rfl, hend⟩

end Sentence

/-! ## Texts -/

/-- **A passage of a text.** -/
inductive Passage where
  /-- The keyword that closes a rule, or nothing. -/
  | closing
  /-- A semicolon, which does the same. -/
  | semicolon
  /-- A rule. -/
  | rule (s : Sentence)
deriving DecidableEq, Repr

namespace Passage

/-- The lexemes of a passage. -/
def lexemes : Passage → List Lexeme
  | .closing => [.keyword .end]
  | .semicolon => [.semicolon]
  | .rule s => s.lexemes

/-- The rule a passage is, if it is one. -/
def sentence? : Passage → Option Sentence
  | .rule s => some s
  | _ => none

/-- **The lexemes that a sequence of passages spells.** -/
def spelled (ps : List Passage) : List Lexeme := ps.flatMap lexemes

/-- The rules among a sequence of passages. -/
def sentences (ps : List Passage) : List Sentence := ps.filterMap sentence?

/-- No passage begins with a connective. -/
theorem unlinked_spelled (ps : List Passage) : Unlinked (spelled ps) := by
  intro c
  cases ps with
  | nil => exact fun h => by cases h
  | cons p ps => cases p <;> cases c <;> exact fun h => by cases h

/-- **No two sequences of passages spell the same lexemes.** By induction on
one of them; where both begin with a rule, it ends in both at the same
place. -/
theorem spelled_injective : Function.Injective spelled := by
  intro ps
  induction ps with
  | nil =>
    intro qs h
    cases qs with
    | nil => rfl
    | cons q qs => cases q <;> cases h
  | cons p ps ih =>
    intro qs h
    cases qs with
    | nil => cases p <;> cases h
    | cons q qs =>
      rw [spelled, spelled, List.flatMap_cons, List.flatMap_cons] at h
      have hhead := congrArg List.head? h
      cases p with
      | closing =>
        cases q with
        | closing => rw [ih (List.cons.inj h).2]
        | semicolon => cases hhead
        | rule t => cases hhead
      | semicolon =>
        cases q with
        | closing => cases hhead
        | semicolon => rw [ih (List.cons.inj h).2]
        | rule t => cases hhead
      | rule s =>
        cases q with
        | closing => cases hhead
        | semicolon => cases hhead
        | rule t =>
          obtain ⟨rfl, hrest⟩ :=
            Sentence.lexemes_append_inj (unlinked_spelled ps) (unlinked_spelled qs) h
          rw [ih hrest]

end Passage

end FuzzyInference
