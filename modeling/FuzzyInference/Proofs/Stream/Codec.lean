import Mathlib.Algebra.Group.Int.Defs
import Mathlib.Algebra.Group.Nat.Defs
import FuzzyInference.Proofs.Sequence
import FuzzyInference.Stream.Encode

/-!
# The tokens of a rule base

A rule stream is a list of raw tokens of one width, but what it says is a
list of tokens, and that list is the same at every width that has room
for it. This module says which list: `RuleStream.tokensOf` spells out the
tokens of a rule base, `RuleStream.tokens_of_encode` says that the stream
of a rule base means them, and `RuleStream.exists_encode` that there is
such a stream whenever every one of the tokens can be written.

Both rest on two facts about single tokens. A raw token means one thing
only (`Token.ofRaw_injective`), and a datum can be written exactly when
some raw token means it (`Raw.ofDatum_eq_ok_iff`). Because a reference is
written as a signed word, what it means when it is read again is itself
only if its place is below `2 ^ 63 - 1` (`TermRef.ofValue?_toValue`).
-/

namespace FuzzyInference

/-! ## Single tokens -/

/-- The reserved integers are the five least ones. -/
theorem Mark.ofRank?_eq_none_iff {k : Nat} : Mark.ofRank? k = none ↔ 5 ≤ k := by
  rcases k with _ | _ | _ | _ | _ | k <;> simp [Mark.ofRank?]

/-- A mark is at the place of its rank. -/
theorem Mark.rank_of_ofRank? {k : Nat} {m : Mark} (h : Mark.ofRank? k = some m) :
    k = m.rank := by
  unfold Mark.ofRank? at h
  split at h <;> cases h <;> rfl

namespace Token

variable {w : Width}

/-- A mark that is written means itself. -/
@[simp] theorem ofRaw_raw (m : Mark) : ofRaw (m.raw w) = .mark m := by
  cases w <;> cases m <;> rfl

/-- **What means a datum** is the datum itself, above the reserved
integers. -/
theorem ofRaw_eq_datum_iff {r : Raw w} {v : Int} :
    ofRaw r = .datum v ↔ r.value = v ∧ w.HoldsData v := by
  have hr := r.holds
  unfold ofRaw
  cases hm : Mark.ofRank? (r.value - w.least).toNat with
  | none =>
    rw [Mark.ofRank?_eq_none_iff] at hm
    constructor
    · intro h
      cases h
      exact ⟨rfl, by omega, hr.2⟩
    · rintro ⟨rfl, -⟩
      rfl
  | some m =>
    have hlt : ¬ 5 ≤ (r.value - w.least).toNat := by
      rw [← Mark.ofRank?_eq_none_iff, hm]
      exact Option.some_ne_none m
    constructor
    · intro h
      cases h
    · rintro ⟨rfl, h, -⟩
      omega

/-- What means a mark is the raw token that writes it. -/
theorem eq_raw_of_ofRaw {r : Raw w} {m : Mark} (h : ofRaw r = .mark m) : r = m.raw w := by
  have hr := r.holds
  unfold ofRaw at h
  split at h
  · next hm =>
    cases h
    have hrank := Mark.rank_of_ofRank? hm
    have hvalue : r.value = (m.raw w).value := by
      show r.value = w.least + m.rank
      omega
    cases r
    cases hvalue
    rfl
  · cases h

/-- **A raw token means one thing only**, and no other raw token of its
width means the same. -/
theorem ofRaw_injective : Function.Injective (ofRaw (w := w)) := by
  intro r s h
  -- marks and data are written by different integers, each by one of them
  cases hs : ofRaw s with
  | mark m => rw [eq_raw_of_ofRaw (h.trans hs), eq_raw_of_ofRaw hs]
  | datum v =>
    have hr := (ofRaw_eq_datum_iff.mp (h.trans hs)).1
    have hs := (ofRaw_eq_datum_iff.mp hs).1
    cases r
    cases s
    cases hr
    cases hs
    rfl

end Token

/-- A datum is written by the raw token that means it. -/
theorem Raw.ofDatum_eq_ok_iff {w : Width} {number : Nat} {v : Int} {r : Raw w} :
    Raw.ofDatum w number v = .ok r ↔ Token.ofRaw r = .datum v := by
  rw [Token.ofRaw_eq_datum_iff]
  unfold Raw.ofDatum
  split
  · next h =>
    constructor
    · intro hr
      cases hr
      exact ⟨rfl, h⟩
    · rintro ⟨rfl, -⟩
      rfl
  · next h =>
    constructor
    · intro hr
      cases hr
    · rintro ⟨-, hv⟩
      exact absurd hv h

/-! ## References -/

namespace TermRef

/-- **The place of a reference**, counted from one, with the opposite sign for a
denial. -/
def place (r : TermRef) : Int := if r.negated then -((r.index : Int) + 1) else (r.index : Int) + 1

/-- **The place says which reference it is.** -/
theorem ofValue?_place (r : TermRef) : ofValue? r.place = some r := by
  have hne : r.place ≠ 0 := by
    unfold place
    split <;> omega
  have hindex : r.place.natAbs - 1 = r.index := by
    unfold place
    split <;> omega
  have hsign : decide (r.place < 0) = r.negated := by
    unfold place
    cases r.negated with
    | false => exact decide_eq_false (by simp only [Bool.false_eq_true, if_false]; omega)
    | true => exact decide_eq_true (by simp only [if_true]; omega)
  rw [ofValue?, if_neg hne, hindex, hsign]

/-- A datum that is read as a reference is its place. -/
theorem place_of_ofValue? {v : Int} {r : TermRef} (h : ofValue? v = some r) : r.place = v := by
  unfold ofValue? at h
  split at h
  · cases h
  · next hne =>
    cases h
    unfold place
    by_cases hneg : v < 0
    · simp only [hneg, decide_true, if_true]
      omega
    · simp only [hneg, decide_false, Bool.false_eq_true, if_false]
      omega

/-- The word of a reference is its place, but for whole turns. -/
theorem toValue_eq_bmod (r : TermRef) : r.toValue = Int.bmod r.place (2 ^ 64) := rfl

/-- A place that fits the word does not go round. -/
theorem toValue_eq_place {r : TermRef} (hlower : -2 ^ 63 ≤ r.place) (hupper : r.place < 2 ^ 63) :
    r.toValue = r.place := by
  rw [toValue_eq_bmod]
  exact Int.bmod_eq_of_le (by omega) (by omega)

/-- A reference to a place below `2 ^ 63 - 1` is written as its place
counted from one, with its sign. -/
theorem toValue_of_lt {r : TermRef} (h : r.index < 2 ^ 63 - 1) : r.toValue = r.place := by
  apply toValue_eq_place
  · unfold place
    split <;> omega
  · unfold place
    split <;> omega

/-- **A reference is what it is read as.** -/
theorem ofValue?_toValue {r : TermRef} (h : r.index < 2 ^ 63 - 1) :
    ofValue? r.toValue = some r := by
  rw [toValue_of_lt h, ofValue?_place]

/-- **A datum is what the reference is written as that it is read as**, if
it is of sixty-four bits and not the least of them. -/
theorem toValue_of_ofValue? {v : Int} {r : TermRef} (hv : v.natAbs < 2 ^ 63)
    (h : ofValue? v = some r) : r.index < 2 ^ 63 - 1 ∧ r.toValue = v := by
  have hplace := place_of_ofValue? h
  have hlt : r.index < 2 ^ 63 - 1 := by
    unfold place at hplace
    split at hplace <;> omega
  exact ⟨hlt, (toValue_of_lt hlt).trans hplace⟩

end TermRef

/-! ## Statements, rules and rule bases -/

/-- **The tokens of a statement.** -/
def Atom.tokens (a : Atom) : List Token := [.datum a.subject, .datum a.term.toValue]

@[simp] theorem Atom.length_tokens (a : Atom) : a.tokens.length = 2 := rfl

/-- The tokens of statements with connectives in front of them. -/
def Atom.linkedTokens (linked : List (Connective × Atom)) : List Token :=
  linked.flatMap fun (c, a) => .mark (.ofConnective c) :: a.tokens

/-- **The tokens of a rule**; none if it is incomplete. -/
def Rule.tokens (r : Rule) : List Token :=
  match r.premise, r.conclusions with
  | some p, a :: more =>
    p.first.tokens ++ Atom.linkedTokens p.rest ++ .mark .consequence :: a.tokens ++
      Atom.linkedTokens (more.map (Connective.and, ·))
  | _, _ => []

/-- **The tokens of a rule base.** -/
def RuleStream.tokensOf (rules : List Rule) : List Token :=
  .mark .opening :: rules.flatMap Rule.tokens ++ [.mark .closing]

/-- Whether a token can be written at a width. -/
def Token.Writable (w : Width) (t : Token) : Prop := ∃ r : Raw w, Token.ofRaw r = t

section Encode

variable {w : Width}

/-- The raw token of a datum that can be written. -/
theorem exists_ofDatum {v : Int} (number : Nat) (h : (Token.datum v).Writable w) :
    ∃ r, Raw.ofDatum w number v = .ok r := by
  obtain ⟨r, hr⟩ := h
  exact ⟨r, Raw.ofDatum_eq_ok_iff.mpr hr⟩

namespace Atom

theorem tokens_of_encode {a : Atom} {raws : List (Raw w)} (h : a.encode w = .ok raws) :
    raws.map Token.ofRaw = a.tokens := by
  obtain ⟨subject, hs, h⟩ := Except.bind_eq_ok_iff.mp h
  obtain ⟨term, ht, h⟩ := Except.bind_eq_ok_iff.mp h
  cases h
  rw [List.map_cons, List.map_cons, Raw.ofDatum_eq_ok_iff.mp hs, Raw.ofDatum_eq_ok_iff.mp ht]
  rfl

theorem exists_encode {a : Atom} (h : ∀ t ∈ a.tokens, t.Writable w) :
    ∃ raws, a.encode w = .ok raws := by
  obtain ⟨subject, hs⟩ := exists_ofDatum a.subject (h _ (List.mem_cons_self))
  obtain ⟨term, ht⟩ := exists_ofDatum a.term.index (h (.datum a.term.toValue) (by simp [tokens]))
  exact ⟨[subject, term], Except.bind_eq_ok_iff.mpr
    ⟨subject, hs, Except.bind_eq_ok_iff.mpr ⟨term, ht, rfl⟩⟩⟩

theorem linkedTokens_cons (c : Connective) (a : Atom) (linked : List (Connective × Atom)) :
    linkedTokens ((c, a) :: linked)
      = .mark (.ofConnective c) :: a.tokens ++ linkedTokens linked := rfl

theorem tokens_of_encodeLinked {linked : List (Connective × Atom)} {raws : List (Raw w)}
    (h : encodeLinked w linked = .ok raws) : raws.map Token.ofRaw = linkedTokens linked := by
  induction linked generalizing raws with
  | nil =>
    cases h
    rfl
  | cons ca linked ih =>
    obtain ⟨here, hhere, h⟩ := Except.bind_eq_ok_iff.mp h
    obtain ⟨there, hthere, h⟩ := Except.bind_eq_ok_iff.mp h
    cases h
    rw [List.map_append, List.map_cons, Token.ofRaw_raw, tokens_of_encode hhere, ih hthere]
    rfl

theorem exists_encodeLinked {linked : List (Connective × Atom)}
    (h : ∀ t ∈ linkedTokens linked, t.Writable w) : ∃ raws, encodeLinked w linked = .ok raws := by
  induction linked with
  | nil => exact ⟨[], rfl⟩
  | cons ca linked ih =>
    obtain ⟨c, a⟩ := ca
    rw [linkedTokens_cons] at h
    obtain ⟨here, hhere⟩ := exists_encode fun t ht =>
      h t (List.mem_append_left _ (List.mem_cons_of_mem _ ht))
    obtain ⟨there, hthere⟩ := ih fun t ht => h t (List.mem_append_right _ ht)
    exact ⟨_, Except.bind_eq_ok_iff.mpr ⟨here, hhere,
      Except.bind_eq_ok_iff.mpr ⟨there, hthere, rfl⟩⟩⟩

end Atom

namespace Rule

/-- What can be written is complete. -/
theorem isComplete_of_encode {r : Rule} {raws : List (Raw w)} (h : r.encode w = .ok raws) :
    r.IsComplete := by
  obtain ⟨premise, conclusions⟩ := r
  cases premise with
  | none => cases h
  | some p =>
    cases conclusions with
    | nil => cases h
    | cons a more => exact ⟨rfl, List.cons_ne_nil a more⟩

theorem tokens_of_encode {r : Rule} {raws : List (Raw w)} (h : r.encode w = .ok raws) :
    raws.map Token.ofRaw = r.tokens := by
  obtain ⟨premise, conclusions⟩ := r
  cases premise with
  | none => cases h
  | some p =>
    cases conclusions with
    | nil => cases h
    | cons a more =>
      obtain ⟨first, hfirst, h⟩ := Except.bind_eq_ok_iff.mp h
      obtain ⟨rest, hrest, h⟩ := Except.bind_eq_ok_iff.mp h
      obtain ⟨conclusion, hconclusion, h⟩ := Except.bind_eq_ok_iff.mp h
      obtain ⟨others, hothers, h⟩ := Except.bind_eq_ok_iff.mp h
      cases h
      simp only [List.map_append, List.map_cons, Token.ofRaw_raw, Atom.tokens_of_encode hfirst,
        Atom.tokens_of_encodeLinked hrest, Atom.tokens_of_encode hconclusion,
        Atom.tokens_of_encodeLinked hothers, tokens]

theorem exists_encode {r : Rule} (hr : r.IsComplete) (h : ∀ t ∈ r.tokens, t.Writable w) :
    ∃ raws, r.encode w = .ok raws := by
  obtain ⟨premise, conclusions⟩ := r
  cases premise with
  | none => cases hr.1
  | some p =>
    cases conclusions with
    | nil => exact absurd rfl hr.2
    | cons a more =>
      simp only [tokens, List.mem_append, List.mem_cons] at h
      obtain ⟨first, hfirst⟩ := Atom.exists_encode fun t ht => h t (.inl (.inl (.inl ht)))
      obtain ⟨rest, hrest⟩ := Atom.exists_encodeLinked fun t ht => h t (.inl (.inl (.inr ht)))
      obtain ⟨conclusion, hconclusion⟩ := Atom.exists_encode fun t ht =>
        h t (.inl (.inr (.inr ht)))
      obtain ⟨others, hothers⟩ := Atom.exists_encodeLinked fun t ht => h t (.inr ht)
      exact ⟨_, Except.bind_eq_ok_iff.mpr ⟨first, hfirst, Except.bind_eq_ok_iff.mpr ⟨rest, hrest,
        Except.bind_eq_ok_iff.mpr ⟨conclusion, hconclusion,
          Except.bind_eq_ok_iff.mpr ⟨others, hothers, rfl⟩⟩⟩⟩⟩

end Rule

namespace RuleStream

/-- Only complete rules are written. -/
theorem isComplete_of_encode {rules : List Rule} {s : RuleStream w}
    (h : encode w rules = .ok s) : ∀ r ∈ rules, r.IsComplete := by
  obtain ⟨bodies, hbodies, h⟩ := Except.bind_eq_ok_iff.mp h
  rw [List.mapM_eq_ok_iff] at hbodies
  intro r hr
  have hmem := List.mem_map_of_mem (f := Rule.encode w) hr
  rw [hbodies] at hmem
  obtain ⟨body, -, hbody⟩ := List.mem_map.mp hmem
  exact Rule.isComplete_of_encode hbody.symm

/-- The rules of a rule base are written one after the other. -/
theorem tokens_of_map_encode {rules : List Rule} {bodies : List (List (Raw w))}
    (h : rules.map (Rule.encode w) = bodies.map .ok) :
    bodies.flatten.map Token.ofRaw = rules.flatMap Rule.tokens := by
  induction rules generalizing bodies with
  | nil =>
    cases bodies with
    | nil => rfl
    | cons body bodies => cases h
  | cons r rules ih =>
    cases bodies with
    | nil => cases h
    | cons body bodies =>
      obtain ⟨hbody, hrest⟩ := List.cons.inj h
      rw [List.flatten_cons, List.map_append, Rule.tokens_of_encode hbody, ih hrest]
      rfl

/-- **What the stream of a rule base means** are the tokens of its rules. -/
theorem tokens_of_encode {rules : List Rule} {s : RuleStream w} (h : encode w rules = .ok s) :
    s.tokens = tokensOf rules := by
  obtain ⟨bodies, hbodies, h⟩ := Except.bind_eq_ok_iff.mp h
  cases h
  simp only [tokens, tokensOf, List.map_append, List.map_cons, List.map_nil, Token.ofRaw_raw,
    tokens_of_map_encode (List.mapM_eq_ok_iff.mp hbodies)]

/-- **There is a stream** of every rule base of complete rules whose tokens
can be written. -/
theorem exists_encode {rules : List Rule} (hr : ∀ r ∈ rules, r.IsComplete)
    (h : ∀ t ∈ tokensOf rules, t.Writable w) : ∃ s : RuleStream w, encode w rules = .ok s := by
  have hbodies : ∀ r ∈ rules, ∃ raws, r.encode w = .ok raws := by
    intro r hmem
    refine Rule.exists_encode (hr r hmem) fun t ht => h t ?_
    exact List.mem_append_left _ (List.mem_cons_of_mem _ (List.mem_flatMap.mpr ⟨r, hmem, ht⟩))
  obtain ⟨bodies, hbodies, -⟩ := List.exists_mapM_eq_ok hbodies
  exact ⟨_, Except.bind_eq_ok_iff.mpr ⟨bodies, hbodies, rfl⟩⟩

end RuleStream

end Encode

end FuzzyInference
