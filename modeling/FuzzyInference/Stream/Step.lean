import FuzzyInference.Stream.Fault

/-!
# One step through a rule stream

A rule stream is read statement by statement. The reader is in one of two
**phases**, within a premise or within the conclusions of a rule, and a
`step` reads one window of tokens, says what it meant as an `Event`, and
says in which phase to go on and how many tokens to leave behind.

```text
              x t (and|or x t)*  consequence
  opening ──▶ premise ──────────────────────▶ conclusion
                ▲  │ closing                     │ o s (and o s)*
                │  ▼                             │
                │ end                            │
                └────────────────────────────────┘
                    next token is not `and`
```

A step knows the marks and the numbers of variables. Whether a term is
there, and whose it is, is for the system to check that the stream is
meant for.
-/

namespace FuzzyInference

/-- **The phase of reading.** -/
inductive Phase where
  /-- Within a premise, or before the first rule, or after the last. -/
  | premise
  /-- Within the conclusions of a rule. -/
  | conclusion
deriving DecidableEq, Repr

/-- How many variables there are to speak of. -/
structure Bounds where
  /-- The number of inputs. -/
  inputs : Nat
  /-- The number of outputs. -/
  outputs : Nat
deriving DecidableEq, Repr

/-- **What a window of tokens means.** -/
inductive Event where
  /-- A statement of a premise, the connective in front of it, and whether
  it is the last one of its premise. -/
  | clause (link : Option Connective) (atom : Atom) (closes : Bool)
  /-- A conclusion, and whether it is the last one of its rule. -/
  | conclusion (atom : Atom) (closes : Bool)
  /-- The end of the rules. -/
  | done
deriving DecidableEq, Repr

/-- **A step**: what was read, and how to go on. -/
structure Window where
  /-- The phase to go on in. -/
  next : Phase
  /-- What the window meant. -/
  event : Event
  /-- How many tokens to leave behind. -/
  consumed : Nat
deriving DecidableEq, Repr

namespace Stream

/-- The token at a position, which must be there. -/
def required (position : Nat) : Option Token → Except StreamFault Token
  | some t => .ok t
  | none => .error ⟨position, .truncated⟩

/-- The number of a variable of one side, of which there are `limit`. -/
def readSubject (side : Side) (limit position : Nat) (t : Option Token) :
    Except StreamFault Nat := do
  match ← required position t with
  | .datum v =>
    if 0 ≤ v ∧ v < limit then return v.toNat
    else throw ⟨position, .subjectOutOfRange side v limit⟩
  | found => throw ⟨position, .notSubject side found⟩

/-- A reference to a linguistic term. -/
def readTerm (position : Nat) (t : Option Token) : Except StreamFault TermRef := do
  match ← required position t with
  | .datum v =>
    match TermRef.ofValue? v with
    | some r => return r
    | none => throw ⟨position, .reservedReference⟩
  | found => throw ⟨position, .notReference found⟩

/-- A statement about a variable of one side, at the head of `rest`. -/
def readAtom (side : Side) (limit position : Nat) (rest : List Token) :
    Except StreamFault Atom := do
  let subject ← readSubject side limit position rest[0]?
  let term ← readTerm (position + 1) rest[1]?
  return ⟨subject, term⟩

/-- A statement of a premise. It stands `skip` tokens into `rest`, behind
its connective if it has one, and the token after it says whether the
premise goes on. -/
def stepClause (bounds : Bounds) (position : Nat) (rest : List Token)
    (link : Option Connective) (skip : Nat) : Except StreamFault Window := do
  let atom ← readAtom .input bounds.inputs (position + skip) (rest.drop skip)
  match ← required (position + skip + 2) rest[skip + 2]? with
  | .mark .consequence => return ⟨.conclusion, .clause link atom true, skip + 3⟩
  | .mark .conjunction => return ⟨.premise, .clause link atom false, skip + 2⟩
  | .mark .disjunction => return ⟨.premise, .clause link atom false, skip + 2⟩
  | found => throw ⟨position + skip + 2, .notLinked found⟩

/-- A conclusion. It is the last of its rule unless `and` follows. -/
def stepConclusion (bounds : Bounds) (position : Nat) (rest : List Token) :
    Except StreamFault Window := do
  let atom ← readAtom .output bounds.outputs position rest
  if rest[2]? = some (.mark .conjunction) then
    return ⟨.conclusion, .conclusion atom false, 3⟩
  else
    return ⟨.premise, .conclusion atom true, 2⟩

/-- **One step**, from `position` on, where `rest` is what remains of the
stream. -/
def step (bounds : Bounds) (phase : Phase) (position : Nat) (rest : List Token) :
    Except StreamFault Window := do
  match phase with
  | .premise =>
    match ← required position rest[0]? with
    | .mark .closing => return ⟨.premise, .done, 1⟩
    | .mark .conjunction => stepClause bounds position rest (some .and) 1
    | .mark .disjunction => stepClause bounds position rest (some .or) 1
    | .datum _ => stepClause bounds position rest none 0
    | found => throw ⟨position, .notClause found⟩
  | .conclusion => stepConclusion bounds position rest

/-! ## What a step leaves behind -/

theorem length_pos_of_required {position i : Nat} {rest : List Token} {t : Token}
    (h : required position rest[i]? = .ok t) : i < rest.length := by
  cases hr : rest[i]? with
  | none => simp [hr, required] at h
  | some u => exact (List.getElem?_eq_some_iff.mp hr).1

theorem length_of_readTerm {position i : Nat} {rest : List Token} {r : TermRef}
    (h : readTerm position rest[i]? = .ok r) : i < rest.length := by
  unfold readTerm at h
  cases hr : required position rest[i]? with
  | error f => simp [hr, bind, Except.bind] at h
  | ok t => exact length_pos_of_required hr

/-- A statement that has been read was two tokens long. -/
theorem length_of_readAtom {side : Side} {limit position : Nat} {rest : List Token}
    {a : Atom} (h : readAtom side limit position rest = .ok a) : 2 ≤ rest.length := by
  unfold readAtom at h
  cases hs : readSubject side limit position rest[0]? with
  | error f => simp [hs, bind, Except.bind] at h
  | ok n =>
    cases ht : readTerm (position + 1) rest[1]? with
    | error f => simp [hs, ht, bind, Except.bind] at h
    | ok r => exact length_of_readTerm ht

/-- A statement of a premise is left behind with its connective, and with
the mark of consequence if that follows; the token after the statement
has been seen. -/
theorem consumed_of_stepClause {bounds : Bounds} {position skip : Nat}
    {rest : List Token} {link : Option Connective} {t : Window}
    (h : stepClause bounds position rest link skip = .ok t) :
    skip + 2 ≤ t.consumed ∧ t.consumed ≤ rest.length := by
  unfold stepClause at h
  cases ha : readAtom .input bounds.inputs (position + skip) (rest.drop skip) with
  | error f => simp [ha, bind, Except.bind] at h
  | ok a =>
    cases hr : required (position + skip + 2) rest[skip + 2]? with
    | error f => simp [ha, hr, bind, Except.bind] at h
    | ok u =>
      have hlen := length_pos_of_required hr
      simp only [ha, hr, bind, Except.bind] at h
      split at h <;> cases h <;> exact ⟨by simp, by simp; omega⟩

/-- A conclusion is left behind with the `and` that follows it, if one
does. -/
theorem consumed_of_stepConclusion {bounds : Bounds} {position : Nat}
    {rest : List Token} {t : Window}
    (h : stepConclusion bounds position rest = .ok t) :
    2 ≤ t.consumed ∧ t.consumed ≤ rest.length := by
  unfold stepConclusion at h
  cases ha : readAtom .output bounds.outputs position rest with
  | error f => simp [ha, bind, Except.bind] at h
  | ok a =>
    have hlen := length_of_readAtom ha
    simp only [ha, bind, Except.bind] at h
    split at h
    · next hc =>
      cases h
      have := (List.getElem?_eq_some_iff.mp hc).1
      exact ⟨by simp, by simp; omega⟩
    · cases h
      exact ⟨by simp, by simpa using hlen⟩

/-- **A step leaves at least one token behind, and none that was not
there.** -/
theorem consumed_of_step {bounds : Bounds} {phase : Phase} {position : Nat}
    {rest : List Token} {t : Window}
    (h : step bounds phase position rest = .ok t) :
    0 < t.consumed ∧ t.consumed ≤ rest.length := by
  cases phase with
  | premise =>
    cases hr : required position rest[0]? with
    | error f => simp [step, hr, bind, Except.bind] at h
    | ok u =>
      have hlen := length_pos_of_required hr
      simp only [step, hr, bind, Except.bind] at h
      split at h
      · cases h
        exact ⟨Nat.zero_lt_one, hlen⟩
      · have := consumed_of_stepClause h
        omega
      · have := consumed_of_stepClause h
        omega
      · have := consumed_of_stepClause h
        omega
      · cases h
  | conclusion =>
    have := consumed_of_stepConclusion h
    omega

end Stream

end FuzzyInference
