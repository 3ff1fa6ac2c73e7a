import FuzzyInference.Stream.Cursor
import FuzzyInference.Stream.Encode

/-!
# Reading a stream as it is stored

A rule stream is stored as a table of raw tokens of some width, and this is
how it is read: place by place, and what a raw token means is found out
wherever one is looked at, also where the reader only looks ahead. A
`Bookmark` says how far the reader has come. The table stays as it is.

A `Cursor` does the same to a list of tokens, which it uses up as it goes
along. `RuleStream.step_eq` says that the steps are the same;
`FuzzyInference.Proofs.Stream.Table` that whole readings are.
-/

namespace FuzzyInference

/-- **How far a reader has come** in a table of raw tokens. -/
structure Bookmark where
  /-- The place to go on from. -/
  position : Nat
  /-- The phase of reading. -/
  phase : Phase
  /-- Whether a premise or its conclusions have begun. -/
  ruleOpen : Bool
  /-- Whether the reader has begun, and whether it has come to an end. -/
  status : Cursor.Status
deriving DecidableEq, Repr

namespace Bookmark

/-- The bookmark in front of a table. -/
def start : Bookmark := ⟨0, .premise, false, .fresh⟩

/-- The bookmark of a reader that has come to an end. -/
def finish (b : Bookmark) : Bookmark := { b with status := .finished }

/-- The bookmark after a step. -/
def moved (b : Bookmark) (t : Window) : Bookmark where
  position := b.position + t.consumed
  phase := t.next
  ruleOpen := Cursor.opensRule b.ruleOpen t.event
  status := Cursor.statusAfter t.event

end Bookmark

namespace RuleStream

variable {w : Width}

/-! ## One step -/

/-- **What stands in a place** of a stream, if the stream goes that far. -/
def token? (s : RuleStream w) (position : Nat) : Option Token :=
  s.table[position]?.map Token.ofRaw

/-- A statement about a variable of one side. -/
def readAtom (s : RuleStream w) (side : Side) (limit position : Nat) :
    Except StreamFault Atom := do
  let subject ← Stream.readSubject side limit position (s.token? position)
  let term ← Stream.readTerm (position + 1) (s.token? (position + 1))
  return ⟨subject, term⟩

/-- A statement of a premise, `skip` places behind its connective if it has
one. The token after it says whether the premise goes on. -/
def stepClause (s : RuleStream w) (bounds : Bounds) (position : Nat) (link : Option Connective)
    (skip : Nat) : Except StreamFault Window := do
  let atom ← s.readAtom .input bounds.inputs (position + skip)
  let after := position + skip + 2
  match ← Stream.required after (s.token? after) with
  | .mark .consequence => return ⟨.conclusion, .clause link atom true, after + 1 - position⟩
  | .mark .conjunction => return ⟨.premise, .clause link atom false, after - position⟩
  | .mark .disjunction => return ⟨.premise, .clause link atom false, after - position⟩
  | found => throw ⟨after, .notLinked found⟩

/-- A conclusion. It is the last of its rule unless `and` follows. -/
def stepConclusion (s : RuleStream w) (bounds : Bounds) (position : Nat) :
    Except StreamFault Window := do
  let atom ← s.readAtom .output bounds.outputs position
  if s.token? (position + 2) = some (.mark .conjunction) then
    return ⟨.conclusion, .conclusion atom false, 3⟩
  else
    return ⟨.premise, .conclusion atom true, 2⟩

/-- **One step**, from a place of the table on. -/
def step (s : RuleStream w) (bounds : Bounds) (phase : Phase) (position : Nat) :
    Except StreamFault Window := do
  match phase with
  | .premise =>
    match ← Stream.required position (s.token? position) with
    | .mark .closing => return ⟨.premise, .done, 1⟩
    | .mark .conjunction => s.stepClause bounds position (some .and) 1
    | .mark .disjunction => s.stepClause bounds position (some .or) 1
    | .datum _ => s.stepClause bounds position none 0
    | found => throw ⟨position, .notClause found⟩
  | .conclusion => s.stepConclusion bounds position

/-- What stands in a place of the table is what stands there among the
tokens that are still to come. -/
theorem token?_eq (s : RuleStream w) (position i : Nat) :
    s.token? (position + i) = (s.tokens.drop position)[i]? := by
  rw [List.getElem?_drop, tokens, List.getElem?_map]
  rfl

theorem readAtom_eq (s : RuleStream w) (side : Side) (limit position : Nat) :
    s.readAtom side limit position
      = Stream.readAtom side limit position (s.tokens.drop position) := by
  unfold readAtom Stream.readAtom
  rw [← token?_eq, ← token?_eq]
  rfl

theorem stepClause_eq (s : RuleStream w) (bounds : Bounds) (position : Nat)
    (link : Option Connective) (skip : Nat) :
    s.stepClause bounds position link skip
      = Stream.stepClause bounds position (s.tokens.drop position) link skip := by
  have hclosing : position + skip + 2 + 1 - position = skip + 3 := by omega
  have hlinking : position + skip + 2 - position = skip + 2 := by omega
  unfold stepClause Stream.stepClause
  simp only [hclosing, hlinking]
  rw [readAtom_eq, List.drop_drop, ← token?_eq]
  rfl

theorem stepConclusion_eq (s : RuleStream w) (bounds : Bounds) (position : Nat) :
    s.stepConclusion bounds position
      = Stream.stepConclusion bounds position (s.tokens.drop position) := by
  unfold stepConclusion Stream.stepConclusion
  rw [readAtom_eq, ← token?_eq]

/-- **A step in the table is a step in the tokens** that are still to come. -/
theorem step_eq (s : RuleStream w) (bounds : Bounds) (phase : Phase) (position : Nat) :
    s.step bounds phase position
      = Stream.step bounds phase position (s.tokens.drop position) := by
  cases phase with
  | premise =>
    unfold step Stream.step
    simp only [stepClause_eq]
    rw [← token?_eq]
    rfl
  | conclusion => exact stepConclusion_eq s bounds position

/-- **A step goes on** within the table. -/
theorem consumed_of_step {s : RuleStream w} {bounds : Bounds} {phase : Phase} {position : Nat}
    {t : Window} (h : s.step bounds phase position = .ok t) :
    0 < t.consumed ∧ position + t.consumed ≤ s.length := by
  rw [step_eq] at h
  have hconsumed := Stream.consumed_of_step h
  rw [List.length_drop, tokens, List.length_map] at hconsumed
  unfold length
  omega

/-! ## From step to step -/

/-- The bookmark behind the opening mark. -/
def opened (s : RuleStream w) (b : Bookmark) : Except StreamFault Bookmark :=
  match s.token? 0 with
  | none => .error ⟨0, .noTokens⟩
  | some (.mark .opening) => .ok { b with position := 1, status := .reading }
  | some found => .error ⟨0, .notOpening found⟩

/-- One step within the stream. -/
def advance (s : RuleStream w) (bounds : Bounds) (b : Bookmark) : Cursor.Item × Bookmark :=
  match s.step bounds b.phase b.position with
  | .error f => (.error f, b.finish)
  | .ok t =>
    if Cursor.isLinked t.event ∧ ¬ b.ruleOpen then
      (.error ⟨b.position, .danglingConnective⟩, b.finish)
    else (.ok (b.position, t.event), b.moved t)

/-- **The next item**, with the bookmark behind it, until the end. -/
def next? (s : RuleStream w) (bounds : Bounds) (b : Bookmark) :
    Option (Cursor.Item × Bookmark) :=
  match b.status with
  | .finished => none
  | .reading => some (s.advance bounds b)
  | .fresh =>
    match s.opened b with
    | .error f => some (.error f, b.finish)
    | .ok b => some (s.advance bounds b)

/-- A measure of what is still to be read. -/
def remaining (s : RuleStream w) (b : Bookmark) : Nat :=
  match b.status with
  | .finished => 0
  | .reading => s.length - b.position + 1
  | .fresh => s.length + 2

/-- A step within the stream fails and ends the reading, or it moves the
bookmark. -/
theorem advance_cases (s : RuleStream w) (bounds : Bounds) (b : Bookmark) :
    (∃ f, s.advance bounds b = (.error f, b.finish)) ∨
    ∃ t, s.step bounds b.phase b.position = .ok t ∧
      s.advance bounds b = (.ok (b.position, t.event), b.moved t) := by
  unfold advance
  cases s.step bounds b.phase b.position with
  | error f => exact .inl ⟨f, rfl⟩
  | ok t =>
    by_cases hlink : Cursor.isLinked t.event ∧ ¬ b.ruleOpen
    · exact .inl ⟨_, if_pos hlink⟩
    · exact .inr ⟨t, rfl, if_neg hlink⟩

/-- A step within the stream leaves less to read. -/
theorem remaining_advance (s : RuleStream w) (bounds : Bounds) {b : Bookmark}
    (h : b.status = .reading) : s.remaining (s.advance bounds b).2 < s.remaining b := by
  have hb : s.remaining b = s.length - b.position + 1 := by
    unfold remaining
    rw [h]
  rw [hb]
  rcases s.advance_cases bounds b with ⟨f, hadvance⟩ | ⟨t, hstep, hadvance⟩
  · rw [hadvance]
    exact Nat.succ_pos _
  · rw [hadvance]
    have hconsumed := consumed_of_step hstep
    unfold remaining
    split
    · exact Nat.succ_pos _
    · show s.length - (b.position + t.consumed) + 1 < _
      omega
    · next hfresh => cases he : t.event <;> rw [Bookmark.moved, he] at hfresh <;> cases hfresh

/-- **The reading ends**: each item leaves less to read. -/
theorem remaining_next? {s : RuleStream w} {bounds : Bounds} {b b' : Bookmark} {i : Cursor.Item}
    (h : s.next? bounds b = some (i, b')) : s.remaining b' < s.remaining b := by
  unfold next? at h
  split at h
  · cases h
  · next hreading =>
    have hlt := s.remaining_advance bounds hreading
    rw [Option.some.inj h] at hlt
    exact hlt
  · next hfresh =>
    have hb : s.remaining b = s.length + 2 := by
      unfold remaining
      rw [hfresh]
    rw [hb]
    split at h
    · cases h
      exact Nat.succ_pos _
    · next o hopened =>
      -- behind the opening mark there is less to read than in front of it, and then a step
      have ho : o.status = .reading ∧ o.position = 1 := by
        unfold opened at hopened
        split at hopened <;> cases hopened
        exact ⟨rfl, rfl⟩
      have hlt := s.remaining_advance bounds ho.1
      rw [Option.some.inj h] at hlt
      have hlt : s.remaining b' < s.remaining o := hlt
      have hremaining : s.remaining o = s.length - 1 + 1 := by
        unfold remaining
        rw [ho.1, ho.2]
      omega

/-- **The items from a bookmark on**, each with the bookmark behind it. -/
def trace (s : RuleStream w) (bounds : Bounds) (b : Bookmark) : List (Cursor.Item × Bookmark) :=
  match _h : s.next? bounds b with
  | none => []
  | some (i, b') => (i, b') :: s.trace bounds b'
termination_by s.remaining b
decreasing_by exact remaining_next? _h

/-- **The items of a stream.** -/
def items (s : RuleStream w) (bounds : Bounds) : List Cursor.Item :=
  (s.trace bounds .start).map Prod.fst

end RuleStream

end FuzzyInference
