import FuzzyInference.Stream.Step

/-!
# Reading a rule stream from end to end

A `Cursor` stands somewhere in a rule stream. `Cursor.next?` moves it by
one step and gives the event it passed, with the position the event
began at; `Cursor.trace` does so until the closing mark or the first
fault. Besides the steps the cursor sees to two things that no step can:
that the stream begins with the opening mark, and that the first
statement of a premise has no connective in front of it. Tokens after the
closing mark are not read.
-/

namespace FuzzyInference

/-- How far a cursor has come. -/
inductive Cursor.Status where
  /-- The opening mark has not been read. -/
  | fresh
  /-- Between the opening mark and the end. -/
  | reading
  /-- The closing mark or a fault has been met. -/
  | finished
deriving DecidableEq, Repr

/-- **A place in a rule stream.** -/
structure Cursor where
  /-- How many variables there are to speak of. -/
  bounds : Bounds
  /-- The tokens that have not been left behind. -/
  rest : List Token
  /-- How many have. -/
  position : Nat
  /-- The phase of reading. -/
  phase : Phase
  /-- Whether a premise or its conclusions have begun. -/
  ruleOpen : Bool
  /-- How far the cursor has come. -/
  status : Cursor.Status
deriving DecidableEq, Repr

namespace Cursor

/-- What a cursor gives: an event and the position it began at, or the
fault that ends the reading. -/
abbrev Item := Except StreamFault (Nat × Event)

/-- The cursor before a stream. -/
def start (bounds : Bounds) (tokens : List Token) : Cursor :=
  ⟨bounds, tokens, 0, .premise, false, .fresh⟩

/-- The cursor with nothing more to read. -/
def finish (c : Cursor) : Cursor := { c with status := .finished }

/-- The cursor behind the opening mark. -/
def opened (c : Cursor) : Except StreamFault Cursor :=
  match c.rest with
  | [] => .error ⟨0, .noTokens⟩
  | .mark .opening :: rest =>
    .ok { c with rest := rest, position := 1, status := .reading }
  | found :: _ => .error ⟨0, .notOpening found⟩

/-- Whether an event has a connective in front of it. -/
def isLinked : Event → Bool
  | .clause link _ _ => link.isSome
  | _ => false

/-- Whether a rule is open after an event, when it was before or was
not. -/
def opensRule (before : Bool) : Event → Bool
  | .clause _ _ _ => true
  | .conclusion _ closes => before && !closes
  | .done => before

/-- The status after an event. -/
def statusAfter : Event → Status
  | .done => .finished
  | _ => .reading

/-- The cursor after a step. -/
def moved (c : Cursor) (t : Window) : Cursor :=
  { c with
    rest := c.rest.drop t.consumed
    position := c.position + t.consumed
    phase := t.next
    ruleOpen := opensRule c.ruleOpen t.event
    status := statusAfter t.event }

/-- One step within the stream. -/
def advance (c : Cursor) : Item × Cursor :=
  match Stream.step c.bounds c.phase c.position c.rest with
  | .error f => (.error f, c.finish)
  | .ok t =>
    if isLinked t.event ∧ ¬ c.ruleOpen then
      (.error ⟨c.position, .danglingConnective⟩, c.finish)
    else (.ok (c.position, t.event), c.moved t)

/-- **The next item**, with the cursor after it, until the end. -/
def next? (c : Cursor) : Option (Item × Cursor) :=
  match c.status with
  | .finished => none
  | .reading => some c.advance
  | .fresh =>
    match c.opened with
    | .error f => some (.error f, c.finish)
    | .ok c => some c.advance

/-! ## Progress

Every step leaves a token behind, or ends the reading. -/

/-- A measure of what is still to be read. -/
def remaining (c : Cursor) : Nat :=
  if c.status = .finished then 0 else c.rest.length + 1

@[simp] theorem remaining_finish (c : Cursor) : c.finish.remaining = 0 := by
  simp [remaining, finish]

theorem remaining_pos {c : Cursor} (h : c.status ≠ .finished) :
    c.remaining = c.rest.length + 1 := by
  simp [remaining, h]

/-- A step within the stream leaves less to read. -/
theorem remaining_advance {c : Cursor} (h : c.status ≠ .finished) :
    c.advance.2.remaining < c.remaining := by
  rw [remaining_pos h]
  unfold advance
  cases hs : Stream.step c.bounds c.phase c.position c.rest with
  | error f => rw [remaining_finish]; omega
  | ok t =>
    have hp := Stream.consumed_of_step hs
    by_cases hl : isLinked t.event ∧ ¬ c.ruleOpen
    · simp only [if_pos hl, remaining_finish]
      omega
    · simp only [if_neg hl, remaining, moved, List.length_drop]
      split <;> omega

theorem remaining_opened {c d : Cursor} (h : c.opened = .ok d) :
    d.remaining < c.rest.length + 1 ∧ d.status ≠ .finished := by
  unfold opened at h
  split at h <;> cases h
  simp_all [remaining]

/-- **The reading ends**: each item leaves less to read. -/
theorem remaining_next? {c d : Cursor} {i : Item} (h : c.next? = some (i, d)) :
    d.remaining < c.remaining := by
  unfold next? at h
  split at h
  · cases h
  · next hs =>
    have := remaining_advance (c := c) (by simp [hs])
    simp_all
  · next hs =>
    split at h
    · cases h
      simp only [remaining_finish]
      simp [remaining, hs]
    · next e he =>
      have ho := remaining_opened he
      have := remaining_advance ho.2
      have hc : c.remaining = c.rest.length + 1 := by simp [remaining, hs]
      simp_all
      omega

/-- **The items from a cursor on**, each with the cursor after it. -/
def trace (c : Cursor) : List (Item × Cursor) :=
  match _h : c.next? with
  | none => []
  | some (i, d) => (i, d) :: d.trace
termination_by c.remaining
decreasing_by exact remaining_next? _h

/-- The items from a cursor on. -/
def items (c : Cursor) : List Item := c.trace.map Prod.fst

end Cursor

namespace Stream

/-- **The items of a stream.** -/
def items (bounds : Bounds) (tokens : List Token) : List Cursor.Item :=
  (Cursor.start bounds tokens).items

/-- The events of a stream with the positions they began at, or the fault
the stream is refused for. -/
def events (bounds : Bounds) (tokens : List Token) :
    Except StreamFault (List (Nat × Event)) :=
  (items bounds tokens).mapM id

end Stream

end FuzzyInference
