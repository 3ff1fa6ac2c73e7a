import FuzzyInference.Proofs.Stream.Acceptance
import FuzzyInference.Stream.Table

/-!
# Tables and tokens

A reader of a table of raw tokens and a cursor in the list of what they
mean go through the same events. The cursor has with it what is still to
come, the reader has only its bookmark, and they are together as long as
what is still to come is what stands behind the bookmark (`Cursor.Follows`).
One move keeps them together (`Cursor.next?_of_follows`), so a whole reading
does (`Cursor.trace_of_follows`).

A table of another width that means the same tokens is read alike, from any
bookmark on (`RuleStream.trace_congr`), although what is a mark in one table
may be plain data in the other.
-/

namespace FuzzyInference

namespace RuleStream

variable {w w' : Width} {s : RuleStream w} {s' : RuleStream w'} {bounds : Bounds} {b : Bookmark}

/-- The items of a table, one item further. -/
theorem trace_eq (s : RuleStream w) (bounds : Bounds) (b : Bookmark) :
    s.trace bounds b = match s.next? bounds b with
      | none => []
      | some (i, b') => (i, b') :: s.trace bounds b' := by
  rw [trace]
  split
  · next h => rw [h]
  · next h => rw [h]

/-! ## Two tables -/

section Congr

variable (h : s.tokens = s'.tokens)

include h

/-- **A step is the same** in tables that mean the same tokens. -/
theorem step_congr (bounds : Bounds) (phase : Phase) (position : Nat) :
    s.step bounds phase position = s'.step bounds phase position := by
  rw [step_eq, step_eq, h]

theorem next?_congr (bounds : Bounds) (b : Bookmark) : s.next? bounds b = s'.next? bounds b := by
  have htoken : s.token? 0 = s'.token? 0 := by
    rw [s.token?_eq 0 0, s'.token?_eq 0 0, h]
  unfold next? opened advance
  simp only [htoken, step_congr h]

/-- **A whole reading is the same**, from any bookmark on. By induction on the
reading of one of the tables. -/
theorem trace_congr (bounds : Bounds) (b : Bookmark) : s.trace bounds b = s'.trace bounds b := by
  induction b using trace.induct s bounds with
  | case1 b hnext => rw [trace_eq s, trace_eq s', ← next?_congr h, hnext]
  | case2 b i b' hnext ih =>
    rw [trace_eq s, trace_eq s', ← next?_congr h, hnext]
    exact congrArg _ ih

end Congr

end RuleStream

/-! ## A table and its tokens -/

namespace Cursor

variable {w : Width} {s : RuleStream w} {c : Cursor}

/-- How far a cursor has come. -/
def bookmark (c : Cursor) : Bookmark := ⟨c.position, c.phase, c.ruleOpen, c.status⟩

/-- **Whether a cursor is within the tokens of a table**: what is still to
come for it is what stands there behind its position. -/
structure Follows (s : RuleStream w) (c : Cursor) : Prop where
  /-- What is still to come. -/
  rest : c.rest = s.tokens.drop c.position
  /-- At the beginning nothing has been left behind. -/
  fresh : c.status = .fresh → c.position = 0

theorem follows_start (s : RuleStream w) (bounds : Bounds) : (start bounds s.tokens).Follows s :=
  ⟨List.drop_zero.symm, fun _ => rfl⟩

/-- **What a move leads to** for the reader is what it leads to for the cursor,
and they are still together. -/
structure Keeps (s : RuleStream w) (c : Cursor) (x : Item × Cursor) (y : Item × Bookmark) :
    Prop where
  /-- The item, and how far it has got them. -/
  move : y = (x.1, x.2.bookmark)
  /-- The variables there are to speak of. -/
  bounds : x.2.bounds = c.bounds
  /-- They are together. -/
  follows : x.2.Follows s

theorem advance_of_follows (h : c.Follows s) :
    Keeps s c c.advance (s.advance c.bounds c.bookmark) := by
  have hstep : s.step c.bounds c.phase c.position
      = Stream.step c.bounds c.phase c.position c.rest := by rw [RuleStream.step_eq, h.rest]
  unfold advance RuleStream.advance bookmark
  simp only [hstep]
  cases Stream.step c.bounds c.phase c.position c.rest with
  | error f => exact ⟨rfl, rfl, h.rest, fun hfresh => by cases hfresh⟩
  | ok t =>
    by_cases hlink : isLinked t.event ∧ ¬ c.ruleOpen
    · simp only [if_pos hlink]
      exact ⟨rfl, rfl, h.rest, fun hfresh => by cases hfresh⟩
    · simp only [if_neg hlink]
      refine ⟨rfl, rfl, ?_, fun hfresh => ?_⟩
      · show c.rest.drop t.consumed = s.tokens.drop (c.position + t.consumed)
        rw [h.rest, List.drop_drop]
      · cases he : t.event <;> rw [moved, he] at hfresh <;> cases hfresh

/-- Both open the stream, or neither does, for the same reason. -/
theorem opened_of_follows (h : c.Follows s) (hfresh : c.status = .fresh) :
    s.opened c.bookmark = c.opened.map bookmark ∧
      ∀ d, c.opened = .ok d → d.bounds = c.bounds ∧ d.Follows s := by
  have htokens : c.rest = s.tokens := by rw [h.rest, h.fresh hfresh, List.drop_zero]
  have htoken : s.token? 0 = c.rest[0]? := by rw [s.token?_eq 0 0, List.drop_zero, htokens]
  unfold opened RuleStream.opened
  rw [htoken]
  cases hrest : c.rest with
  | nil => exact ⟨rfl, fun d hd => by cases hd⟩
  | cons t rest =>
    cases t with
    | datum v => exact ⟨rfl, fun d hd => by cases hd⟩
    | mark m =>
      cases m with
      | opening =>
        refine ⟨rfl, fun d hd => ?_⟩
        cases hd
        refine ⟨rfl, ?_, fun hfresh => by cases hfresh⟩
        show rest = s.tokens.drop 1
        rw [← htokens, hrest]
        rfl
      | _ => exact ⟨rfl, fun d hd => by cases hd⟩

/-- **One move keeps them together**, and there is one for both of them or for
neither. -/
theorem next?_of_follows (h : c.Follows s) :
    Option.Rel (Keeps s c) c.next? (s.next? c.bounds c.bookmark) := by
  have hstatus : c.bookmark.status = c.status := rfl
  unfold next? RuleStream.next?
  rw [hstatus]
  cases hc : c.status with
  | finished => exact .none
  | reading => exact .some (advance_of_follows h)
  | fresh =>
    obtain ⟨hopened, hfollows⟩ := opened_of_follows h hc
    simp only [hopened]
    cases hd : c.opened with
    | error f => exact .some ⟨rfl, rfl, h.rest, fun hfresh => by cases hfresh⟩
    | ok d =>
      obtain ⟨hbounds, hd⟩ := hfollows d hd
      have hadvance := advance_of_follows hd
      rw [hbounds] at hadvance
      exact .some ⟨hadvance.move, hadvance.bounds.trans hbounds, hadvance.follows⟩

/-- The items of a cursor with the cursors after them, one item further. -/
theorem trace_eq (c : Cursor) :
    c.trace = match c.next? with
      | none => []
      | some (i, d) => (i, d) :: d.trace := by
  rw [trace]
  split
  · next h => rw [h]
  · next h => rw [h]

/-- **A reader goes through what a cursor goes through.** By induction on the
way of the cursor. -/
theorem trace_of_follows (h : c.Follows s) :
    s.trace c.bounds c.bookmark = c.trace.map fun x => (x.1, x.2.bookmark) := by
  induction c using trace.induct with
  | case1 c hnext =>
    have hmove := next?_of_follows h
    rw [RuleStream.trace_eq, trace_eq, hnext]
    rw [hnext] at hmove
    generalize s.next? c.bounds c.bookmark = o at hmove ⊢
    cases hmove
    rfl
  | case2 c i d hnext ih =>
    have hmove := next?_of_follows h
    rw [RuleStream.trace_eq, trace_eq, hnext]
    rw [hnext] at hmove
    generalize s.next? c.bounds c.bookmark = o at hmove ⊢
    cases hmove with
    | some hkeeps =>
      obtain ⟨rfl, hbounds, hfollows⟩ := hkeeps
      rw [← hbounds]
      exact congrArg _ (ih hfollows)

end Cursor

/-- **The items of a table are those of its tokens.** -/
theorem RuleStream.items_eq {w : Width} (s : RuleStream w) (bounds : Bounds) :
    s.items bounds = Stream.items bounds s.tokens := by
  have htrace := Cursor.trace_of_follows (Cursor.follows_start s bounds)
  show (s.trace bounds .start).map Prod.fst = ((Cursor.start bounds s.tokens).trace).map Prod.fst
  rw [show s.trace bounds .start = _ from htrace, List.map_map]
  rfl

end FuzzyInference
