import Mathlib.Logic.Function.Iterate
import FuzzyInference.Proofs.Stream.Table

/-!
# Windows that tile a table

A reader is asked for one item after another, and between two calls it is
nothing but a bookmark (`RuleStream.after`). This module says where the bookmark
is at any time (`RuleStream.tiles`). The items are answered in order, and after
the last one there is nothing, however often the reader is asked again. Their
windows lie side by side in the table: the first one behind the opening mark,
each other one where the one before has ended, and none of them is empty. So
there are no more items than tokens, unless there is no token at all. What ends
a reading is the closing mark or a fault, and a fault leaves the reader in front
of the window that it could not read.

All of this is read off what a single call does (`RuleStream.next?_cases`). It
moves the bookmark by the length of a window, which a step has taken from within
the table, or it leaves the bookmark where the step has set out from, and that
is the place behind the opening mark if the reader has come from in front of it
(`RuleStream.outset`).
-/

namespace FuzzyInference

/-- **Whether an item ends a reading**: it is a fault, or the end of the
rules. -/
def Cursor.Ends : Cursor.Item → Prop
  | .error _ => True
  | .ok (_, e) => e = .done

/-- Only the end of the rules puts an end to a reading. -/
theorem Cursor.statusAfter_eq_finished_iff {e : Event} :
    statusAfter e = .finished ↔ e = .done := by
  cases e <;> simp [statusAfter]

namespace RuleStream

variable {w : Width} {s : RuleStream w} {bounds : Bounds} {b b' : Bookmark} {i : Cursor.Item}
  {n : Nat}

/-! ## Call by call -/

/-- The bookmark after a call. When there is no further item, it stays where it
is. -/
def pass (s : RuleStream w) (bounds : Bounds) (b : Bookmark) : Bookmark :=
  ((s.next? bounds b).map Prod.snd).getD b

/-- **How far a reader has come** after so many calls. -/
def after (s : RuleStream w) (bounds : Bounds) (calls : Nat) : Bookmark :=
  (s.pass bounds)^[calls] .start

theorem after_succ (s : RuleStream w) (bounds : Bounds) (n : Nat) :
    s.after bounds (n + 1) = s.pass bounds (s.after bounds n) :=
  Function.iterate_succ_apply' _ _ _

/-- **Calls answer the items of a reading**, one after the other, from any
bookmark on. By induction on the calls, the first of which is the first move of
the reading. -/
theorem map_next?_iterate (s : RuleStream w) (bounds : Bounds) (b : Bookmark) (n : Nat) :
    (s.next? bounds ((s.pass bounds)^[n] b)).map Prod.fst
      = ((s.trace bounds b).map Prod.fst)[n]? := by
  induction n generalizing b with
  | zero =>
    rw [trace_eq]
    cases hnext : s.next? bounds b with
    | none => exact congrArg (Option.map Prod.fst) hnext
    | some x => exact congrArg (Option.map Prod.fst) hnext
  | succ n ih =>
    rw [Function.iterate_succ_apply, ih, trace_eq s bounds b]
    cases hnext : s.next? bounds b with
    | none =>
      have hpass : s.pass bounds b = b := by rw [pass, hnext]; rfl
      rw [hpass, trace_eq, hnext]
      rfl
    | some x =>
      have hpass : s.pass bounds b = x.2 := by rw [pass, hnext]; rfl
      rw [hpass]
      rfl

theorem map_next?_after (s : RuleStream w) (bounds : Bounds) (n : Nat) :
    (s.next? bounds (s.after bounds n)).map Prod.fst = (s.items bounds)[n]? :=
  s.map_next?_iterate bounds .start n

/-- **An item of a stream** is the answer to a call, which moves the reader. -/
theorem getElem?_items_eq_some (h : (s.items bounds)[n]? = some i) :
    s.next? bounds (s.after bounds n) = some (i, s.after bounds (n + 1)) := by
  rw [← map_next?_after] at h
  obtain ⟨⟨j, b⟩, hnext, rfl⟩ := Option.map_eq_some_iff.mp h
  rw [after_succ, pass, hnext]
  rfl

/-! ## What a call does -/

/-- **Where a call sets out from**: behind the opening mark, if the reader has
been in front of it, and otherwise where the reader is. -/
def outset (s : RuleStream w) (b : Bookmark) : Bookmark :=
  if b.status = .fresh ∧ s.token? 0 = some (.mark .opening) then
    { b with position := 1, status := .reading }
  else b

theorem outset_of_ne_fresh (h : b.status ≠ .fresh) : s.outset b = b :=
  if_neg fun hfresh => h hfresh.1

theorem outset_phase (s : RuleStream w) (b : Bookmark) : (s.outset b).phase = b.phase := by
  unfold outset
  split <;> rfl

/-- The opening mark is read, or there is a fault. -/
theorem opened_cases (s : RuleStream w) {b : Bookmark} (h : b.status = .fresh) :
    (∃ f, s.opened b = .error f ∧ s.outset b = b) ∨
      s.token? 0 = some (.mark .opening) ∧ s.opened b = .ok (s.outset b) := by
  unfold opened outset
  rcases ht : s.token? 0 with _ | v | m
  · exact .inl ⟨_, rfl, if_neg (by simp)⟩
  · cases v with
    | opening => exact .inr ⟨rfl, congrArg Except.ok (if_pos ⟨h, rfl⟩).symm⟩
    | _ => exact .inl ⟨_, rfl, if_neg (by simp)⟩
  · exact .inl ⟨_, rfl, if_neg (by simp)⟩

/-- **A call answers a fault**, and the reader ends where the call has set out
from, **or the event of a step**, and the reader is behind its window. An event
needs the opening mark to have been read. -/
theorem next?_cases (h : s.next? bounds b = some (i, b')) :
    (∃ f, i = .error f ∧ b' = (s.outset b).finish) ∨
      ∃ t, s.step bounds b.phase (s.outset b).position = .ok t ∧
        (b.status = .fresh → (s.outset b).position = 1) ∧
        i = .ok ((s.outset b).position, t.event) ∧ b' = (s.outset b).moved t := by
  unfold next? at h
  cases hstatus : b.status with
  | finished =>
    rw [hstatus] at h
    cases h
  | reading =>
    have houtset : s.outset b = b := outset_of_ne_fresh (by rw [hstatus]; decide)
    rw [hstatus] at h
    rw [houtset]
    rcases s.advance_cases bounds b with ⟨f, hadvance⟩ | ⟨t, hstep, hadvance⟩
    · cases hadvance.symm.trans (Option.some.inj h)
      exact .inl ⟨f, rfl, rfl⟩
    · cases hadvance.symm.trans (Option.some.inj h)
      exact .inr ⟨t, hstep, nofun, rfl, rfl⟩
  | fresh =>
    rw [hstatus] at h
    rcases s.opened_cases hstatus with ⟨f, hopened, houtset⟩ | ⟨hmark, hopened⟩
    · rw [hopened] at h
      rw [houtset]
      cases h
      exact .inl ⟨f, rfl, rfl⟩
    · rw [hopened] at h
      have hposition : (s.outset b).position = 1 := by
        rw [outset, if_pos ⟨hstatus, hmark⟩]
      rcases s.advance_cases bounds (s.outset b) with ⟨f, hadvance⟩ | ⟨t, hstep, hadvance⟩
      · cases hadvance.symm.trans (Option.some.inj h)
        exact .inl ⟨f, rfl, rfl⟩
      · cases hadvance.symm.trans (Option.some.inj h)
        rw [outset_phase] at hstep
        exact .inr ⟨t, hstep, fun _ => hposition, rfl, rfl⟩

/-- There is no answer from a reader that has come to an end, and from no
other. -/
theorem next?_eq_none_iff : s.next? bounds b = none ↔ b.status = .finished := by
  unfold next?
  cases b.status with
  | finished => exact iff_of_true rfl rfl
  | reading => exact iff_of_false (by simp) (by simp)
  | fresh => cases s.opened b <;> exact iff_of_false (by simp) (by simp)

/-- **An answer leaves the reader at its end** if it is one that ends a reading. -/
theorem status_eq_finished_iff (h : s.next? bounds b = some (i, b')) :
    b'.status = .finished ↔ Cursor.Ends i := by
  rcases next?_cases h with ⟨f, rfl, rfl⟩ | ⟨t, -, -, rfl, rfl⟩
  · exact iff_of_true rfl trivial
  · exact Cursor.statusAfter_eq_finished_iff

/-- A reader that has been called has begun. -/
theorem status_ne_fresh (h : s.next? bounds b = some (i, b')) : b'.status ≠ .fresh := by
  rcases next?_cases h with ⟨f, -, rfl⟩ | ⟨t, -, -, -, rfl⟩
  · exact nofun
  · show Cursor.statusAfter t.event ≠ .fresh
    cases t.event <;> exact nofun

/-! ## Where the reader is -/

/-- **Within a table**: a place that is not behind its end. -/
theorem position_pass_le (h : b.position ≤ s.length) : (s.pass bounds b).position ≤ s.length := by
  unfold pass
  cases hnext : s.next? bounds b with
  | none => exact h
  | some x =>
    obtain ⟨i, b'⟩ := x
    show b'.position ≤ s.length
    rcases next?_cases hnext with ⟨f, -, rfl⟩ | ⟨t, hstep, -, -, rfl⟩
    · show (s.outset b).position ≤ s.length
      unfold outset
      split
      · next hopening =>
        -- the opening mark is in the table
        obtain ⟨r, hr, -⟩ := Option.map_eq_some_iff.mp hopening.2
        exact (List.getElem?_eq_some_iff.mp hr).1
      · exact h
    · exact (consumed_of_step hstep).2

/-- By induction on the calls. -/
theorem position_after_le (s : RuleStream w) (bounds : Bounds) (n : Nat) :
    (s.after bounds n).position ≤ s.length := by
  induction n with
  | zero => exact Nat.zero_le _
  | succ n ih =>
    rw [after_succ]
    exact position_pass_le ih

/-- After the first call the reader has begun. -/
theorem outset_after_succ (h : (s.items bounds)[n + 1]? = some i) :
    s.outset (s.after bounds (n + 1)) = s.after bounds (n + 1) := by
  have hlt : n < (s.items bounds).length :=
    Nat.lt_of_succ_lt (List.getElem?_eq_some_iff.mp h).1
  exact outset_of_ne_fresh
    (status_ne_fresh (getElem?_items_eq_some (List.getElem?_eq_getElem hlt)))

/-! ## How many items there are -/

/-- Each item leaves less to read. -/
theorem length_trace_le (s : RuleStream w) (bounds : Bounds) (b : Bookmark) :
    (s.trace bounds b).length ≤ s.remaining b := by
  induction b using trace.induct s bounds with
  | case1 b hnext =>
    rw [trace_eq, hnext]
    exact Nat.zero_le _
  | case2 b i b' hnext ih =>
    rw [trace_eq, hnext]
    exact Nat.succ_le_of_lt (Nat.lt_of_le_of_lt ih (remaining_next? hnext))

/-- **There are no more items than tokens**, unless there is no token. -/
theorem length_items_le (s : RuleStream w) (bounds : Bounds) :
    (s.items bounds).length ≤ max 1 s.length := by
  unfold items
  rw [List.length_map, trace_eq]
  cases hnext : s.next? bounds .start with
  | none => exact Nat.zero_le _
  | some x =>
    obtain ⟨i, b⟩ := x
    have hrest := s.length_trace_le bounds b
    rw [List.length_cons]
    rcases next?_cases hnext with ⟨f, -, rfl⟩ | ⟨t, hstep, hbegun, -, rfl⟩
    · -- nothing is left to read behind a fault
      have hremaining : s.remaining (s.outset .start).finish = 0 := rfl
      omega
    · -- the first window does not begin before the second token, and it is not empty
      have hconsumed := consumed_of_step hstep
      rw [hbegun rfl] at hconsumed
      have hposition : ((s.outset .start).moved t).position = 1 + t.consumed :=
        congrArg (· + t.consumed) (hbegun rfl)
      have hremaining : s.remaining ((s.outset .start).moved t)
          ≤ s.length - (1 + t.consumed) + 1 := by
        rw [← hposition]
        unfold remaining
        split
        · exact Nat.zero_le _
        · exact Nat.le_refl _
        · next hfresh => exact absurd hfresh (status_ne_fresh hnext)
      omega

/-! ## The tiling -/

/-- **A reader that tiles the table.** -/
structure Tiles (s : RuleStream w) (bounds : Bounds) : Prop where
  /-- There are no more items than tokens, or there is a single one and no
  token. -/
  length_le : (s.items bounds).length ≤ max 1 s.length
  /-- Every call is answered with the next item, and with nothing for ever when
  there are no more. -/
  answers (n : Nat) : (s.next? bounds (s.after bounds n)).map Prod.fst = (s.items bounds)[n]?
  /-- The reader never gets behind the end of the table. -/
  position_le (n : Nat) : (s.after bounds n).position ≤ s.length
  /-- The first event begins behind the opening mark. -/
  first {p : Nat} {e : Event} : (s.items bounds)[0]? = some (.ok (p, e)) → p = 1
  /-- Each later one begins where the reader has got to. -/
  next {n p : Nat} {e : Event} : (s.items bounds)[n + 1]? = some (.ok (p, e)) →
    p = (s.after bounds (n + 1)).position
  /-- An event is read by a step from a window that is not empty and lies within
  the table, and the reader gets to its end. -/
  window {n p : Nat} {e : Event} : (s.items bounds)[n]? = some (.ok (p, e)) →
    ∃ t, s.step bounds (s.after bounds n).phase p = .ok t ∧ t.event = e ∧ 0 < t.consumed ∧
      p + t.consumed ≤ s.length ∧ (s.after bounds (n + 1)).phase = t.next ∧
      (s.after bounds (n + 1)).position = p + t.consumed
  /-- An item is the last one if it is a fault or the end of the rules, and
  only then. -/
  last {n : Nat} {i : Cursor.Item} : (s.items bounds)[n]? = some i →
    (Cursor.Ends i ↔ n + 1 = (s.items bounds).length)
  /-- A fault at the beginning leaves the reader behind the opening mark, if
  there is one. -/
  fault_first {f : StreamFault} : (s.items bounds)[0]? = some (.error f) →
    (s.after bounds 1).position = if s.token? 0 = some (.mark .opening) then 1 else 0
  /-- A fault anywhere else leaves it where it was. -/
  fault_next {n : Nat} {f : StreamFault} : (s.items bounds)[n + 1]? = some (.error f) →
    (s.after bounds (n + 2)).position = (s.after bounds (n + 1)).position
  /-- A fault does not change the phase of reading. -/
  fault_phase {n : Nat} {f : StreamFault} : (s.items bounds)[n]? = some (.error f) →
    (s.after bounds (n + 1)).phase = (s.after bounds n).phase

/-- What an event says about the call that it answers. -/
theorem window_of_event {p : Nat} {e : Event} (h : (s.items bounds)[n]? = some (.ok (p, e))) :
    p = (s.outset (s.after bounds n)).position ∧
      ∃ t, s.step bounds (s.after bounds n).phase p = .ok t ∧
        ((s.after bounds n).status = .fresh → p = 1) ∧ t.event = e ∧
        s.after bounds (n + 1) = (s.outset (s.after bounds n)).moved t := by
  rcases next?_cases (getElem?_items_eq_some h) with ⟨f, hf, -⟩ | ⟨t, hstep, hbegun, hi, hafter⟩
  · cases hf
  · cases hi
    exact ⟨rfl, t, hstep, hbegun, rfl, hafter⟩

/-- What a fault says about the call that it answers. -/
theorem after_of_fault {f : StreamFault} (h : (s.items bounds)[n]? = some (.error f)) :
    s.after bounds (n + 1) = (s.outset (s.after bounds n)).finish := by
  rcases next?_cases (getElem?_items_eq_some h) with ⟨g, -, hafter⟩ | ⟨t, -, -, hi, -⟩
  · exact hafter
  · cases hi

/-- There is an item after an item unless it ends the reading. -/
theorem ends_iff (h : (s.items bounds)[n]? = some i) :
    Cursor.Ends i ↔ n + 1 = (s.items bounds).length := by
  have hlt : n < (s.items bounds).length := (List.getElem?_eq_some_iff.mp h).1
  calc Cursor.Ends i
      ↔ (s.after bounds (n + 1)).status = .finished :=
        (status_eq_finished_iff (getElem?_items_eq_some h)).symm
    _ ↔ s.next? bounds (s.after bounds (n + 1)) = none := next?_eq_none_iff.symm
    _ ↔ (s.items bounds)[n + 1]? = none := by rw [← map_next?_after, Option.map_eq_none_iff]
    _ ↔ n + 1 = (s.items bounds).length := by
        rw [List.getElem?_eq_none_iff]
        omega

/-- **Every table is tiled**, whatever stands in it. -/
theorem tiles (s : RuleStream w) (bounds : Bounds) : s.Tiles bounds where
  length_le := s.length_items_le bounds
  answers := s.map_next?_after bounds
  position_le := s.position_after_le bounds
  first h := by
    obtain ⟨-, t, -, hbegun, -⟩ := window_of_event h
    exact hbegun rfl
  next h := by
    rw [(window_of_event h).1, outset_after_succ h]
  window h := by
    obtain ⟨rfl, t, hstep, -, he, hafter⟩ := window_of_event h
    obtain ⟨hpos, hle⟩ := consumed_of_step hstep
    rw [hafter]
    exact ⟨t, hstep, he, hpos, hle, rfl, rfl⟩
  last := ends_iff
  fault_first h := by
    rw [after_of_fault h]
    show (s.outset .start).position = _
    unfold outset
    by_cases hopening : s.token? 0 = some (.mark .opening)
    · rw [if_pos ⟨rfl, hopening⟩, if_pos hopening]
    · rw [if_neg fun h => hopening h.2, if_neg hopening]
      rfl
  fault_next h := by
    rw [after_of_fault h, outset_after_succ h]
    rfl
  fault_phase h := by
    rw [after_of_fault h]
    exact s.outset_phase _

end RuleStream

end FuzzyInference
