import Mathlib.Algebra.Order.BigOperators.Group.List
import Mathlib.Order.ConditionallyCompleteLattice.Basic
import FuzzyInference.Defuzzify.Samples
import FuzzyInference.Proofs.Scalar.Real

/-!
# The points of a curve

Most methods of defuzzification pass over the points of a curve once, from the
first to the last, and keep some findings as they go along. What they keep is
said of the part of the curve that has been seen, and one more point makes this
part longer by one sample (`Samples.foldl_points_induction`).

The answers are compared with two kinds of points: those where the curve is above
zero, and those where it is highest. A curve that has an area is above zero
somewhere, and so there is a first and a last such point
(`Samples.exists_support`).
-/

namespace FuzzyInference

namespace Samples

/-- **What one more sample keeps** is kept by a whole pass over the points. -/
theorem foldl_points_induction {α β : Type} [Scalar α] {s : Samples α} {f : β → α × α → β} {b : β}
    (P : List α → β → Prop) (hb : P [] b)
    (hstep : ∀ front y rest b, s.ys = front ++ y :: rest → P front b →
      P (front ++ [y]) (f b (s.x front.length, y))) : P s.ys (s.points.foldl f b) := by
  have hrest (rest front : List α) (b : β) (hys : s.ys = front ++ rest) (hfront : P front b) :
      P s.ys (((rest.zipIdx front.length).map fun p => (s.x p.2, p.1)).foldl f b) := by
    induction rest generalizing front b with
    | nil =>
      rw [hys, List.append_nil]
      exact hfront
    | cons y rest ih =>
      have hnext := ih (front ++ [y]) _ (by simpa using hys) (hstep front y rest b hys hfront)
      rw [List.length_append, List.length_singleton] at hnext
      exact hnext
  exact hrest s.ys [] b rfl hb

/-! ## The centre of gravity -/

section Moments

variable {α : Type} [Scalar α] (s : Samples α)

/-- What the centre of gravity is computed from: the moment and the mass. -/
def moments : α × α := s.points.foldl (fun b p => (b.1 + p.1 * p.2, b.2 + p.2)) (0, 0)

theorem centroid_eq : s.centroid
    = if 0 < s.moments.2 then s.moments.1 / s.moments.2 else Scalar.nan := rfl

theorem map_snd_points : s.points.map Prod.snd = s.ys := by
  rw [points, List.map_map]
  exact List.zipIdx_map_fst 0 s.ys

/-- **The mass is the area**, over all scalars: both are the sum of the samples, in
order. -/
theorem moments_snd : s.moments.2 = s.area := by
  rw [moments, area, Scalar.sum, ← map_snd_points, List.foldl_map]
  have hstep (b p : α × α) : b.2 + p.2 = (b.1 + p.1 * p.2, b.2 + p.2).2 := rfl
  exact (List.foldl_hom Prod.snd hstep).symm

end Moments

/-! ## Where a curve is above zero -/

/-- A point is where the curve is **above zero**. -/
def IsActive (s : Samples ℝ) (k : Nat) : Prop := ∃ y, s.ys[k]? = some y ∧ 0 < y

/-- A point is where the curve is **highest**. -/
def IsHighest (s : Samples ℝ) (k : Nat) : Prop := ∃ top, s.ys[k]? = some top ∧ ∀ y ∈ s.ys, y ≤ top

variable {s : Samples ℝ}

/-- The points are in order. -/
theorem x_le_x (hstep : 0 ≤ s.step) {j k : Nat} (h : j ≤ k) : s.x j ≤ s.x k :=
  add_le_add_right (mul_le_mul_of_nonneg_left (Nat.cast_le.mpr h) hstep) s.x0

/-- A sample that is not below zero is above the value to begin with. -/
theorem underneath_lt {y : ℝ} (hy : 0 ≤ y) : underneath < y :=
  lt_of_lt_of_le (neg_lt_zero.mpr one_pos) hy

theorem area_eq_sum : s.area = s.ys.sum := List.sum_eq_foldl.symm

/-- A curve with an area has samples. -/
theorem ys_ne_nil (harea : 0 < s.area) : s.ys ≠ [] := by
  intro hnil
  rw [area_eq_sum, hnil] at harea
  exact lt_irrefl 0 harea

/-- **A list with a sum above zero** has an element above zero. -/
theorem exists_pos_of_sum_pos {ys : List ℝ} (h : 0 < ys.sum) : ∃ y ∈ ys, 0 < y :=
  List.exists_lt_of_sum_lt (fun _ => 0) id (by simpa using h)

/-- **The support of a curve** that has an area: there is a first point and a last
one where it is above zero. -/
theorem exists_support (harea : 0 < s.area) :
    ∃ lo hi, IsLeast {k | s.IsActive k} lo ∧ IsGreatest {k | s.IsActive k} hi := by
  have hsome : {k | s.IsActive k}.Nonempty := by
    obtain ⟨y, hy, hpos⟩ := exists_pos_of_sum_pos (area_eq_sum ▸ harea)
    obtain ⟨k, hk⟩ := List.getElem?_of_mem hy
    exact ⟨k, y, hk, hpos⟩
  have hbounded : BddAbove {k | s.IsActive k} := by
    refine ⟨s.ys.length, ?_⟩
    rintro k ⟨y, hk, -⟩
    exact (List.getElem?_eq_some_iff.mp hk).1.le
  exact ⟨_, _, ⟨Nat.sInf_mem hsome, fun k hk => Nat.sInf_le hk⟩,
    ⟨Nat.sSup_mem hsome hbounded, fun k hk => le_csSup hbounded hk⟩⟩

end Samples

end FuzzyInference
