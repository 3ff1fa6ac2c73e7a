import Mathlib.Analysis.SpecialFunctions.Pow.Real
import FuzzyInference.Proofs.Norm.Exact
import FuzzyInference.Proofs.Scalar.Number

/-!
# Degrees among scalars

A degree of truth is a real number between zero and one, and a scalar is a
degree if it is such a number (`Scalar.IsDegree`). What is made of degrees in one
of the ways that are collected here is a degree again.

What is proved of norms between real degrees holds over such scalars as well, as
long as it is degrees that are combined: a norm makes of numbers what it makes of
them over the real numbers (`Norm.apply_number`). Zero is special among degrees.
An s-norm does not make anything of zeros (`Norm.apply_zero_zero`), and a t-norm
makes zero of zero and any other degree (`Norm.apply_zero_left`).
-/

namespace FuzzyInference

open Scalar.HasNumbers

variable {α : Type} [Scalar α] [Scalar.HasNumbers α]

namespace Scalar

/-- **A scalar that is a degree** of truth. -/
def IsDegree (x : α) : Prop := ∃ y : ℝ, FuzzyInference.IsDegree y ∧ x = number y

/-- Over the real numbers these are the degrees. -/
theorem isDegree_iff {x : ℝ} : IsDegree x ↔ FuzzyInference.IsDegree x :=
  ⟨fun ⟨_, hy, h⟩ => h ▸ hy, fun h => ⟨x, h, rfl⟩⟩

namespace IsDegree

variable {x y : α}

theorem zero : IsDegree (0 : α) := ⟨0, .zero, number_zero.symm⟩

theorem one : IsDegree (1 : α) := ⟨1, .one, number_one.symm⟩

theorem mul (hx : IsDegree x) (hy : IsDegree y) : IsDegree (x * y) := by
  obtain ⟨a, ha, rfl⟩ := hx
  obtain ⟨b, hb, rfl⟩ := hy
  exact ⟨a * b, ha.mul hb, number_mul a b⟩

/-- Degrees have complements. -/
theorem one_sub (hx : IsDegree x) : IsDegree (1 - x) := by
  obtain ⟨a, ha, rfl⟩ := hx
  exact ⟨1 - a, ha.one_sub, by rw [← number_one, number_sub]⟩

theorem abs (hx : IsDegree x) : IsDegree (Scalar.abs x) := by
  obtain ⟨a, ha, rfl⟩ := hx
  exact ⟨a, ha, by rw [number_abs, abs_of_nonneg ha.1]⟩

/-- How far two degrees are apart is a degree. -/
theorem abs_sub (hx : IsDegree x) (hy : IsDegree y) : IsDegree (Scalar.abs (x - y)) := by
  obtain ⟨a, ha, rfl⟩ := hx
  obtain ⟨b, hb, rfl⟩ := hy
  have hle : |a - b| ≤ 1 := abs_sub_le_of_nonneg_of_le ha.1 ha.2 hb.1 hb.2
  exact ⟨|a - b|, ⟨abs_nonneg _, hle⟩, by rw [number_sub, number_abs]⟩

/-- A degree of one or the other. -/
theorem ite {p : Prop} [Decidable p] (hx : IsDegree x) (hy : IsDegree y) :
    IsDegree (if p then x else y) := by
  split
  · exact hx
  · exact hy

/-- **A degree that is not above zero is zero.** -/
theorem eq_zero (hx : IsDegree x) (h : ¬ 0 < x) : x = 0 := by
  obtain ⟨a, ha, rfl⟩ := hx
  rw [← number_zero, number_lt_iff] at h
  rw [← number_zero, le_antisymm (le_of_not_gt h) ha.1]

end IsDegree

/-! ## What degrees are made of -/

/-- **A saturated number** is a degree. -/
theorem isDegree_clampUnit (x : ℝ) : IsDegree (clampUnit (number x : α)) :=
  ⟨_, .clampUnit x, number_clampUnit x⟩

/-- What is finite can be saturated. -/
theorem isDegree_clampUnit_of_isFinite {x : α} (hx : IsFinite x) : IsDegree (clampUnit x) := by
  obtain ⟨y, rfl⟩ := exists_eq_number hx
  exact isDegree_clampUnit y

/-- A number cut to zero from below, if it is not above one. -/
theorem isDegree_max_zero {x : ℝ} (hx : x ≤ 1) : IsDegree (Scalar.max (number x : α) 0) :=
  ⟨x ⊔ 0, ⟨le_sup_right, sup_le hx zero_le_one⟩, by
    rw [← number_zero, number_max, Real.scalar_max]⟩

/-- A quotient of a number and a larger one. -/
theorem isDegree_div {x y : ℝ} (hx : 0 ≤ x) (hxy : x ≤ y) (hy : 0 < y) :
    IsDegree (number x / number y : α) :=
  ⟨x / y, ⟨div_nonneg hx hy.le, (div_le_one hy).mpr hxy⟩, number_div x hy.ne'⟩

/-- **What falls off** from one. -/
theorem isDegree_one_div {x : ℝ} (hx : 0 ≤ x) : IsDegree (1 / (1 + number x) : α) := by
  rw [← number_one, number_add]
  exact isDegree_div zero_le_one (le_add_of_nonneg_right hx) (by linarith)

/-- **The exponential function** of what is not above zero. -/
theorem isDegree_exp {x : ℝ} (hx : x ≤ 0) : IsDegree (exp (number x : α)) := by
  obtain ⟨y, hy, hpos, hle⟩ := exists_exp_eq (α := α) x
  exact ⟨y, ⟨hpos.le, hle hx⟩, hy⟩

/-- A wave between zero and one. -/
theorem isDegree_half_cos (x : ℝ) : IsDegree (half * (1 + cos (number x)) : α) := by
  obtain ⟨y, hy, hlower, hupper⟩ := exists_cos_eq (α := α) x
  refine ⟨2⁻¹ * (1 + y), ⟨by linarith, by linarith⟩, ?_⟩
  rw [hy, ← number_one, number_half, number_add, number_mul, Real.scalar_half]

end Scalar

/-! ## Norms between degrees -/

namespace Norm

variable {n : Norm} {x y : α}

theorem apply_number (n : Norm) (a b : ℝ) :
    n.apply (number a : α) (number b) = number (n.apply a b) := by
  have hcombine : n.combine (number a : α) (number b) = number (n.combine a b) := by
    cases n with
    | minimum => exact Scalar.number_min a b
    | maximum => exact Scalar.number_max a b
    | product => exact number_mul a b
    | probabilisticSum =>
      show number a + number b - number a * number b = number (a + b - a * b)
      rw [number_mul, number_add, number_sub]
    | boundedSum => exact number_add a b
  unfold apply
  rw [hcombine, Scalar.number_clampUnit]

/-- What a norm makes of two degrees is a degree. -/
theorem isDegree_apply_of_isDegree (n : Norm) (hx : Scalar.IsDegree x) (hy : Scalar.IsDegree y) :
    Scalar.IsDegree (n.apply x y) := by
  obtain ⟨a, -, rfl⟩ := hx
  obtain ⟨b, -, rfl⟩ := hy
  exact ⟨_, isDegree_apply n a b, apply_number n a b⟩

/-- **Zero is raised by nothing to zero.** -/
theorem apply_zero_zero (hn : n.isSNorm = true) : n.apply (0 : α) 0 = 0 := by
  have hreal : n.apply (0 : ℝ) 0 = 0 := by
    cases n with
    | minimum => cases hn
    | product => cases hn
    | maximum => rw [apply_maximum .zero .zero, max_self]
    | probabilisticSum =>
      rw [apply_probabilisticSum .zero .zero]
      norm_num
    | boundedSum =>
      rw [apply_boundedSum .zero .zero]
      norm_num
  rw [← number_zero, apply_number, hreal]

/-- **A degree cut to zero is zero.** -/
theorem apply_zero_left (hn : n.isTNorm = true) (hx : Scalar.IsDegree x) : n.apply 0 x = 0 := by
  obtain ⟨a, ha, rfl⟩ := hx
  have hreal : n.apply 0 a = 0 := by
    have hcombine : n.combine 0 a = 0 := by
      cases n with
      | minimum => exact if_pos ha.1
      | product => exact zero_mul a
      | maximum => cases hn
      | probabilisticSum => cases hn
      | boundedSum => cases hn
    unfold apply
    rw [hcombine]
    exact Real.clampUnit_of_isDegree .zero
  rw [← number_zero, apply_number, hreal]

end Norm

end FuzzyInference
