import Mathlib.Analysis.SpecialFunctions.Pow.Real
import FuzzyInference.Proofs.Scalar.Real

/-!
# Scalars with the real numbers among them

Some things that are true of exact arithmetic do not depend on what the
elementary functions are, exactly. `Scalar.HasNumbers` asks of some scalars that
the real numbers are among them, and that the four operations and the order are
those of the real numbers there. A division by zero may answer anything. Of the
exponential function, the cosine and the power not more is asked than bounds: the
first is above zero, and at most one for what is not above zero, the second lies
between minus one and one, and a power of what is not below zero is not below
zero either.

The real numbers are such scalars themselves, and the exact scalars
(`FuzzyInference.Proofs.Scalar.Exact`) are others. What is proved of all of them
is proved of both.
-/

namespace FuzzyInference

/-- **Scalars that compute exactly with real numbers**, up to elementary
functions, of which bounds are known. -/
class Scalar.HasNumbers (α : Type) [Scalar α] where
  /-- A real number as a scalar. -/
  number : ℝ → α
  /-- Zero is a number. -/
  number_zero : number 0 = 0
  /-- One is a number. -/
  number_one : number 1 = 1
  /-- So is every natural number. -/
  number_natCast (n : ℕ) : number n = n
  /-- Sums are exact. -/
  number_add (x y : ℝ) : number x + number y = number (x + y)
  /-- Differences are exact. -/
  number_sub (x y : ℝ) : number x - number y = number (x - y)
  /-- Products are exact. -/
  number_mul (x y : ℝ) : number x * number y = number (x * y)
  /-- Opposites are exact. -/
  number_neg (x : ℝ) : -number x = number (-x)
  /-- Quotients are exact where there are any. -/
  number_div (x : ℝ) {y : ℝ} (hy : y ≠ 0) : number x / number y = number (x / y)
  /-- Absolute values are exact. -/
  number_abs (x : ℝ) : Scalar.abs (number x) = number |x|
  /-- Numbers are ordered as they are. -/
  number_le_iff {x y : ℝ} : number x ≤ number y ↔ x ≤ y
  /-- This is true of the strict order as well. -/
  number_lt_iff {x y : ℝ} : number x < number y ↔ x < y
  /-- What is finite is a number. -/
  exists_eq_number {x : α} (hx : Scalar.IsFinite x) : ∃ y : ℝ, x = number y
  /-- The exponential function is above zero, and at most one for what is not
  above zero. -/
  exists_exp_eq (x : ℝ) : ∃ y, Scalar.exp (number x) = number y ∧ 0 < y ∧ (x ≤ 0 → y ≤ 1)
  /-- A cosine lies between minus one and one. -/
  exists_cos_eq (x : ℝ) : ∃ y, Scalar.cos (number x) = number y ∧ -1 ≤ y ∧ y ≤ 1
  /-- A power of what is not below zero is not below zero. -/
  exists_pow_eq {x : ℝ} (hx : 0 ≤ x) (y : ℝ) :
    ∃ z, Scalar.pow (number x) (number y) = number z ∧ 0 ≤ z
  /-- What stands for π is a number. -/
  exists_pi_eq : ∃ y, Scalar.pi = number y

/-- **The real numbers** are among themselves. -/
noncomputable instance : Scalar.HasNumbers ℝ where
  number x := x
  number_zero := rfl
  number_one := rfl
  number_natCast _ := rfl
  number_add _ _ := rfl
  number_sub _ _ := rfl
  number_mul _ _ := rfl
  number_neg _ := rfl
  number_div _ _ _ := rfl
  number_abs _ := rfl
  number_le_iff := Iff.rfl
  number_lt_iff := Iff.rfl
  exists_eq_number {x} _ := ⟨x, rfl⟩
  exists_exp_eq x := ⟨_, rfl, Real.exp_pos x, Real.exp_le_one_iff.mpr⟩
  exists_cos_eq x := ⟨_, rfl, Real.neg_one_le_cos x, Real.cos_le_one x⟩
  exists_pow_eq hx y := ⟨_, rfl, Real.rpow_nonneg hx y⟩
  exists_pi_eq := ⟨_, rfl⟩

namespace Scalar

open HasNumbers

variable {α : Type} [Scalar α] [HasNumbers α]

/-! ## Numbers -/

theorem number_two : (two : α) = number 2 := (number_natCast 2).symm

theorem number_ten : (ten : α) = number 10 := (number_natCast 10).symm

theorem number_half : (half : α) = number half := by
  rw [half, ← number_one, number_two, number_div 1 two_ne_zero, one_div, Real.scalar_half]

theorem number_min (x y : ℝ) :
    Scalar.min (number x : α) (number y) = number (Scalar.min x y) := by
  unfold Scalar.min
  simp only [number_le_iff, le_refl, if_true]
  split <;> rfl

theorem number_max (x y : ℝ) :
    Scalar.max (number x : α) (number y) = number (Scalar.max x y) := by
  unfold Scalar.max
  simp only [number_le_iff, le_refl, if_true]
  split <;> rfl

theorem number_clamp (lower upper x : ℝ) :
    Scalar.clamp (number lower : α) (number upper) (number x)
      = number (Scalar.clamp lower upper x) := by
  unfold Scalar.clamp
  simp only [number_lt_iff]
  split
  · rfl
  · split <;> rfl

/-- **Saturation** is that of the real numbers. -/
theorem number_clampUnit (x : ℝ) :
    Scalar.clampUnit (number x : α) = number (Scalar.clampUnit x) := by
  unfold Scalar.clampUnit
  rw [← number_zero (α := α), ← number_one (α := α), number_clamp]

/-- **Numbers are finite.** -/
theorem isFinite_number (x : ℝ) : IsFinite (number x : α) := by
  rw [IsFinite, number_sub, number_le_iff]

theorem isFinite_zero : IsFinite (0 : α) := by
  rw [← number_zero]
  exact isFinite_number 0

/-- Finite scalars are numbers, one by one. -/
theorem exists_eq_map_number {xs : List α} (h : ∀ x ∈ xs, IsFinite x) :
    ∃ ys : List ℝ, xs = ys.map number := by
  induction xs with
  | nil => exact ⟨[], rfl⟩
  | cons x xs ih =>
    obtain ⟨hx, hxs⟩ := List.forall_mem_cons.mp h
    obtain ⟨y, rfl⟩ := exists_eq_number hx
    obtain ⟨ys, rfl⟩ := ih hxs
    exact ⟨y :: ys, rfl⟩

/-- A number that is told from zero is not zero. -/
theorem ne_zero_of_not_same {y : ℝ} (h : ¬ Same (number y : α) 0) : y ≠ 0 := by
  rintro rfl
  have hle : (number 0 : α) ≤ number 0 := number_le_iff.mpr le_rfl
  rw [number_zero] at h hle
  exact h ⟨hle, hle⟩

end Scalar

end FuzzyInference
