import FuzzyInference.Proofs.Scalar.Linear
import Mathlib.Analysis.SpecialFunctions.Pow.Real
import Mathlib.Analysis.SpecialFunctions.Trigonometric.Basic

/-!
# Exact scalars

The real numbers are scalars: what the library computes over them is what
its formulas say, without rounding. Two constants have nothing to be equal
to. There is no real number above all others, and none that stands for a
computation without an answer; zero is put in their place. A division by
zero has an answer as well, by convention, so a theorem about exact
arithmetic that depends on no division by zero has to say so
(`Formula.Defined`).
-/

namespace FuzzyInference

/-- **The real numbers are scalars.** Nearness is measured as in single
precision. -/
noncomputable instance Real.scalar : Scalar ℝ where
  decidableLT := Real.decidableLT
  decidableLE := Real.decidableLE
  abs x := |x|
  sqrt := Real.sqrt
  exp := Real.exp
  log := Real.log
  cos := Real.cos
  pow x y := x ^ y
  pi := Real.pi
  epsilon := 2⁻¹ ^ 23
  nan := 0
  infinity := 0

namespace Real

@[simp] theorem scalar_two : (Scalar.two : ℝ) = 2 := Nat.cast_ofNat

@[simp] theorem scalar_half : (Scalar.half : ℝ) = 2⁻¹ := by
  unfold Scalar.half
  rw [scalar_two]
  exact one_div 2

theorem scalar_epsilon : (Scalar.epsilon : ℝ) = 2⁻¹ ^ 23 := rfl

theorem scalar_max (x y : ℝ) : Scalar.max x y = max x y := by
  unfold Scalar.max
  split
  · next h => exact (max_eq_left h).symm
  · next h => rw [if_pos le_rfl, max_eq_right (le_of_not_ge h)]

theorem scalar_min (x y : ℝ) : Scalar.min x y = min x y := by
  unfold Scalar.min
  split
  · next h => exact (min_eq_left h).symm
  · next h => rw [if_pos le_rfl, min_eq_right (le_of_not_ge h)]

theorem near_iff {x y : ℝ} : Scalar.Near x y ↔ |x - y| ≤ 2⁻¹ ^ 23 * max (max |x| |y|) 1 := by
  unfold Scalar.Near
  rw [scalar_max, scalar_max]
  rfl

end Real

/-- All real numbers are numbers, and any two of them can be compared. -/
instance : Scalar.IsLinear ℝ where
  le_of_lt := le_of_lt
  number_of_le _ := ⟨le_rfl, le_rfl⟩
  le_of_not_lt _ _ := le_of_not_gt
  number_of_isFinite _ := le_rfl
  zero_le_one := zero_le_one
  neg_half_le_half := by
    rw [Real.scalar_half]
    norm_num

end FuzzyInference
