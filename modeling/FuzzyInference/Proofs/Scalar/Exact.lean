import Mathlib.Analysis.SpecialFunctions.Pow.Real
import FuzzyInference.Proofs.Scalar.Number
import FuzzyInference.Proofs.Scalar.Strict

/-!
# Exact scalars that need not be numbers

Over the real numbers every computation has an answer, and one that should have
none cannot be told from others. An exact scalar is a real number or the answer
`Exact.notANumber`. The operations are those of the real numbers, without
rounding, as long as they are given numbers, and a division by zero has no
number for an answer. Nothing that is not a number becomes one again, except
where a comparison passes over it, as `Scalar.max` does.

Nothing is infinite here. What the library has to say about infinities is said
of what is not a number.
-/

namespace FuzzyInference

/-- **An exact scalar**: a real number, or the answer of a computation that has
none. -/
inductive Exact where
  /-- A real number. -/
  | number (x : ℝ)
  /-- The answer of a computation that has none. -/
  | notANumber

namespace Exact

/-- A function of numbers, for scalars. -/
def map (f : ℝ → ℝ) : Exact → Exact
  | number x => number (f x)
  | notANumber => notANumber

/-- A function of two numbers, for scalars. -/
def map₂ (f : ℝ → ℝ → ℝ) : Exact → Exact → Exact
  | number x, number y => number (f x y)
  | _, _ => notANumber

/-- A quotient, unless the divisor is zero. -/
noncomputable def divide : Exact → Exact → Exact
  | number x, number y => if y = 0 then notANumber else number (x / y)
  | _, _ => notANumber

/-- A relation of numbers. What is not a number is in no relation. -/
def Related (r : ℝ → ℝ → Prop) : Exact → Exact → Prop
  | number x, number y => r x y
  | _, _ => False

end Exact

/-- **Exact scalars are scalars.** -/
noncomputable instance Exact.scalar : Scalar Exact where
  zero := .number 0
  one := .number 1
  natCast n := .number n
  add := Exact.map₂ (· + ·)
  sub := Exact.map₂ (· - ·)
  mul := Exact.map₂ (· * ·)
  div := Exact.divide
  neg := Exact.map (- ·)
  lt := Exact.Related (· < ·)
  le := Exact.Related (· ≤ ·)
  decidableLT _ _ := Classical.propDecidable _
  decidableLE _ _ := Classical.propDecidable _
  abs := Exact.map Scalar.abs
  sqrt := Exact.map Scalar.sqrt
  exp := Exact.map Scalar.exp
  log := Exact.map Scalar.log
  cos := Exact.map Scalar.cos
  pow := Exact.map₂ Scalar.pow
  pi := .number Scalar.pi
  epsilon := .number Scalar.epsilon
  nan := .notANumber
  infinity := .notANumber

namespace Exact

/-! ## Numbers -/

section Numbers

variable (x y : ℝ)

@[simp] theorem number_add : number x + number y = number (x + y) := rfl

@[simp] theorem number_sub : number x - number y = number (x - y) := rfl

@[simp] theorem number_mul : number x * number y = number (x * y) := rfl

@[simp] theorem number_le_iff : number x ≤ number y ↔ x ≤ y := Iff.rfl

@[simp] theorem number_lt_iff : number x < number y ↔ x < y := Iff.rfl

/-- **A quotient of numbers** is a number if the divisor is not zero. -/
theorem number_div {y : ℝ} (hy : y ≠ 0) : number x / number y = number (x / y) := if_neg hy

end Numbers

/-- **What is at most itself is a number.** -/
instance : CanLift Exact ℝ number fun x => x ≤ x where
  prf
    | number x, _ => ⟨x, rfl⟩

theorem isNaN_notANumber : Scalar.IsNaN notANumber := id

/-- Every number is finite, and nothing else is. -/
theorem isFinite_iff {x : Exact} : Scalar.IsFinite x ↔ x ≤ x := by
  cases x with
  | number x => exact iff_of_true (le_refl (x - x)) (le_refl x)
  | notANumber => exact iff_of_false id id

end Exact

/-- **The exact scalars** have the real numbers among them. -/
noncomputable instance : Scalar.HasNumbers Exact where
  number := .number
  number_zero := rfl
  number_one := rfl
  number_natCast _ := rfl
  number_add _ _ := rfl
  number_sub _ _ := rfl
  number_mul _ _ := rfl
  number_neg _ := rfl
  number_div x _ hy := Exact.number_div x hy
  number_abs _ := rfl
  number_le_iff := Iff.rfl
  number_lt_iff := Iff.rfl
  exists_eq_number {x} hx := by
    lift x to ℝ using Exact.isFinite_iff.mp hx
    exact ⟨x, rfl⟩
  exists_exp_eq x := ⟨_, rfl, Real.exp_pos x, Real.exp_le_one_iff.mpr⟩
  exists_cos_eq x := ⟨_, rfl, Real.neg_one_le_cos x, Real.cos_le_one x⟩
  exists_pow_eq hx y := ⟨_, rfl, Real.rpow_nonneg hx y⟩
  exists_pi_eq := ⟨_, rfl⟩


namespace Exact

variable (x y : ℝ)

/-! What is true of all scalars with the real numbers among them is true of the
exact ones, whose numbers are those of `Exact.number`. -/

theorem number_half : (Scalar.half : Exact) = number Scalar.half := Scalar.number_half

theorem number_min : Scalar.min (number x) (number y) = number (Scalar.min x y) :=
  Scalar.number_min x y

theorem number_max : Scalar.max (number x) (number y) = number (Scalar.max x y) :=
  Scalar.number_max x y

theorem number_clamp (lower upper : ℝ) :
    Scalar.clamp (number lower) (number upper) (number x)
      = number (Scalar.clamp lower upper x) := Scalar.number_clamp lower upper x

theorem number_clampUnit : Scalar.clampUnit (number x) = number (Scalar.clampUnit x) :=
  Scalar.number_clampUnit x

end Exact

instance : Scalar.IsStrict Exact where
  le_of_lt {x y} h := by
    match x, y with
    | .number x, .number y => exact le_of_lt (show x < y from h)
  number_of_le {x y} h := by
    match x, y with
    | .number x, .number y => exact ⟨le_refl x, le_refl y⟩
  le_of_not_lt {x y} hx hy h := by
    lift x to ℝ using hx
    lift y to ℝ using hy
    exact le_of_not_gt (show ¬ x < y from h)
  number_of_isFinite h := Exact.isFinite_iff.mp h
  zero_le_one := zero_le_one (α := ℝ)
  neg_half_le_half := by
    rw [Exact.number_half]
    exact Scalar.IsLinear.neg_half_le_half (α := ℝ)
  not_lt_of_le {x y} h := by
    match x, y with
    | .number x, .number y => exact not_lt_of_ge (show x ≤ y from h)

end FuzzyInference
