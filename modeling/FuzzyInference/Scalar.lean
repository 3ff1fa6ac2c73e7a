/-!
# Scalars

Everything fuzzy in this library – degrees of truth, coefficients, crisp
values – is computed over a type of **scalars**, and the formulas are
written once for all of them. A `Scalar` type brings the four operations,
an order that can be decided, the elementary functions the shapes need,
and the handful of constants that a formula or a comparison mentions.

No law is asked of the operations. A scalar need not be a field, its
order need not be total, and there may be values that are not numbers:
such a value is recognised by not being below itself (`Scalar.IsNaN`).
The programs of the library run over the single-precision numbers of
`FuzzyInference.Scalar.Single`; a theorem about exact arithmetic is a
theorem about another instance.
-/

namespace FuzzyInference

/-- **A type of scalars**: the arithmetic, the order and the elementary
functions the library computes with. -/
class Scalar (α : Type) extends Zero α, One α, NatCast α, Add α, Sub α,
    Mul α, Div α, Neg α, LT α, LE α where
  /-- Whether one scalar is below another can be decided. -/
  decidableLT : DecidableLT α
  /-- Whether one scalar is at most another can be decided. -/
  decidableLE : DecidableLE α
  /-- The absolute value. -/
  abs : α → α
  /-- The square root. -/
  sqrt : α → α
  /-- The exponential function. -/
  exp : α → α
  /-- The natural logarithm. -/
  log : α → α
  /-- The cosine of an angle in radians. -/
  cos : α → α
  /-- `pow x y` is the power of base `x` and exponent `y`. -/
  pow : α → α → α
  /-- The number π, as near as the scalars come to it. -/
  pi : α
  /-- The distance from one to the next scalar, by which nearness is
  measured. -/
  epsilon : α
  /-- The answer of a computation that has none. -/
  nan : α
  /-- A scalar above every number. -/
  infinity : α

namespace Scalar

variable {α : Type} [Scalar α]

instance : DecidableLT α := decidableLT

instance : DecidableLE α := decidableLE

/-! ## Constants -/

/-- Two. -/
def two : α := ((2 : Nat) : α)

/-- Ten. -/
def ten : α := ((10 : Nat) : α)

/-- One half. -/
def half : α := 1 / two

/-! ## Kinds of scalars -/

/-- **Not a number**: such a scalar is not even at most itself. -/
abbrev IsNaN (x : α) : Prop := ¬ x ≤ x

/-- **A finite scalar**: its difference with itself is a number. An
infinite scalar has no such difference, and neither has a scalar that is
not a number. -/
abbrev IsFinite (x : α) : Prop := x - x ≤ x - x

/-- Two scalars of equal value. The two zeros of a signed arithmetic
are of equal value, and a scalar that is not a number equals nothing. -/
abbrev Same (x y : α) : Prop := x ≤ y ∧ y ≤ x

/-! ## Choosing and cutting -/

/-- The smaller of two scalars. When one of them is not a number the
answer is the other. -/
def min (x y : α) : α :=
  if x ≤ y then x else if y ≤ y then y else x

/-- The larger of two scalars. When one of them is not a number the
answer is the other. -/
def max (x y : α) : α :=
  if y ≤ x then x else if y ≤ y then y else x

/-- **Saturation** of `x` in the interval from `lower` to `upper`. A
scalar that is not a number is left as it is. -/
def clamp (lower upper x : α) : α :=
  if x < lower then lower else if upper < x then upper else x

/-- Saturation in the unit interval, where degrees of truth live. -/
def clampUnit (x : α) : α := clamp 0 1 x

/-- **Nearness**: two scalars whose difference is within `epsilon` of
nothing, relative to the larger of their sizes when that exceeds one. -/
abbrev Near (x y : α) : Prop :=
  abs (x - y) ≤ epsilon * max (max (abs x) (abs y)) 1

/-- The sum of a list, from the left and starting at zero. -/
def sum (xs : List α) : α := xs.foldl (· + ·) 0

end Scalar

end FuzzyInference
