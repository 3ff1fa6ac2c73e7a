import FuzzyInference.Scalar

/-!
# Norms

Degrees of truth are combined by **norms**: `and` and implication by a
t-norm, `or` and aggregation by an s-norm.

| norm              | combines `a` and `b` into |        |
|-------------------|---------------------------|--------|
| minimum           | the smaller               | t-norm |
| product           | `a b`                     | t-norm |
| maximum           | the larger                | s-norm |
| probabilistic sum | `a + b - a b`             | s-norm |
| bounded sum       | `a + b`                   | s-norm |

What comes out is saturated in the unit interval, whatever went in.
-/

namespace FuzzyInference

/-- **A norm.** -/
inductive Norm where
  /-- The smaller of two degrees. -/
  | minimum
  /-- The larger of two degrees. -/
  | maximum
  /-- The product of two degrees. -/
  | product
  /-- The degree of either of two independent events. -/
  | probabilisticSum
  /-- The sum of two degrees, as far as there is room. -/
  | boundedSum
deriving DecidableEq, Repr

namespace Norm

/-- All the norms. -/
def all : List Norm := [.minimum, .maximum, .product, .probabilisticSum, .boundedSum]

/-- The name of a norm in a message. -/
def title : Norm → String
  | .minimum => "Min"
  | .maximum => "Max"
  | .product => "Prod"
  | .probabilisticSum => "ProbOr"
  | .boundedSum => "Sum"

/-- The name of a norm in a description. -/
def name : Norm → String
  | .minimum => "min"
  | .maximum => "max"
  | .product => "prod"
  | .probabilisticSum => "probor"
  | .boundedSum => "sum"

/-- What a norm makes of two degrees before saturation. -/
def combine {α : Type} [Scalar α] (n : Norm) (a b : α) : α :=
  match n with
  | .minimum => Scalar.min a b
  | .maximum => Scalar.max a b
  | .product => a * b
  | .probabilisticSum => a + b - a * b
  | .boundedSum => a + b

/-- **Two degrees combined by a norm.** -/
def apply {α : Type} [Scalar α] (n : Norm) (a b : α) : α :=
  Scalar.clampUnit (n.combine a b)

/-- Whether a norm is a t-norm, fit for `and` and implication. -/
def isTNorm : Norm → Bool
  | .minimum | .product => true
  | _ => false

/-- Whether a norm is an s-norm, fit for `or` and aggregation. -/
def isSNorm : Norm → Bool
  | .maximum | .probabilisticSum | .boundedSum => true
  | _ => false

end Norm

end FuzzyInference
