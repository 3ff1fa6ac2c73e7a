import FuzzyInference.Shape.Basic
import FuzzyInference.Shape.Curve

/-!
# Evaluating a shape

A shape is evaluated on a list of coefficients, and has no value when the
list is too short: `Shape.eval?` and its companions are then `none`. More
coefficients than needed do no harm.

A shape may be asked for a part it does not play. A conventional
evaluation of an inverse inverts, over a universe without ends, and an
inversion of any other shape evaluates it conventionally. To a Sugeno
conclusion every shape but a combination contributes its first
coefficient.
-/

namespace FuzzyInference

variable {α : Type} [Scalar α]

/-- The point of the universe from `lower` to `upper` at which a ramp has a
degree. -/
def Ramp.preimage (ramp : Ramp) (lower upper a b degree : α) : α :=
  match ramp with
  | .linearS => Curve.linearSInverse degree a b
  | .linearZ => Curve.linearZInverse degree a b
  | .concave => Curve.concaveInverse degree a b
  | .sigmoid => Curve.sigmoidInverse degree lower upper a b
  | .smoothS => Curve.smoothSInverse degree a b
  | .smoothZ => Curve.smoothZInverse degree a b

namespace Shape

/-- **The degree of a value**, for a conventional shape. -/
def eval? (shape : Shape) (x : α) (p : List α) : Option α :=
  match shape, p with
  | .constant, c :: _ => some c
  | .triangular, a :: b :: c :: _ => some (Curve.triangular x a b c)
  | .trapezoidal, a :: b :: c :: d :: _ => some (Curve.trapezoidal x a b c d)
  | .bell, a :: b :: c :: _ => some (Curve.bell x a b c)
  | .gaussian, w :: c :: _ => some (Curve.gaussian x w c)
  | .gaussianPair, w₁ :: c₁ :: w₂ :: c₂ :: _ => some (Curve.gaussianPair x w₁ c₁ w₂ c₂)
  | .sigmoid, a :: c :: _ => some (Curve.sigmoid x a c)
  | .sigmoidDifference, a₁ :: c₁ :: a₂ :: c₂ :: _ =>
    some (Curve.sigmoidDifference x a₁ c₁ a₂ c₂)
  | .sigmoidProduct, a₁ :: c₁ :: a₂ :: c₂ :: _ => some (Curve.sigmoidProduct x a₁ c₁ a₂ c₂)
  | .pi, a :: b :: c :: d :: _ => some (Curve.pi x a b c d)
  | .smoothS, a :: b :: _ => some (Curve.smoothS x a b)
  | .smoothZ, a :: b :: _ => some (Curve.smoothZ x a b)
  | .singleton, a :: _ => some (Curve.singleton x a)
  | .concave, i :: e :: _ => some (Curve.concave x i e)
  | .spike, w :: c :: _ => some (Curve.spike x w c)
  | .linearS, a :: b :: _ => some (Curve.linearS x a b)
  | .linearZ, a :: b :: _ => some (Curve.linearZ x a b)
  | .rectangle, a :: b :: _ => some (Curve.rectangle x a b)
  | .cosine, c :: w :: _ => some (Curve.cosine x c w)
  | .combination, p => some (Curve.combination [x] p)
  | .inverse ramp, a :: b :: _ =>
    some (ramp.preimage (-Scalar.infinity) Scalar.infinity a b x)
  | _, _ => none

/-- **The point that has a degree**, for an inverse, in the universe from
`lower` to `upper`. -/
def inverse? (shape : Shape) (degree lower upper : α) (p : List α) : Option α :=
  match shape, p with
  | .inverse ramp, a :: b :: _ => some (ramp.preimage lower upper a b degree)
  | shape, _ :: _ :: _ => shape.eval? degree p
  | _, _ => none

/-- **The value a shape contributes to a Sugeno conclusion.** -/
def sugeno? (shape : Shape) (inputs p : List α) : Option α :=
  match shape with
  | .combination => some (Curve.combination inputs p)
  | _ => p.head?

/-- **Whether a coefficient a shape divides by is zero.** -/
def zeroWidth? (shape : Shape) (p : List α) : Option Bool :=
  match shape, p with
  | .gaussian, w :: _ => some (decide (Scalar.Same w 0))
  | .bell, w :: _ => some (decide (Scalar.Same w 0))
  | .spike, w :: _ => some (decide (Scalar.Same w 0))
  | .gaussianPair, w₁ :: _ :: w₂ :: _ => some (decide (Scalar.Same w₁ 0 ∨ Scalar.Same w₂ 0))
  | .cosine, _ :: w :: _ => some (decide (Scalar.Same w 0))
  | .gaussian, _ | .bell, _ | .spike, _ | .gaussianPair, _ | .cosine, _ => none
  | _, _ => some false

end Shape

end FuzzyInference
