import FuzzyInference.Scalar

/-!
# The curves of the shapes

One definition per curve, over any scalars. Where two coefficients that
should lie apart coincide, the slope between them becomes a step; where
they come in the wrong order, each curve answers in its own way, and no
coefficients are refused here. Products and quotients associate to the
left as they are written, which is part of what the curves compute, since
scalars round.
-/

namespace FuzzyInference

namespace Curve

variable {α : Type} [Scalar α]

open Scalar

/-- A straight rise from `a` to `b`, continued beyond; a step at `a` when
`b` is not above it. -/
def rise (x a b : α) : α :=
  if a < b then (x - a) / (b - a) else if a ≤ x then 1 else 0

/-- A straight fall from `c` to `d`, continued beyond; a step at `d` when
it is not above `c`. -/
def fall (x c d : α) : α :=
  if c < d then (d - x) / (d - c) else if x ≤ d then 1 else 0

/-- A triangle. -/
def triangular (x a b c : α) : α :=
  max (min (rise x a b) (fall x b c)) 0

/-- A trapezoid. -/
def trapezoidal (x a b c d : α) : α :=
  max (min (min (rise x a b) 1) (fall x c d)) 0

/-- A bell. -/
def bell (x a b c : α) : α :=
  1 / (1 + pow (abs ((x - c) / a)) (two * b))

/-- The normal curve. -/
def gaussian (x width c : α) : α :=
  let t := (x - c) / width
  exp (-half * t * t)

/-- Two normal curves with a level stretch between their centres. -/
def gaussianPair (x width₁ c₁ width₂ c₂ : α) : α :=
  (if x ≤ c₁ then gaussian x width₁ c₁ else 1) * (if c₂ ≤ x then gaussian x width₂ c₂ else 1)

/-- The logistic curve. -/
def sigmoid (x a c : α) : α :=
  1 / (1 + exp (-a * (x - c)))

/-- How far two logistic curves are apart. -/
def sigmoidDifference (x a₁ c₁ a₂ c₂ : α) : α :=
  abs (sigmoid x a₁ c₁ - sigmoid x a₂ c₂)

/-- Two logistic curves multiplied. -/
def sigmoidProduct (x a₁ c₁ a₂ c₂ : α) : α :=
  abs (sigmoid x a₁ c₁ * sigmoid x a₂ c₂)

/-- A smooth rise: two parabolas that meet half-way. -/
def smoothS (x a b : α) : α :=
  if x ≤ a then 0
  else if b ≤ x then 1
  else if x ≤ half * (a + b) then
    let t := (x - a) / (b - a)
    two * t * t
  else
    let t := (x - b) / (b - a)
    1 - two * t * t

/-- A smooth fall: two parabolas that meet half-way. -/
def smoothZ (x a b : α) : α :=
  if x ≤ a then 1
  else if b ≤ x then 0
  else if x ≤ half * (a + b) then
    let t := (x - a) / (b - a)
    1 - two * t * t
  else
    let t := (x - b) / (b - a)
    two * t * t

/-- A smooth rise and a smooth fall. -/
def pi (x a b c d : α) : α :=
  abs (smoothS x a b * smoothZ x c d)

/-- Everything at one point, and near it. -/
def singleton (x a : α) : α :=
  if Near x a then 1 else 0

/-- A bend from `i` towards `e`, level beyond `e`. -/
def concave (x i e : α) : α :=
  if i ≤ e ∧ x < e then (e - i) / (two * e - i - x)
  else if e < i ∧ e < x then (i - e) / (-two * e + i + x)
  else 1

/-- A sharp peak. -/
def spike (x width c : α) : α :=
  exp (-abs (ten * (x - c) / width))

/-- A straight rise, level outside. -/
def linearS (x a b : α) : α :=
  if a < b then clampUnit ((x - a) / (b - a))
  else if Near a b then if x < a then 0 else 1
  else 0

/-- A straight fall, level outside. -/
def linearZ (x a b : α) : α :=
  if a < b then clampUnit ((b - x) / (b - a))
  else if Near a b then if x < a then 1 else 0
  else 0

/-- Everything from `a` to `b`. -/
def rectangle (x a b : α) : α :=
  if a ≤ x ∧ x ≤ b then 1 else 0

/-- One wave, and nothing outside. -/
def cosine (x c width : α) : α :=
  if x < c - half * width ∨ c + half * width < x then 0
  else half * (1 + cos (two / width * Scalar.pi * (x - c)))

/-- **A linear combination** of the inputs, with the coefficient behind
the last weight for a constant term, or nothing if there is none. -/
def combination (inputs coefficients : List α) : α :=
  sum (inputs.zipWith (· * ·) coefficients) + coefficients[inputs.length]?.getD 0

/-! ## Backwards -/

/-- Of two candidates the one whose degree on a curve is nearer to the
degree looked for. -/
def nearer (degree lower upper : α) (curve : α → α) : α :=
  if abs (degree - curve lower) < abs (degree - curve upper) then lower else upper

/-- The point at which a straight rise has a degree. -/
def linearSInverse (degree a b : α) : α := a + (b - a) * degree

/-- The point at which a straight fall has a degree. -/
def linearZInverse (degree a b : α) : α := b - (b - a) * degree

/-- The point at which a bend has a degree. -/
def concaveInverse (degree i e : α) : α := (i - e) / degree + two * e - i

/-- The point of a universe at which a logistic curve has a degree. It
has the degrees next to nothing and to certainty nowhere, and the ends of
the universe stand for them. -/
def sigmoidInverse (degree lower upper a c : α) : α :=
  if Near degree 1 then if 0 ≤ a then upper else lower
  else if Near degree 0 then if 0 ≤ a then lower else upper
  else c - log (1 / degree - 1) / a

/-- The point at which a smooth rise has a degree: on the first parabola
or on the second, whichever comes closer. -/
def smoothSInverse (degree a b : α) : α :=
  let span := half * (b - a) * (b - a)
  nearer degree (a + sqrt (degree * span)) (b - sqrt ((1 - degree) * span)) fun t => smoothS t a b

/-- The point at which a smooth fall has a degree. -/
def smoothZInverse (degree a b : α) : α :=
  let span := half * (b - a) * (b - a)
  nearer degree (a + sqrt ((1 - degree) * span)) (b - sqrt (degree * span)) fun t => smoothZ t a b

end Curve

end FuzzyInference
