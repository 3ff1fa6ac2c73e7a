import FuzzyInference.Proofs.Formula
import FuzzyInference.Shape.Term
import Mathlib.Logic.Basic

/-!
# The formulas of shapes and terms

Every curve of `FuzzyInference.Shape.Curve` is given by a formula, so every
shape has one on enough coefficients, and so has every term. The value of
the formula is the one that the library computes (`Shape.eval_formula?`,
`Term.eval_degreeFormula?` and their companions). Nothing is asked of the
scalars, not even that their operations have anything to do with those of
numbers, so the formula is the computation itself, step by step.
-/

namespace FuzzyInference

namespace Formula

variable {α : Type} [Scalar α]

section Curves

variable (x a b c d : Formula α)

/-- The formula of `Curve.rise`. -/
def rise : Formula α := ifLt a b ((x - a) / (b - a)) (ifLe a x 1 0)

/-- The formula of `Curve.fall`. -/
def fall : Formula α := ifLt c d ((d - x) / (d - c)) (ifLe x d 1 0)

/-- The formula of `Curve.triangular`. -/
def triangular : Formula α := max (min (rise x a b) (fall x b c)) 0

/-- The formula of `Curve.trapezoidal`. -/
def trapezoidal : Formula α := max (min (min (rise x a b) 1) (fall x c d)) 0

/-- The formula of `Curve.bell`. -/
def bell : Formula α := 1 / (1 + pow (abs ((x - c) / a)) (scalar Scalar.two * b))

/-- The formula of `Curve.gaussian`. -/
def gaussian : Formula α :=
  exp (-scalar Scalar.half * ((x - c) / a) * ((x - c) / a))

/-- The formula of `Curve.gaussianPair`. -/
def gaussianPair : Formula α := ifLe x b (gaussian x a b) 1 * ifLe d x (gaussian x c d) 1

/-- The formula of `Curve.sigmoid`. -/
def sigmoid : Formula α := 1 / (1 + exp (-a * (x - c)))

/-- The formula of `Curve.sigmoidDifference`. -/
def sigmoidDifference : Formula α := abs (sigmoid x a b - sigmoid x c d)

/-- The formula of `Curve.sigmoidProduct`. -/
def sigmoidProduct : Formula α := abs (sigmoid x a b * sigmoid x c d)

/-- The formula of `Curve.smoothS`. -/
def smoothS : Formula α :=
  ifLe x a 0 <| ifLe b x 1 <|
    ifLe x (scalar Scalar.half * (a + b))
      (scalar Scalar.two * ((x - a) / (b - a)) * ((x - a) / (b - a)))
      (1 - scalar Scalar.two * ((x - b) / (b - a)) * ((x - b) / (b - a)))

/-- The formula of `Curve.smoothZ`. -/
def smoothZ : Formula α :=
  ifLe x a 1 <| ifLe b x 0 <|
    ifLe x (scalar Scalar.half * (a + b))
      (1 - scalar Scalar.two * ((x - a) / (b - a)) * ((x - a) / (b - a)))
      (scalar Scalar.two * ((x - b) / (b - a)) * ((x - b) / (b - a)))

/-- The formula of `Curve.pi`. -/
def pi : Formula α := abs (smoothS x a b * smoothZ x c d)

/-- The formula of `Curve.singleton`. -/
def singleton : Formula α := ifNear x a 1 0

/-- The formula of `Curve.concave`. -/
def concave : Formula α :=
  let falling := ifLt b a (ifLt b x ((a - b) / (-scalar Scalar.two * b + a + x)) 1) 1
  ifLe a b (ifLt x b ((b - a) / (scalar Scalar.two * b - a - x)) falling) falling

/-- The formula of `Curve.spike`. -/
def spike : Formula α := exp (-abs (scalar Scalar.ten * (x - c) / a))

/-- The formula of `Curve.linearS`. -/
def linearS : Formula α :=
  ifLt a b (clamp 0 1 ((x - a) / (b - a))) (ifNear a b (ifLt x a 0 1) 0)

/-- The formula of `Curve.linearZ`. -/
def linearZ : Formula α :=
  ifLt a b (clamp 0 1 ((b - x) / (b - a))) (ifNear a b (ifLt x a 1 0) 0)

/-- The formula of `Curve.rectangle`. -/
def rectangle : Formula α := ifLe a x (ifLe x b 1 0) 0

/-- The formula of `Curve.cosine`. -/
def cosine : Formula α :=
  ifLt x (a - scalar Scalar.half * b) 0 <| ifLt (a + scalar Scalar.half * b) x 0 <|
    scalar Scalar.half * (1 + cos (scalar Scalar.two / b * scalar Scalar.pi * (x - a)))

end Curves

/-- The formula of `Curve.combination`. -/
def combination (inputs coefficients : List (Formula α)) : Formula α :=
  (inputs.zipWith (· * ·) coefficients).foldl (· + ·) 0
    + coefficients[inputs.length]?.getD 0

section Inverses

variable (degree lower upper a b : Formula α)

/-- The formula of `Curve.nearer`. -/
def nearer (curve : Formula α → Formula α) : Formula α :=
  ifLt (abs (degree - curve lower)) (abs (degree - curve upper)) lower upper

/-- The formula of `Curve.linearSInverse`. -/
def linearSInverse : Formula α := a + (b - a) * degree

/-- The formula of `Curve.linearZInverse`. -/
def linearZInverse : Formula α := b - (b - a) * degree

/-- The formula of `Curve.concaveInverse`. -/
def concaveInverse : Formula α := (a - b) / degree + scalar Scalar.two * b - a

/-- The formula of `Curve.sigmoidInverse`. -/
def sigmoidInverse : Formula α :=
  ifNear degree 1 (ifLe 0 a upper lower) <| ifNear degree 0 (ifLe 0 a lower upper) <|
    b - log (1 / degree - 1) / a

/-- The formula of `Curve.smoothSInverse`. -/
def smoothSInverse : Formula α :=
  let span := scalar Scalar.half * (b - a) * (b - a)
  nearer degree (a + sqrt (degree * span)) (b - sqrt ((1 - degree) * span))
    fun t => smoothS t a b

/-- The formula of `Curve.smoothZInverse`. -/
def smoothZInverse : Formula α :=
  let span := scalar Scalar.half * (b - a) * (b - a)
  nearer degree (a + sqrt ((1 - degree) * span)) (b - sqrt (degree * span))
    fun t => smoothZ t a b

end Inverses

/-! ## The values of the formulas -/

section Values

variable (x a b c d : Formula α)

/-- Where the library asks for two things at once a formula asks for one
after the other. -/
theorem eval_concave : (concave x a b).eval = Curve.concave x.eval a.eval b.eval := by
  unfold Curve.concave
  rw [ite_and, ite_and]
  rfl

theorem eval_rectangle : (rectangle x a b).eval = Curve.rectangle x.eval a.eval b.eval := by
  unfold Curve.rectangle
  rw [ite_and]
  rfl

theorem eval_cosine : (cosine x a b).eval = Curve.cosine x.eval a.eval b.eval := by
  unfold Curve.cosine
  rw [ite_or]
  rfl

theorem eval_combination (inputs coefficients : List (Formula α)) :
    (combination inputs coefficients).eval
      = Curve.combination (inputs.map eval) (coefficients.map eval) := by
  have hfold (terms : List (Formula α)) (f : Formula α) :
      (terms.foldl (· + ·) f).eval = (terms.map eval).foldl (· + ·) f.eval := by
    rw [List.foldl_map]
    exact (List.foldl_hom eval fun _ _ => rfl).symm
  have hterms : (inputs.zipWith (· * ·) coefficients).map eval
      = (inputs.map eval).zipWith (· * ·) (coefficients.map eval) := by
    rw [List.map_zipWith, List.zipWith_map]
    rfl
  have hlast : (coefficients[inputs.length]?.getD 0).eval
      = (coefficients.map eval)[(inputs.map eval).length]?.getD 0 := by
    rw [List.length_map, List.getElem?_map]
    cases coefficients[inputs.length]? <;> rfl
  unfold Curve.combination Scalar.sum
  rw [← hterms, ← hlast]
  exact congrArg (· + (coefficients[inputs.length]?.getD 0).eval) (hfold _ 0)

end Values

end Formula

variable {α : Type} [Scalar α]

/-! ## The formulas of shapes and terms -/

/-- **The formula of an inverse.** -/
def Ramp.formula (ramp : Ramp) (lower upper a b degree : Formula α) : Formula α :=
  match ramp with
  | .linearS => .linearSInverse degree a b
  | .linearZ => .linearZInverse degree a b
  | .concave => .concaveInverse degree a b
  | .sigmoid => .sigmoidInverse degree lower upper a b
  | .smoothS => .smoothSInverse degree a b
  | .smoothZ => .smoothZInverse degree a b

/-- The value of the formula is the point that is computed. -/
theorem Ramp.eval_formula (ramp : Ramp) (lower upper a b degree : Formula α) :
    (ramp.formula lower upper a b degree).eval
      = ramp.preimage lower.eval upper.eval a.eval b.eval degree.eval := by
  cases ramp <;> rfl

namespace Shape

/-- **The formula of the degree of a value.** -/
def formula? (shape : Shape) (x : Formula α) (p : List (Formula α)) : Option (Formula α) :=
  match shape, p with
  | .constant, c :: _ => some c
  | .triangular, a :: b :: c :: _ => some (.triangular x a b c)
  | .trapezoidal, a :: b :: c :: d :: _ => some (.trapezoidal x a b c d)
  | .bell, a :: b :: c :: _ => some (.bell x a b c)
  | .gaussian, w :: c :: _ => some (.gaussian x w c)
  | .gaussianPair, w₁ :: c₁ :: w₂ :: c₂ :: _ => some (.gaussianPair x w₁ c₁ w₂ c₂)
  | .sigmoid, a :: c :: _ => some (.sigmoid x a c)
  | .sigmoidDifference, a₁ :: c₁ :: a₂ :: c₂ :: _ => some (.sigmoidDifference x a₁ c₁ a₂ c₂)
  | .sigmoidProduct, a₁ :: c₁ :: a₂ :: c₂ :: _ => some (.sigmoidProduct x a₁ c₁ a₂ c₂)
  | .pi, a :: b :: c :: d :: _ => some (.pi x a b c d)
  | .smoothS, a :: b :: _ => some (.smoothS x a b)
  | .smoothZ, a :: b :: _ => some (.smoothZ x a b)
  | .singleton, a :: _ => some (.singleton x a)
  | .concave, i :: e :: _ => some (.concave x i e)
  | .spike, w :: c :: _ => some (.spike x w c)
  | .linearS, a :: b :: _ => some (.linearS x a b)
  | .linearZ, a :: b :: _ => some (.linearZ x a b)
  | .rectangle, a :: b :: _ => some (.rectangle x a b)
  | .cosine, c :: w :: _ => some (.cosine x c w)
  | .combination, p => some (.combination [x] p)
  | .inverse ramp, a :: b :: _ =>
    some (ramp.formula (-.scalar Scalar.infinity) (.scalar Scalar.infinity) a b x)
  | _, _ => none

/-- **The value of the formula is the degree that is computed.** -/
theorem eval_formula? (shape : Shape) (x : Formula α) (p : List (Formula α)) :
    (shape.formula? x p).map Formula.eval = shape.eval? x.eval (p.map Formula.eval) := by
  cases shape with
  | combination => exact congrArg some (Formula.eval_combination [x] p)
  | concave =>
    match p with
    | [] | [_] => rfl
    | a :: b :: _ => exact congrArg some (Formula.eval_concave x a b)
  | rectangle =>
    match p with
    | [] | [_] => rfl
    | a :: b :: _ => exact congrArg some (Formula.eval_rectangle x a b)
  | cosine =>
    match p with
    | [] | [_] => rfl
    | a :: b :: _ => exact congrArg some (Formula.eval_cosine x a b)
  | inverse ramp =>
    match p with
    | [] | [_] => rfl
    | a :: b :: _ => exact congrArg some (ramp.eval_formula _ _ a b x)
  | _ =>
    match p with
    | [] | [_] | [_, _] | [_, _, _] | _ :: _ :: _ :: _ :: _ => rfl

/-- **The formula of the point that has a degree.** -/
def inverseFormula? (shape : Shape) (degree lower upper : Formula α) (p : List (Formula α)) :
    Option (Formula α) :=
  match shape, p with
  | .inverse ramp, a :: b :: _ => some (ramp.formula lower upper a b degree)
  | shape, _ :: _ :: _ => shape.formula? degree p
  | _, _ => none

theorem eval_inverseFormula? (shape : Shape) (degree lower upper : Formula α)
    (p : List (Formula α)) :
    (shape.inverseFormula? degree lower upper p).map Formula.eval
      = shape.inverse? degree.eval lower.eval upper.eval (p.map Formula.eval) := by
  match p with
  | [] | [_] => cases shape <;> rfl
  | a :: b :: p =>
    cases shape with
    | inverse ramp => exact congrArg some (ramp.eval_formula lower upper a b degree)
    | _ =>
      simp only [inverseFormula?, inverse?, List.map_cons]
      exact eval_formula? _ degree (a :: b :: p)

/-- **The formula of a Sugeno conclusion.** -/
def sugenoFormula? (shape : Shape) (inputs p : List (Formula α)) : Option (Formula α) :=
  match shape with
  | .combination => some (.combination inputs p)
  | _ => p.head?

theorem eval_sugenoFormula? (shape : Shape) (inputs p : List (Formula α)) :
    (shape.sugenoFormula? inputs p).map Formula.eval
      = shape.sugeno? (inputs.map Formula.eval) (p.map Formula.eval) := by
  cases shape with
  | combination => exact congrArg some (Formula.eval_combination inputs p)
  | _ => exact List.head?_map.symm

end Shape

/-- The values of scalars are these scalars. -/
theorem Formula.map_eval_map_scalar (xs : List α) : (xs.map scalar).map eval = xs := by
  rw [List.map_map]
  exact List.map_id xs

namespace Term

/-- **The formula of the degree to which a value has the term.** Of a function
of the user's own only the value is known. -/
def degreeFormula? (t : Term α) (x lower upper : α) : Option (Formula α) :=
  match t.profile with
  | .builtin shape =>
    (shape.formula? (.scalar x) (t.coefficients.map .scalar)).map (.scalar t.height * ·)
  | .custom curve => some (.scalar (t.height * curve.value ⟨x, [], lower, upper⟩ t.coefficients))

/-- **The formula of the term as a Sugeno conclusion.** -/
def sugenoFormula? (t : Term α) (inputs : List α) (lower upper : α) : Option (Formula α) :=
  match t.profile with
  | .builtin shape => shape.sugenoFormula? (inputs.map .scalar) (t.coefficients.map .scalar)
  | .custom curve =>
    some (.scalar (curve.value ⟨inputs.head?.getD 0, inputs, lower, upper⟩ t.coefficients))

/-- **The formula of the term as a Tsukamoto conclusion** of a strength. -/
def tsukamotoFormula? (t : Term α) (strength : α) (inputs : List α) (lower upper : α) :
    Option (Formula α) :=
  match t.profile with
  | .builtin shape =>
    shape.inverseFormula? (.scalar strength) (.scalar lower) (.scalar upper)
      (t.coefficients.map .scalar)
  | .custom curve => some (.scalar (curve.value ⟨strength, inputs, lower, upper⟩ t.coefficients))

variable (t : Term α)

theorem eval_degreeFormula? (x lower upper : α) :
    (t.degreeFormula? x lower upper).map Formula.eval = t.degree? x lower upper := by
  unfold degreeFormula? degree?
  cases t.profile with
  | custom curve => rfl
  | builtin shape =>
    have heval : _ = shape.eval? x _ := shape.eval_formula? (.scalar x) (t.coefficients.map .scalar)
    rw [Formula.map_eval_map_scalar] at heval
    simp only [← heval, Option.map_map]
    rfl

theorem eval_sugenoFormula? (inputs : List α) (lower upper : α) :
    (t.sugenoFormula? inputs lower upper).map Formula.eval = t.sugeno? inputs lower upper := by
  unfold sugenoFormula? sugeno?
  cases t.profile with
  | custom curve => rfl
  | builtin shape =>
    refine (shape.eval_sugenoFormula? _ _).trans ?_
    rw [Formula.map_eval_map_scalar, Formula.map_eval_map_scalar]

theorem eval_tsukamotoFormula? (strength : α) (inputs : List α) (lower upper : α) :
    (t.tsukamotoFormula? strength inputs lower upper).map Formula.eval
      = t.tsukamoto? strength inputs lower upper := by
  unfold tsukamotoFormula? tsukamoto?
  cases t.profile with
  | custom curve => rfl
  | builtin shape =>
    refine (shape.eval_inverseFormula? _ _ _ _).trans ?_
    rw [Formula.map_eval_map_scalar]
    rfl

end Term

end FuzzyInference
