import FuzzyInference.Proofs.Scalar.Number
import FuzzyInference.Proofs.Shape.Formula

/-!
# Where shapes divide by zero

A formula over the real numbers is `Formula.Defined` if it divides by
nothing that is zero. This module goes through the formulas of the shapes.
A conventional shape divides by the distance of two coefficients where a
branch has found them apart, by a number above one, or by its width, and so
its formula is defined when its width is not zero
(`Shape.defined_formula?`). The inverse of a ramp divides by the degree, and
it is defined at any degree above zero, with one exception: the inverse of
a sigmoid divides by the slope of the sigmoid (`Ramp.defined_formula`).
-/

namespace FuzzyInference

namespace Formula

/-- **A formula that does not divide by zero.** -/
def Defined (f : Formula ℝ) : Prop := ∀ y ∈ f.divisors, y ≠ 0

/-- **The value of a defined formula** does not depend on what a division by
zero answers. -/
theorem Defined.evalWith_eq {f : Formula ℝ} (hf : f.Defined) {divide : ℝ → ℝ → ℝ}
    (h : ∀ x y, y ≠ 0 → divide x y = (scalar x / scalar y).eval) : f.evalWith divide = f.eval :=
  evalWith_eq_eval fun y hy x => h x y (hf y hy)

section Operations

variable {f g yes no : Formula ℝ}

@[simp] theorem defined_scalar (x : ℝ) : (scalar x).Defined := fun _ h => by cases h

@[simp] theorem defined_zero : (0 : Formula ℝ).Defined := defined_scalar 0

@[simp] theorem defined_one : (1 : Formula ℝ).Defined := defined_scalar 1

theorem defined_unary {op : Unary} : (unary op f).Defined ↔ f.Defined := Iff.rfl

theorem defined_binary {op : Binary} : (binary op f g).Defined ↔ f.Defined ∧ g.Defined :=
  List.forall_mem_append

/-- **A quotient** is formed when its divisor is not zero. -/
@[simp] theorem defined_div : (f / g).Defined ↔ f.Defined ∧ g.Defined ∧ g.eval ≠ 0 := by
  refine List.forall_mem_append.trans ?_
  rw [List.forall_mem_append, List.forall_mem_singleton, and_assoc]
  rfl

/-- **A branch** has to be defined when it is taken. -/
@[simp] theorem defined_ifLt : (ifLt f g yes no).Defined ↔ f.Defined ∧ g.Defined ∧
    (f.eval < g.eval → yes.Defined) ∧ (¬ f.eval < g.eval → no.Defined) := by
  refine List.forall_mem_append.trans ?_
  rw [List.forall_mem_append, and_assoc, apply_ite (fun ys : List ℝ => ∀ y ∈ ys, y ≠ 0),
    ite_prop_iff_and]
  rfl

@[simp] theorem defined_ifLe : (ifLe f g yes no).Defined ↔ f.Defined ∧ g.Defined ∧
    (f.eval ≤ g.eval → yes.Defined) ∧ (¬ f.eval ≤ g.eval → no.Defined) := by
  refine List.forall_mem_append.trans ?_
  rw [List.forall_mem_append, and_assoc, apply_ite (fun ys : List ℝ => ∀ y ∈ ys, y ≠ 0),
    ite_prop_iff_and]
  rfl

@[simp] theorem defined_neg : (-f).Defined ↔ f.Defined := defined_unary

@[simp] theorem defined_abs : (abs f).Defined ↔ f.Defined := defined_unary

@[simp] theorem defined_sqrt : (sqrt f).Defined ↔ f.Defined := defined_unary

@[simp] theorem defined_exp : (exp f).Defined ↔ f.Defined := defined_unary

@[simp] theorem defined_log : (log f).Defined ↔ f.Defined := defined_unary

@[simp] theorem defined_cos : (cos f).Defined ↔ f.Defined := defined_unary

@[simp] theorem defined_add : (f + g).Defined ↔ f.Defined ∧ g.Defined := defined_binary

@[simp] theorem defined_sub : (f - g).Defined ↔ f.Defined ∧ g.Defined := defined_binary

@[simp] theorem defined_mul : (f * g).Defined ↔ f.Defined ∧ g.Defined := defined_binary

@[simp] theorem defined_min : (min f g).Defined ↔ f.Defined ∧ g.Defined := defined_binary

@[simp] theorem defined_max : (max f g).Defined ↔ f.Defined ∧ g.Defined := defined_binary

@[simp] theorem defined_pow : (pow f g).Defined ↔ f.Defined ∧ g.Defined := defined_binary

theorem Defined.clamp {lower upper : Formula ℝ} (hf : f.Defined) (hlower : lower.Defined)
    (hupper : upper.Defined) : (clamp lower upper f).Defined := by
  simp [Formula.clamp, hlower, hupper, hf]

/-- Near values are told apart without a division. -/
theorem defined_ifNear (hf : f.Defined) (hg : g.Defined) :
    (ifNear f g yes no).Defined ↔ (Scalar.Near f.eval g.eval → yes.Defined) ∧
      (¬ Scalar.Near f.eval g.eval → no.Defined) := by
  simp [ifNear, hf, hg]

end Operations

/-! ## Curves -/

section Curves

variable {x a b c d : Formula ℝ}

theorem defined_rise (hx : x.Defined) (ha : a.Defined) (hb : b.Defined) :
    (rise x a b).Defined := by
  have hdivisor (h : a.eval < b.eval) : b.eval - a.eval ≠ 0 := (sub_pos.mpr h).ne'
  simpa [rise, hx, ha, hb] using hdivisor

theorem defined_fall (hx : x.Defined) (hc : c.Defined) (hd : d.Defined) :
    (fall x c d).Defined := by
  have hdivisor (h : c.eval < d.eval) : d.eval - c.eval ≠ 0 := (sub_pos.mpr h).ne'
  simpa [fall, hx, hc, hd] using hdivisor

theorem defined_triangular (hx : x.Defined) (ha : a.Defined) (hb : b.Defined) (hc : c.Defined) :
    (triangular x a b c).Defined := by
  simp [triangular, defined_rise hx ha hb, defined_fall hx hb hc]

theorem defined_trapezoidal (hx : x.Defined) (ha : a.Defined) (hb : b.Defined) (hc : c.Defined)
    (hd : d.Defined) : (trapezoidal x a b c d).Defined := by
  simp [trapezoidal, defined_rise hx ha hb, defined_fall hx hc hd]

/-- The divisor of a bell is above one. -/
theorem defined_bell (hx : x.Defined) (ha : a.Defined) (hb : b.Defined) (hc : c.Defined)
    (hwidth : a.eval ≠ 0) : (bell x a b c).Defined := by
  have hpow (y z : ℝ) : 1 + Scalar.pow (Scalar.abs y) z ≠ 0 :=
    (add_pos_of_pos_of_nonneg one_pos (Real.rpow_nonneg (abs_nonneg y) z)).ne'
  simp [bell, hx, ha, hb, hc, hwidth, hpow]

theorem defined_gaussian (hx : x.Defined) (ha : a.Defined) (hc : c.Defined)
    (hwidth : a.eval ≠ 0) : (gaussian x a c).Defined := by
  simp [gaussian, hx, ha, hc, hwidth]

theorem defined_gaussianPair (hx : x.Defined) (ha : a.Defined) (hb : b.Defined) (hc : c.Defined)
    (hd : d.Defined) (hleft : a.eval ≠ 0) (hright : c.eval ≠ 0) :
    (gaussianPair x a b c d).Defined := by
  simp [gaussianPair, hx, hb, hd, defined_gaussian hx ha hb hleft,
    defined_gaussian hx hc hd hright]

/-- So is the divisor of a sigmoid. -/
theorem defined_sigmoid (hx : x.Defined) (ha : a.Defined) (hc : c.Defined) :
    (sigmoid x a c).Defined := by
  have hexp (y : ℝ) : 1 + Scalar.exp y ≠ 0 := (add_pos one_pos (Real.exp_pos y)).ne'
  simp [sigmoid, hx, ha, hc, hexp]

theorem defined_sigmoidDifference (hx : x.Defined) (ha : a.Defined) (hb : b.Defined)
    (hc : c.Defined) (hd : d.Defined) : (sigmoidDifference x a b c d).Defined := by
  simp [sigmoidDifference, defined_sigmoid hx ha hb, defined_sigmoid hx hc hd]

theorem defined_sigmoidProduct (hx : x.Defined) (ha : a.Defined) (hb : b.Defined)
    (hc : c.Defined) (hd : d.Defined) : (sigmoidProduct x a b c d).Defined := by
  simp [sigmoidProduct, defined_sigmoid hx ha hb, defined_sigmoid hx hc hd]

/-- A value is between the coefficients of a smooth rise when their distance
is divided by. -/
theorem defined_smoothS (hx : x.Defined) (ha : a.Defined) (hb : b.Defined) :
    (smoothS x a b).Defined := by
  have hdivisor (hax : a.eval < x.eval) (hxb : x.eval < b.eval) : b.eval - a.eval ≠ 0 :=
    (sub_pos.mpr (hax.trans hxb)).ne'
  simp +contextual [smoothS, hx, ha, hb, hdivisor]

theorem defined_smoothZ (hx : x.Defined) (ha : a.Defined) (hb : b.Defined) :
    (smoothZ x a b).Defined := by
  have hdivisor (hax : a.eval < x.eval) (hxb : x.eval < b.eval) : b.eval - a.eval ≠ 0 :=
    (sub_pos.mpr (hax.trans hxb)).ne'
  simp +contextual [smoothZ, hx, ha, hb, hdivisor]

theorem defined_pi (hx : x.Defined) (ha : a.Defined) (hb : b.Defined) (hc : c.Defined)
    (hd : d.Defined) : (pi x a b c d).Defined := by
  simp [pi, defined_smoothS hx ha hb, defined_smoothZ hx hc hd]

theorem defined_singleton (hx : x.Defined) (ha : a.Defined) : (singleton x a).Defined := by
  simp [singleton, defined_ifNear hx ha]

/-- Where a bend bends, its divisor is the sum of two distances from the end
of the bend, and the value has one. -/
theorem defined_concave (hx : x.Defined) (ha : a.Defined) (hb : b.Defined) :
    (concave x a b).Defined := by
  have hrising (hab : a.eval ≤ b.eval) (hxb : x.eval < b.eval) :
      2 * b.eval - a.eval - x.eval ≠ 0 := by linarith
  have hfalling (hba : b.eval < a.eval) (hbx : b.eval < x.eval) :
      -(2 * b.eval) + a.eval + x.eval ≠ 0 := by linarith
  simp +contextual [concave, hx, ha, hb, hrising, hfalling]

theorem defined_spike (hx : x.Defined) (ha : a.Defined) (hc : c.Defined) (hwidth : a.eval ≠ 0) :
    (spike x a c).Defined := by
  simp [spike, hx, ha, hc, hwidth]

theorem defined_linearS (hx : x.Defined) (ha : a.Defined) (hb : b.Defined) :
    (linearS x a b).Defined := by
  have hdivisor (h : a.eval < b.eval) : b.eval - a.eval ≠ 0 := (sub_pos.mpr h).ne'
  have hquotient (h : a.eval < b.eval) : ((x - a) / (b - a)).Defined := by
    simp [hx, ha, hb, hdivisor h]
  simp +contextual [linearS, hx, ha, hb, defined_ifNear ha hb, Defined.clamp, hquotient]

theorem defined_linearZ (hx : x.Defined) (ha : a.Defined) (hb : b.Defined) :
    (linearZ x a b).Defined := by
  have hdivisor (h : a.eval < b.eval) : b.eval - a.eval ≠ 0 := (sub_pos.mpr h).ne'
  have hquotient (h : a.eval < b.eval) : ((b - x) / (b - a)).Defined := by
    simp [hx, ha, hb, hdivisor h]
  simp +contextual [linearZ, hx, ha, hb, defined_ifNear ha hb, Defined.clamp, hquotient]

theorem defined_rectangle (hx : x.Defined) (ha : a.Defined) (hb : b.Defined) :
    (rectangle x a b).Defined := by
  simp [rectangle, hx, ha, hb]

theorem defined_cosine (hx : x.Defined) (ha : a.Defined) (hb : b.Defined) (hwidth : b.eval ≠ 0) :
    (cosine x a b).Defined := by
  simp [cosine, hx, ha, hb, hwidth]

/-- A linear combination is a sum of products. -/
theorem defined_combination {inputs coefficients : List (Formula ℝ)}
    (hinputs : ∀ f ∈ inputs, f.Defined) (hcoefficients : ∀ f ∈ coefficients, f.Defined) :
    (combination inputs coefficients).Defined := by
  have hterm : ∀ f ∈ inputs.zipWith (· * ·) coefficients, f.Defined := by
    rw [← List.map_uncurry_zip_eq_zipWith]
    refine List.forall_mem_map.mpr fun (f, g) hfg => ?_
    obtain ⟨hf, hg⟩ := List.of_mem_zip hfg
    exact defined_mul.mpr ⟨hinputs f hf, hcoefficients g hg⟩
  have hlast : (coefficients[inputs.length]?.getD 0).Defined := by
    cases h : coefficients[inputs.length]? with
    | none => exact defined_zero
    | some f => exact hcoefficients f (List.mem_of_getElem? h)
  refine defined_add.mpr ⟨?_, hlast⟩
  exact List.foldlRecOn _ _ defined_zero fun f hf g hg => defined_add.mpr ⟨hf, hterm g hg⟩

end Curves

/-! ## Inverses -/

section Inverses

variable {degree lower upper a b : Formula ℝ}

theorem defined_linearSInverse (hdegree : degree.Defined) (ha : a.Defined) (hb : b.Defined) :
    (linearSInverse degree a b).Defined := by
  simp [linearSInverse, hdegree, ha, hb]

theorem defined_linearZInverse (hdegree : degree.Defined) (ha : a.Defined) (hb : b.Defined) :
    (linearZInverse degree a b).Defined := by
  simp [linearZInverse, hdegree, ha, hb]

theorem defined_concaveInverse (hdegree : degree.Defined) (ha : a.Defined) (hb : b.Defined)
    (hpos : 0 < degree.eval) : (concaveInverse degree a b).Defined := by
  simp [concaveInverse, hdegree, ha, hb, hpos.ne']

/-- **The inverse of a sigmoid** divides by the slope. -/
theorem defined_sigmoidInverse (hdegree : degree.Defined) (hlower : lower.Defined)
    (hupper : upper.Defined) (ha : a.Defined) (hb : b.Defined) (hpos : 0 < degree.eval) :
    (sigmoidInverse degree lower upper a b).Defined ↔
      (¬ Scalar.Near degree.eval 1 → ¬ Scalar.Near degree.eval 0 → a.eval ≠ 0) := by
  simp [sigmoidInverse, defined_ifNear, hdegree, hlower, hupper, ha, hb, hpos.ne']

theorem defined_nearer (hdegree : degree.Defined) (hlower : lower.Defined) (hupper : upper.Defined)
    {curve : Formula ℝ → Formula ℝ} (hcurve : ∀ f, f.Defined → (curve f).Defined) :
    (nearer degree lower upper curve).Defined := by
  simp [nearer, hdegree, hlower, hupper, hcurve]

theorem defined_smoothSInverse (hdegree : degree.Defined) (ha : a.Defined) (hb : b.Defined) :
    (smoothSInverse degree a b).Defined := by
  refine defined_nearer hdegree ?_ ?_ fun f hf => defined_smoothS hf ha hb
  · simp [hdegree, ha, hb]
  · simp [hdegree, ha, hb]

theorem defined_smoothZInverse (hdegree : degree.Defined) (ha : a.Defined) (hb : b.Defined) :
    (smoothZInverse degree a b).Defined := by
  refine defined_nearer hdegree ?_ ?_ fun f hf => defined_smoothZ hf ha hb
  · simp [hdegree, ha, hb]
  · simp [hdegree, ha, hb]

end Inverses

end Formula

/-! ## Shapes -/

/-- **An inverse divides by zero** only where a sigmoid is inverted that has
no slope, at a degree that is neither next to nothing nor next to
certainty. -/
theorem Ramp.defined_formula (ramp : Ramp) {lower upper a b degree : Formula ℝ}
    (hlower : lower.Defined) (hupper : upper.Defined) (ha : a.Defined) (hb : b.Defined)
    (hdegree : degree.Defined) (hpos : 0 < degree.eval) :
    (ramp.formula lower upper a b degree).Defined ↔
      (ramp = .sigmoid → ¬ Scalar.Near degree.eval 1 → ¬ Scalar.Near degree.eval 0 →
        a.eval ≠ 0) := by
  cases ramp with
  | linearS => exact iff_of_true (Formula.defined_linearSInverse hdegree ha hb) nofun
  | linearZ => exact iff_of_true (Formula.defined_linearZInverse hdegree ha hb) nofun
  | concave =>
    exact iff_of_true (Formula.defined_concaveInverse hdegree ha hb hpos) nofun
  | sigmoid =>
    rw [forall_prop_of_true rfl]
    exact Formula.defined_sigmoidInverse hdegree hlower hupper ha hb hpos
  | smoothS => exact iff_of_true (Formula.defined_smoothSInverse hdegree ha hb) nofun
  | smoothZ => exact iff_of_true (Formula.defined_smoothZInverse hdegree ha hb) nofun

namespace Shape

open Formula

/-- A width that is not found to be zero is not. -/
theorem ne_zero_of_zeroWidth? {α : Type} [Scalar α] [Scalar.HasNumbers α] {w : ℝ}
    (h : some (decide (Scalar.Same (Scalar.HasNumbers.number w : α) 0)) = some false) : w ≠ 0 :=
  Scalar.ne_zero_of_not_same (of_decide_eq_false (Option.some.inj h))

/-- **A conventional shape never divides by zero** if no width that it has is
zero. -/
theorem defined_formula? {shape : Shape} (hpart : shape.part = .conventional) {x : Formula ℝ}
    (hx : x.Defined) {p : List (Formula ℝ)} (hp : ∀ f ∈ p, f.Defined)
    (hwidth : shape.zeroWidth? (p.map eval) = some false) {f : Formula ℝ}
    (hf : shape.formula? x p = some f) : f.Defined := by
  -- a width is where `zeroWidth?` looks for it
  match shape, p, hp, hwidth, hf with
  | .constant, a :: _, hp, _, rfl =>
    simp only [List.forall_mem_cons] at hp
    exact hp.1
  | .triangular, a :: b :: c :: _, hp, _, rfl =>
    simp only [List.forall_mem_cons] at hp
    exact defined_triangular hx hp.1 hp.2.1 hp.2.2.1
  | .trapezoidal, a :: b :: c :: d :: _, hp, _, rfl =>
    simp only [List.forall_mem_cons] at hp
    exact defined_trapezoidal hx hp.1 hp.2.1 hp.2.2.1 hp.2.2.2.1
  | .bell, a :: b :: c :: _, hp, hwidth, rfl =>
    simp only [List.forall_mem_cons] at hp
    exact defined_bell hx hp.1 hp.2.1 hp.2.2.1 (ne_zero_of_zeroWidth? (α := ℝ) hwidth)
  | .gaussian, a :: b :: _, hp, hwidth, rfl =>
    simp only [List.forall_mem_cons] at hp
    exact defined_gaussian hx hp.1 hp.2.1 (ne_zero_of_zeroWidth? (α := ℝ) hwidth)
  | .gaussianPair, a :: b :: c :: d :: _, hp, hwidth, rfl =>
    simp only [List.forall_mem_cons] at hp
    have hwidth := not_or.mp (of_decide_eq_false (Option.some.inj hwidth))
    exact defined_gaussianPair hx hp.1 hp.2.1 hp.2.2.1 hp.2.2.2.1
      (Scalar.ne_zero_of_not_same (α := ℝ) hwidth.1) (Scalar.ne_zero_of_not_same (α := ℝ) hwidth.2)
  | .sigmoid, a :: b :: _, hp, _, rfl =>
    simp only [List.forall_mem_cons] at hp
    exact defined_sigmoid hx hp.1 hp.2.1
  | .sigmoidDifference, a :: b :: c :: d :: _, hp, _, rfl =>
    simp only [List.forall_mem_cons] at hp
    exact defined_sigmoidDifference hx hp.1 hp.2.1 hp.2.2.1 hp.2.2.2.1
  | .sigmoidProduct, a :: b :: c :: d :: _, hp, _, rfl =>
    simp only [List.forall_mem_cons] at hp
    exact defined_sigmoidProduct hx hp.1 hp.2.1 hp.2.2.1 hp.2.2.2.1
  | .pi, a :: b :: c :: d :: _, hp, _, rfl =>
    simp only [List.forall_mem_cons] at hp
    exact defined_pi hx hp.1 hp.2.1 hp.2.2.1 hp.2.2.2.1
  | .smoothS, a :: b :: _, hp, _, rfl =>
    simp only [List.forall_mem_cons] at hp
    exact defined_smoothS hx hp.1 hp.2.1
  | .smoothZ, a :: b :: _, hp, _, rfl =>
    simp only [List.forall_mem_cons] at hp
    exact defined_smoothZ hx hp.1 hp.2.1
  | .singleton, a :: _, hp, _, rfl =>
    simp only [List.forall_mem_cons] at hp
    exact defined_singleton hx hp.1
  | .concave, a :: b :: _, hp, _, rfl =>
    simp only [List.forall_mem_cons] at hp
    exact defined_concave hx hp.1 hp.2.1
  | .spike, a :: b :: _, hp, hwidth, rfl =>
    simp only [List.forall_mem_cons] at hp
    exact defined_spike hx hp.1 hp.2.1 (ne_zero_of_zeroWidth? (α := ℝ) hwidth)
  | .linearS, a :: b :: _, hp, _, rfl =>
    simp only [List.forall_mem_cons] at hp
    exact defined_linearS hx hp.1 hp.2.1
  | .linearZ, a :: b :: _, hp, _, rfl =>
    simp only [List.forall_mem_cons] at hp
    exact defined_linearZ hx hp.1 hp.2.1
  | .rectangle, a :: b :: _, hp, _, rfl =>
    simp only [List.forall_mem_cons] at hp
    exact defined_rectangle hx hp.1 hp.2.1
  | .cosine, a :: b :: _, hp, hwidth, rfl =>
    simp only [List.forall_mem_cons] at hp
    exact defined_cosine hx hp.1 hp.2.1 (ne_zero_of_zeroWidth? (α := ℝ) hwidth)

end Shape

/-! ## Terms -/

namespace Term

variable {t : Term ℝ}

/-- The coefficients of a term are there without a division. -/
theorem forall_defined_scalar (xs : List ℝ) : ∀ f ∈ xs.map Formula.scalar, f.Defined :=
  List.forall_mem_map.mpr fun x _ => Formula.defined_scalar x

/-- **The degree of a value** is found without a division by zero. -/
theorem defined_degreeFormula? {shape : Shape} (hprofile : t.profile = .builtin shape)
    (hpart : shape.part = .conventional)
    (hwidth : shape.zeroWidth? t.coefficients = some false) {x lower upper : ℝ} {f : Formula ℝ}
    (hf : t.degreeFormula? x lower upper = some f) : f.Defined := by
  unfold degreeFormula? at hf
  rw [hprofile] at hf
  obtain ⟨g, hg, rfl⟩ := Option.map_eq_some_iff.mp hf
  rw [← Formula.map_eval_map_scalar t.coefficients] at hwidth
  have hg := Shape.defined_formula? hpart (Formula.defined_scalar x) (forall_defined_scalar _)
    hwidth hg
  exact Formula.defined_mul.mpr ⟨Formula.defined_scalar _, hg⟩

/-- So is a Sugeno conclusion. -/
theorem defined_sugenoFormula? {shape : Shape} (hprofile : t.profile = .builtin shape)
    {inputs : List ℝ} {lower upper : ℝ} {f : Formula ℝ}
    (hf : t.sugenoFormula? inputs lower upper = some f) : f.Defined := by
  unfold sugenoFormula? at hf
  rw [hprofile] at hf
  cases shape with
  | combination =>
    cases hf
    exact Formula.defined_combination (forall_defined_scalar _) (forall_defined_scalar _)
  | _ => exact forall_defined_scalar _ f (List.mem_of_mem_head? hf)

/-- **A level sigmoid** that is to be inverted: its slope is zero. -/
def InvertsLevel (t : Term ℝ) : Prop :=
  t.profile = .builtin (.inverse .sigmoid) ∧ t.coefficients.head? = some 0

/-- **A Tsukamoto conclusion** is drawn without a division by zero, unless a
level sigmoid is inverted at a strength in between. -/
theorem defined_tsukamotoFormula? {ramp : Ramp} (hprofile : t.profile = .builtin (.inverse ramp))
    {strength : ℝ} (hpos : 0 < strength) {inputs : List ℝ} {lower upper : ℝ} {f : Formula ℝ}
    (hf : t.tsukamotoFormula? strength inputs lower upper = some f) :
    f.Defined ↔ ¬ (t.InvertsLevel ∧ ¬ Scalar.Near strength 0 ∧ ¬ Scalar.Near strength 1) := by
  unfold tsukamotoFormula? at hf
  unfold InvertsLevel
  rw [hprofile] at hf ⊢
  match hp : t.coefficients, hf with
  | a :: b :: p, hf =>
    cases hf
    rw [ramp.defined_formula (Formula.defined_scalar _) (Formula.defined_scalar _)
      (Formula.defined_scalar a) (Formula.defined_scalar b) (Formula.defined_scalar _) hpos]
    simp only [Formula.eval_scalar, Profile.builtin.injEq, Shape.inverse.injEq, List.head?_cons,
      Option.some.injEq]
    tauto

end Term

end FuzzyInference
