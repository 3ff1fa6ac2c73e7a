import FuzzyInference.Defuzzify.Method
import FuzzyInference.Proofs.Shape.Division

/-!
# Defuzzification does not divide by zero

The centre of gravity, the line that halves the area and the weighted
average are quotients, and each of them is formed only when its divisor has
been found to be above zero. So the formula of a crisp value is always
defined over the real numbers (`Defuzzifier.defined_sampledFormula?`,
`Defuzzifier.defined_weightedFormula`). What has been gathered before the
quotient is formed – a moment, a mass, the areas to either side – enters
the formula as a scalar.
-/

namespace FuzzyInference

section Formulas

variable {α : Type} [Scalar α]

namespace Samples

/-- **The formula of the centre of gravity.** -/
def centroidFormula (s : Samples α) : Formula α :=
  let (moment, mass) := s.points.foldl (fun (moment, mass) (x, y) => (moment + x * y, mass + y))
    ((0 : α), (0 : α))
  .ifLt 0 (.scalar mass) (.scalar moment / .scalar mass) (.scalar Scalar.nan)

theorem eval_centroidFormula (s : Samples α) : s.centroidFormula.eval = s.centroid := rfl

/-- **The formula of the point within a sample** where two sweeps meet. -/
def halfwayFormula (s : Samples α) (b : Balance α) : Formula α :=
  .scalar (s.x b.index) + .scalar s.step *
    .ifLt 0 (.scalar b.value)
      (.clamp (.scalar (-Scalar.half)) (.scalar Scalar.half)
        ((.scalar b.behind - .scalar b.before) / (.scalar Scalar.two * .scalar b.value))) 0

theorem eval_halfwayFormula (s : Samples α) (b : Balance α) :
    (s.halfwayFormula b).eval = s.halfway b := rfl

/-- **The formula of the point that halves the area.** -/
def bisectorFormula? (s : Samples α) : Option (Formula α) :=
  if s.ys = [] ∨ s.IsFlat then some (.scalar Scalar.nan)
  else (sweep (s.ys.length - 1) 0 0 0 s.ys s.ys.reverse).map s.halfwayFormula

theorem eval_bisectorFormula? (s : Samples α) :
    s.bisectorFormula?.map Formula.eval = s.bisector? := by
  unfold bisectorFormula? bisector?
  split
  · rfl
  · rw [Option.map_map]
    exact congrArg (Option.map · _) (funext s.eval_halfwayFormula)

end Samples

namespace Defuzzifier

/-- **The formula of the crisp value of a sampled curve.** -/
def sampledFormula? (d : Defuzzifier) (s : Samples α) : Option (Formula α) :=
  match d with
  | .centroid => some s.centroidFormula
  | .bisector => s.bisectorFormula?
  -- the other methods choose among the points
  | d => (d.ofSamples? s).map .scalar

theorem eval_sampledFormula? (d : Defuzzifier) (s : Samples α) :
    (d.sampledFormula? s).map Formula.eval = d.ofSamples? s := by
  cases d with
  | centroid => exact congrArg some s.eval_centroidFormula
  | bisector => exact s.eval_bisectorFormula?
  | _ => rfl

/-- **The formula of the crisp value of weighted conclusions.** -/
def weightedFormula (d : Defuzzifier) (weighted weight : α) : Formula α :=
  .ifLe (.scalar weight) 0 (.scalar Scalar.nan) <|
    match d with
    | .weightedAverage => .scalar weighted / .scalar weight
    | .weightedSum => .scalar weighted
    | _ => .scalar Scalar.nan

theorem eval_weightedFormula (d : Defuzzifier) (weighted weight : α) :
    (d.weightedFormula weighted weight).eval = d.ofWeighted weighted weight := by
  cases d <;> rfl

end Defuzzifier

end Formulas

open Formula

namespace Samples

theorem defined_centroidFormula (s : Samples ℝ) : s.centroidFormula.Defined := by
  have hdivisor (mass : ℝ) (h : 0 < mass) : mass ≠ 0 := h.ne'
  simpa [centroidFormula] using hdivisor _

theorem defined_halfwayFormula (s : Samples ℝ) (b : Balance ℝ) :
    (s.halfwayFormula b).Defined := by
  have hquotient (h : 0 < b.value) : ((scalar b.behind - scalar b.before)
      / (scalar Scalar.two * scalar b.value)).Defined := by
    simp [h.ne']
  have hoffset := defined_ifLt.mpr ⟨defined_zero, defined_scalar b.value,
    fun h => (hquotient h).clamp (defined_scalar (-Scalar.half)) (defined_scalar Scalar.half),
    fun _ => defined_zero⟩
  exact defined_add.mpr ⟨defined_scalar _, defined_mul.mpr ⟨defined_scalar _, hoffset⟩⟩

end Samples

namespace Defuzzifier

/-- **The crisp value of a sampled curve** is found without a division by
zero. -/
theorem defined_sampledFormula? {d : Defuzzifier} {s : Samples ℝ} {f : Formula ℝ}
    (hf : d.sampledFormula? s = some f) : f.Defined := by
  cases d with
  | centroid =>
    cases hf
    exact s.defined_centroidFormula
  | bisector =>
    replace hf : s.bisectorFormula? = some f := hf
    unfold Samples.bisectorFormula? at hf
    split at hf
    · cases hf
      exact defined_scalar _
    · obtain ⟨b, -, rfl⟩ := Option.map_eq_some_iff.mp hf
      exact s.defined_halfwayFormula b
  | _ =>
    cases hf
    exact defined_scalar _

/-- **So is the crisp value of weighted conclusions.** -/
theorem defined_weightedFormula (d : Defuzzifier) (weighted weight : ℝ) :
    (d.weightedFormula weighted weight).Defined := by
  have hdivisor (h : ¬ weight ≤ 0) : weight ≠ 0 := fun heq => h heq.le
  cases d <;> simp +contextual [weightedFormula, hdivisor]

end Defuzzifier

end FuzzyInference
