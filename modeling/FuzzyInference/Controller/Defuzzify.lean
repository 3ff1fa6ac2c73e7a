import FuzzyInference.Controller.Infer

/-!
# Curves, defuzzifying, and a whole cycle

The second half of a cycle. In a Mamdani system the conclusions about an
output make up a **curve** over its universe: each term of the output is
cut to its activation, its complement to the activation of its denial,
and the pieces are united. `Controller.defuzzify` samples these curves, or
takes the weighted sums of the other styles, and gives every output its
crisp value.
-/

namespace FuzzyInference

namespace Controller

variable {α : Type} [Scalar α]

/-! ## The curve of an output -/

/-- The curve of an output after one more term. Terms of other outputs
contribute nothing. -/
def unite? (c : Controller α) (output : Nat) (v : Variable α) (x y : α)
    (slot : Option (Term α) × Activation α) : Option α :=
  match slot with
  | (none, _) => some y
  | (some t, activation) =>
    if t.owner ≠ output then some y
    else do
      let degree ← t.degree? x v.lower v.upper
      let mu := Scalar.clampUnit degree
      let asserted := c.norms.implication.apply activation.direct mu
      let denied := c.norms.implication.apply activation.negated (1 - mu)
      return c.norms.aggregation.apply (c.norms.aggregation.apply y asserted) denied

/-- **The curve of an output** at a point. -/
def curve? (c : Controller α) (output : Nat) (x : α) : Option α := do
  let v ← c.outputs[output]?
  (c.outputTerms.zip c.cycle.activations).foldlM (c.unite? output v x) 0

/-- Whether there is a curve for an output. -/
def requireCurve (c : Controller α) (output : Nat) : Except (Fault α) Unit :=
  if c.style ≠ .mamdani then Fault.reject (.noCurve c.style)
  else if c.outputs.length ≤ output then Fault.reject (.noSuchVariable .output output)
  else .ok ()

/-- The curve of an output at a point, where there is one. -/
def curve (c : Controller α) (output : Nat) (x : α) : Except (Fault α) α := do
  c.requireCurve output
  Fault.found (c.curve? output x)

/-- The distance between the points an output is sampled at. -/
def resolution (c : Controller α) (v : Variable α) : α := v.span / (c.evalPoints : α)

/-- **The curve of an output as points.** -/
def region (c : Controller α) (output : Nat) : Except (Fault α) (List (CurvePoint α)) := do
  c.requireCurve output
  let v ← Fault.found c.outputs[output]?
  (List.range (c.evalPoints + 1)).mapM fun (k : Nat) => do
    let x := v.lower + c.resolution v * (k : α)
    let y ← Fault.found (c.curve? output x)
    return ⟨x, y⟩

/-- **The samples of the curve of an output.** -/
def samples? (c : Controller α) (output : Nat) (v : Variable α) : Option (Samples α) := do
  let step := c.resolution v
  let ys ← (List.range (c.evalPoints + 1)).mapM fun (k : Nat) =>
    c.curve? output (v.lower + step * (k : α))
  return ⟨ys, v.lower, step⟩

/-! ## Defuzzifying -/

/-- The crisp value of what has been found about an output, wherever it
lies. -/
def crisp? (c : Controller α) (output : Nat) (v : Variable α) : Option α :=
  match c.style with
  | .mamdani => do c.defuzzifier.ofSamples? (← c.samples? output v)
  | .sugeno | .tsukamoto => do
    let sum ← c.cycle.sums[output]?
    return c.defuzzifier.ofWeighted sum.weighted sum.weight

/-- An output with its crisp value. -/
def defuzzified? (c : Controller α) : Variable α × Nat → Option (Variable α)
  | (v, output) => do
    let crisp ← c.crisp? output v
    let value ← v.saturateFinite? crisp
    return { v with value := value }

/-- **Give every output its crisp value.** -/
def defuzzify (c : Controller α) : Except (Fault α) (Controller α) :=
  if !c.cycle.inferred then .error (.unready .notInferred)
  else do
    let outputs ← Fault.found (c.outputs.zipIdx.mapM c.defuzzified?)
    return { c with outputs := outputs }

/-! ## A whole cycle -/

/-- Fuzzify, infer and defuzzify. The controller is the one that the last
successful step has left. -/
def runCycle (c : Controller α) (tokens : List Token) : Except (Fault α) Nat × Controller α :=
  match c.fuzzify with
  | .error f => (.error f, c)
  | .ok fuzzified =>
    match fuzzified.infer tokens with
    | (.error f, after) => (.error f, after)
    | (.ok rules, inferred) =>
      match inferred.defuzzify with
      | .error f => (.error f, inferred)
      | .ok defuzzified => (.ok rules, defuzzified)

/-- The controller with values for all its inputs. -/
def withInputs (c : Controller α) (values : List α) : Controller α :=
  { c with inputs := c.inputs.zipWith (fun v x => { v with value := x }) values }

/-- **Evaluate** a rule stream for values of all the inputs. -/
def evaluate (c : Controller α) (tokens : List Token) (values : List α) :
    Except (Fault α) Nat × Controller α :=
  if values.length ≠ c.inputs.length then
    (Fault.reject (.wrongInputCount c.inputs.length values.length), c)
  else if ∃ x ∈ values, Scalar.IsNaN x then (Fault.reject .inputsNotNumbers, c)
  else (c.withInputs values).runCycle tokens

end Controller

end FuzzyInference
