import FuzzyInference.Stream.Step
import FuzzyInference.Variable

/-!
# Controllers

A **controller** is a fuzzy system at work: its variables, the tables of
the terms that are bound on either side, the choices that have been made,
and what the current cycle has found so far. A cycle is

```text
set inputs → fuzzify → infer → defuzzify → read outputs
```

This module holds the data and the questions one can ask. The operations
follow in `FuzzyInference.Controller.Configure`, which changes what a
controller is, and in `FuzzyInference.Controller.Infer` and
`FuzzyInference.Controller.Defuzzify`, which run its cycle. An operation
that fails leaves the controller as it was.
-/

namespace FuzzyInference

/-- **How far the conclusions reach that name a term**, in a Mamdani
system. -/
structure Activation (α : Type) where
  /-- By conclusions that assert the term. -/
  direct : α
  /-- By conclusions that deny the term. -/
  negated : α
deriving BEq

/-- **What the conclusions about an output add up to**, in a Sugeno or
Tsukamoto system. -/
structure WeightedSum (α : Type) where
  /-- The conclusions, each weighted by the strength of its rule. -/
  weighted : α
  /-- The strengths. -/
  weight : α
deriving BEq

/-- A point of a curve. -/
structure CurvePoint (α : Type) where
  /-- The point of the universe. -/
  x : α
  /-- The degree there. -/
  y : α
deriving BEq

/-- **What a cycle has found so far.** -/
structure Cycle (α : Type) where
  /-- The inputs as they have been fuzzified. -/
  inputs : List α
  /-- The degrees of the input terms. -/
  degrees : List α
  /-- The activations of the output terms. -/
  activations : List (Activation α)
  /-- The sums of the outputs. -/
  sums : List (WeightedSum α)
  /-- The strengths of the rules, in order. -/
  strengths : List α
  /-- Whether the inputs have been fuzzified. -/
  fuzzified : Bool
  /-- Whether an inference has been made. -/
  inferred : Bool

namespace Cycle

variable {α : Type} [Scalar α]

/-- The cycle with every finding of inference taken back. -/
def cleared (c : Cycle α) : Cycle α :=
  { c with
    activations := c.activations.map fun _ => ⟨0, 0⟩
    sums := c.sums.map fun _ => ⟨0, 0⟩
    strengths := []
    inferred := false }

end Cycle

/-- **A controller.** -/
structure Controller (α : Type) where
  /-- The style of inference. -/
  style : Style
  /-- The inputs. -/
  inputs : List (Variable α)
  /-- The outputs. -/
  outputs : List (Variable α)
  /-- The table of the input terms. -/
  inputTerms : List (Option (Term α))
  /-- The table of the output terms. -/
  outputTerms : List (Option (Term α))
  /-- The norms. -/
  norms : Norms
  /-- How many steps the universe of an output is divided into. -/
  evalPoints : Nat
  /-- The method of defuzzification. -/
  defuzzifier : Defuzzifier
  /-- The weights of the rules, where there are any. -/
  weights : Option (List α)
  /-- What the current cycle has found. -/
  cycle : Cycle α

namespace Controller

variable {α : Type} [Scalar α]

/-- **A controller without terms**, with so many places for them on
either side, and with the choices a system has to begin with. -/
def setup (style : Style) (inputs outputs : List (Variable α))
    (inputSlots outputSlots : Nat) : Except (Fault α) (Controller α) := do
  if inputs = [] ∨ outputs = [] then Fault.reject .noVariables
  if inputSlots = 0 ∨ outputSlots = 0 then Fault.reject .noTerms
  match (inputs ++ outputs).forM Variable.check with
  | .error r => Fault.reject r
  | .ok () =>
    let values ← Fault.found (inputs.mapM fun v => v.saturate? v.value)
    return {
      style, inputs, outputs
      inputTerms := List.replicate inputSlots none
      outputTerms := List.replicate outputSlots none
      norms := .initial
      evalPoints := Setting.defaultEvalPoints
      defuzzifier := .initial style
      weights := none
      cycle := {
        inputs := values
        degrees := List.replicate inputSlots 0
        activations := List.replicate outputSlots ⟨0, 0⟩
        sums := outputs.map fun _ => ⟨0, 0⟩
        strengths := []
        fuzzified := false
        inferred := false } }

/-! ## Questions -/

/-- The variables of a side. -/
def variablesOf (c : Controller α) : Side → List (Variable α)
  | .input => c.inputs
  | .output => c.outputs

/-- The table of the terms of a side. -/
def termsOf (c : Controller α) : Side → List (Option (Term α))
  | .input => c.inputTerms
  | .output => c.outputTerms

/-- The term bound in a place. -/
def term? (c : Controller α) (side : Side) (slot : Nat) : Option (Term α) :=
  (c.termsOf side)[slot]?.join

/-- How many variables a rule stream can speak of. -/
def bounds (c : Controller α) : Bounds := ⟨c.inputs.length, c.outputs.length⟩

/-- **The weight of a rule**, saturated in the unit interval. Rules
without a weight of their own count in full. -/
def weight (c : Controller α) (rule : Nat) : α :=
  match c.weights.bind (·[rule]?) with
  | some w => Scalar.clampUnit w
  | none => 1

/-- The value of a variable. -/
def value (c : Controller α) (side : Side) (tag : Nat) : Except (Fault α) α :=
  match (c.variablesOf side)[tag]? with
  | some v => .ok v.value
  | none => Fault.reject (.noSuchVariable side tag)

/-- **The value of an output**, which some rule must have determined. -/
def output (c : Controller α) (tag : Nat) : Except (Fault α) α := do
  let value ← c.value .output tag
  if Scalar.IsNaN value then .error (.noActivation tag) else return value

end Controller

end FuzzyInference
