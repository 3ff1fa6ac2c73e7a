import FuzzyInference.Controller.Defuzzify
import FuzzyInference.Description.Basic
import FuzzyInference.Language.Read
import FuzzyInference.Stream.Encode

/-!
# From a description to a system

`Description.build` makes the system that is described: a controller with
all terms bound, the rule base as a stream, and the names they are known
by. A `NamedController` is evaluated by name: inputs that are not
mentioned keep their values, and the answer has a value for every output,
which is not a number when no rule has said anything about it.
-/

namespace FuzzyInference

/-- **A controller with its rule base and its names.** -/
structure NamedController (α : Type) where
  /-- The controller. -/
  controller : Controller α
  /-- The rule base. -/
  rules : RuleStream .bits16
  /-- What the names stand for. -/
  names : Names
  /-- The names of the inputs, in order. -/
  inputNames : List String
  /-- The names of the outputs, in order. -/
  outputNames : List String

/-- The first of some names that has occurred before. -/
def firstRepeat? (seen : List String) : List String → Option String
  | [] => none
  | name :: rest => if name ∈ seen then some name else firstRepeat? (name :: seen) rest

namespace Description

variable {α : Type} [Scalar α]

/-- Whether some names are all different. -/
def checkNames (kind : NameKind) (names : List String) : Except (Fault α) Unit :=
  match firstRepeat? [] names with
  | some name => .error (.duplicateName kind name)
  | none => .ok ()

/-- Whether no name is given twice: to two inputs, to two outputs, or to
two terms of one variable. -/
def checkAllNames (d : Description α) : Except (Fault α) Unit := do
  checkNames .input (d.inputs.map (·.name))
  checkNames .output (d.outputs.map (·.name))
  (d.inputs ++ d.outputs).forM fun v => checkNames .term (v.terms.map (·.name))

/-- The variable that is described. -/
def makeVariable (v : VariableDescription α) : Except (Fault α) (Variable α) :=
  match Variable.make v.lower v.upper with
  | .ok made => .ok made
  | .error r => Fault.reject r

/-- The controller that is described, before it is configured. -/
def setup (d : Description α) : Except (Fault α) (Controller α) := do
  let inputs ← d.inputs.mapM makeVariable
  let outputs ← d.outputs.mapM makeVariable
  Controller.setup d.style inputs outputs (termCount d.inputs) (termCount d.outputs)

/-- The controller with the choices of a description. -/
def configure (d : Description α) (c : Controller α) : Except (Fault α) (Controller α) := do
  let c ← d.settings.foldlM Controller.choose c
  match d.defuzzifier with
  | some method => c.chooseMethod method
  | none => return c

/-- The controller with the terms of a description. -/
def bindAll (d : Description α) (c : Controller α) : Except (Fault α) (Controller α) := do
  let c ← (d.bindings .input).foldlM Controller.bindTerm c
  (d.bindings .output).foldlM Controller.bindTerm c

/-- The rule base that is described. -/
def ruleBase (d : Description α) : Except (Fault α) (RuleStream .bits16) :=
  match readRules d.names.resolver d.ruleText with
  | .error f => .error (.language f)
  | .ok rules =>
    match RuleStream.encode .bits16 rules with
    | .error f => .error (.encoding f)
    | .ok stream => .ok stream

/-- **The system that is described.** -/
def build (d : Description α) : Except (Fault α) (NamedController α) := do
  d.checkAllNames
  let c ← d.setup
  let c ← d.configure c
  let c ← d.bindAll c
  let rules ← d.ruleBase
  let c ←
    match d.weights with
    | some ws => c.setWeights ws
    | none => pure c
  return ⟨c, rules, d.names, d.inputs.map (·.name), d.outputs.map (·.name)⟩

end Description

namespace NamedController

variable {α : Type} [Scalar α]

/-- The number of a named input, for which a value is given. -/
def taggedInput (n : NamedController α) : String × α → Except (Fault α) (Nat × α)
  | (name, value) =>
    match n.inputNames.findIdx? (· = name) with
    | none => Fault.reject (.unknownInput name)
    | some tag =>
      if Scalar.IsNaN value then Fault.reject (.namedInputNotNumber name)
      else .ok (tag, value)

/-- The values of the outputs with their names. -/
def namedOutputs (n : NamedController α) : Except (Fault α) (List (String × α)) :=
  n.outputNames.zipIdx.mapM fun (name, tag) => do
    return (name, ← n.controller.value .output tag)

/-- **Evaluate by name.** All the names and values are looked at before
any input is set. -/
def evaluate (n : NamedController α) (inputs : List (String × α)) :
    Except (Fault α) (List (String × α)) × NamedController α :=
  let set := do
    let tagged ← inputs.mapM n.taggedInput
    n.controller.setInputs tagged
  match set with
  | .error f => (.error f, n)
  | .ok c =>
    let (outcome, c) := c.runCycle n.rules.tokens
    let after := { n with controller := c }
    match outcome with
    | .error f => (.error f, after)
    | .ok _ => (after.namedOutputs, after)

end NamedController

end FuzzyInference
