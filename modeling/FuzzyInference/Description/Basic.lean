import FuzzyInference.Controller.Configure
import FuzzyInference.Language.Names

/-!
# Descriptions

A **description** says all there is to say about a fuzzy system in the
words of its user: variables and terms by name, the choices that differ
from the usual ones, and the rules as text. Variables and terms are
numbered in the order they are declared; the terms of one side share one
table, variable after variable.
-/

namespace FuzzyInference

/-- A linguistic term as it is described. -/
structure TermDescription (α : Type) where
  /-- The name. -/
  name : String
  /-- The shape. -/
  shape : Shape
  /-- What the shape is evaluated on. -/
  coefficients : List α
  /-- The height. -/
  height : α
deriving BEq

/-- A variable as it is described, with its terms. -/
structure VariableDescription (α : Type) where
  /-- The name. -/
  name : String
  /-- The lower end of the universe. -/
  lower : α
  /-- The upper end of the universe. -/
  upper : α
  /-- The terms. -/
  terms : List (TermDescription α)
deriving BEq

/-- **The description of a system.** -/
structure Description (α : Type) where
  /-- The style of inference. -/
  style : Style
  /-- The inputs. -/
  inputs : List (VariableDescription α)
  /-- The outputs. -/
  outputs : List (VariableDescription α)
  /-- The norm for `and`, if it is not the usual one. -/
  and : Option Norm
  /-- The norm for `or`, if it is not the usual one. -/
  or : Option Norm
  /-- The norm for implication, if it is not the usual one. -/
  implication : Option Norm
  /-- The norm for aggregation, if it is not the usual one. -/
  aggregation : Option Norm
  /-- The number of points, if it is not the usual one. -/
  evalPoints : Option Nat
  /-- The method of defuzzification, if it is not the usual one. -/
  defuzzifier : Option Defuzzifier
  /-- The rules, as text. -/
  rules : List String
  /-- The weights of the rules, where there are any. -/
  weights : Option (List α)
deriving BEq

namespace Description

variable {α : Type}

/-- The variables of a side. -/
def variablesOf (d : Description α) : Side → List (VariableDescription α)
  | .input => d.inputs
  | .output => d.outputs

/-- The settings a description makes, in the order they are made. -/
def settings (d : Description α) : List Setting :=
  [d.and.map .and, d.or.map .or, d.implication.map .implication,
    d.aggregation.map .aggregation, d.evalPoints.map .evalPoints].filterMap id

/-- A term with the number of its variable and its place in the table of
its side. -/
structure Placed (α : Type) where
  /-- The number of the variable. -/
  owner : Nat
  /-- The place in the table. -/
  slot : Nat
  /-- The term. -/
  term : TermDescription α

/-- **The table of the terms of some variables**: the terms of the first
variable, then those of the second, and so on. -/
def placed (vs : List (VariableDescription α)) : List (Placed α) :=
  let owned := vs.zipIdx.flatMap fun (v, owner) => v.terms.map fun t => (owner, t)
  owned.zipIdx.map fun ((owner, term), slot) => ⟨owner, slot, term⟩

/-- The number of the terms of some variables. -/
def termCount (vs : List (VariableDescription α)) : Nat :=
  (vs.flatMap fun v => v.terms).length

/-- The bindings of the terms of a side. -/
def bindings (d : Description α) (side : Side) : List (Binding α) :=
  (placed (d.variablesOf side)).map fun p =>
    ⟨side, p.owner, p.slot, .builtin p.term.shape, p.term.coefficients, p.term.height⟩

/-- The names of one side put into a table. -/
def addNames (d : Description α) (side : Side) (names : Names) : Names :=
  let names := (d.variablesOf side).zipIdx.foldl
    (fun names (v, tag) => names.addVariable side v.name tag) names
  (placed (d.variablesOf side)).foldl
    (fun names p => names.addTerm side p.owner p.term.name p.slot) names

/-- **What the names of a description stand for.** -/
def names (d : Description α) : Names :=
  d.addNames .output (d.addNames .input .empty)

/-- The rules as one text, each on lines of its own. -/
def ruleText (d : Description α) : String := "\n".intercalate d.rules

end Description

end FuzzyInference
