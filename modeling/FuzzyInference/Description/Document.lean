import FuzzyInference.Description.Basic
import FuzzyInference.Json.Codec
import FuzzyInference.Json.Parse
import FuzzyInference.Json.Print
import FuzzyInference.Stream.Encode

/-!
# Descriptions as documents

How each part of a description is written as a JSON document: the names of
the choices, the names and the order of the fields of the records, and
which fields may be left out. The scalars may be any that have documents
of their own.
-/

namespace FuzzyInference

namespace Json

/-! ## Choices -/

instance : Codec Side where
  write s := chosen s.name
  read? := choose? (Side.all.map fun s => (s.name, s))

instance : Codec Style where
  write s := chosen s.name
  read? := choose? (Style.all.map fun s => (s.name, s))

instance : Codec Norm where
  write n := chosen n.name
  read? := choose? (Norm.all.map fun n => (n.name, n))

instance : Codec Defuzzifier where
  write d := chosen d.name
  read? := choose? (Defuzzifier.all.map fun d => (d.name, d))

instance : Codec Connective where
  write c := chosen c.title
  read? := choose? (Connective.all.map fun c => (c.title, c))

/-- A shape is written by its name, and read by its classic name as
well. -/
instance : Codec Shape where
  write s := chosen s.name
  read? j := choice? j >>= Shape.ofName?

/-- The setting of a key and its value. -/
def setting? (key : String) (value : Json) : Option Setting :=
  match key with
  | "and" => (Codec.read? value).map Setting.and
  | "or" => (Codec.read? value).map Setting.or
  | "implication" => (Codec.read? value).map Setting.implication
  | "aggregation" => (Codec.read? value).map Setting.aggregation
  | "eval_points" => (Codec.read? value).map Setting.evalPoints
  | _ => none

/-- A setting is an object with one member, whose key says what is set. -/
instance : Codec Setting where
  write
    | .and n => record [("and", Codec.write n)]
    | .or n => record [("or", Codec.write n)]
    | .implication n => record [("implication", Codec.write n)]
    | .aggregation n => record [("aggregation", Codec.write n)]
    | .evalPoints k => record [("eval_points", Codec.write k)]
  read?
    | .object [(key, value)] => do
      let key ← key.toString?
      setting? key value
    | _ => none

/-! ## Rule streams -/

instance {w : Width} : Codec (Raw w) where
  write r := .number (.ofInt r.value)
  read? j := integer? j >>= Raw.ofInt? w

/-- A rule stream is the array of its raw tokens. -/
instance {w : Width} : Codec (RuleStream w) where
  write s := Codec.write s.table
  read? j := (Codec.read? j).map RuleStream.mk

/-! ## Records -/

/-- The norms of a system, all four of them given. -/
instance : Codec Norms where
  write n := record [("and", Codec.write n.and), ("or", Codec.write n.or),
    ("implication", Codec.write n.implication), ("aggregation", Codec.write n.aggregation)]
  read? j := do
    match ← fields? ["and", "or", "implication", "aggregation"] j with
    | [and, or, implication, aggregation] =>
      return ⟨← required and, ← required or, ← required implication, ← required aggregation⟩
    | _ => none

variable {α : Type} [Scalar α] [Codec α]

instance : Codec (CurvePoint α) where
  write p := record [("x", Codec.write p.x), ("y", Codec.write p.y)]
  read? j := do
    match ← fields? ["x", "y"] j with
    | [x, y] => return ⟨← required x, ← required y⟩
    | _ => none

/-- A variable without a value has the value zero. -/
instance : Codec (Variable α) where
  write v := record [("min", Codec.write v.lower), ("max", Codec.write v.upper),
    ("value", Codec.write v.value)]
  read? j := do
    match ← fields? ["min", "max", "value"] j with
    | [lower, upper, value] =>
      return ⟨← required lower, ← required upper, ← defaulting 0 value⟩
    | _ => none

/-- A term without a height has full height. -/
instance : Codec (TermDescription α) where
  write t := record [("name", Codec.write t.name), ("shape", Codec.write t.shape),
    ("coefficients", Codec.write t.coefficients), ("height", Codec.write t.height)]
  read? j := do
    match ← fields? ["name", "shape", "coefficients", "height"] j with
    | [name, shape, coefficients, height] =>
      return ⟨← required name, ← required shape, ← required coefficients,
        ← defaulting 1 height⟩
    | _ => none

instance : Codec (VariableDescription α) where
  write v := record [("name", Codec.write v.name), ("min", Codec.write v.lower),
    ("max", Codec.write v.upper), ("terms", Codec.write v.terms)]
  read? j := do
    match ← fields? ["name", "min", "max", "terms"] j with
    | [name, lower, upper, terms] =>
      return ⟨← required name, ← required lower, ← required upper, ← defaulting [] terms⟩
    | _ => none

/-- The names of the fields of a description. -/
def descriptionFields : List String :=
  ["type", "inputs", "outputs", "and", "or", "implication", "aggregation", "eval_points",
    "defuzz", "rules", "rule_weights"]

/-- **A description.** A choice that is the usual one is left out. -/
instance : Codec (Description α) where
  write d := record (
    [("type", Codec.write d.style), ("inputs", Codec.write d.inputs),
      ("outputs", Codec.write d.outputs)] ++
    present "and" d.and ++ present "or" d.or ++ present "implication" d.implication ++
    present "aggregation" d.aggregation ++ present "eval_points" d.evalPoints ++
    present "defuzz" d.defuzzifier ++ [("rules", Codec.write d.rules)] ++
    present "rule_weights" d.weights)
  read? j := do
    match ← fields? descriptionFields j with
    | [style, inputs, outputs, and, or, implication, aggregation, evalPoints, defuzzifier,
        rules, weights] =>
      return {
        style := ← required style
        inputs := ← required inputs
        outputs := ← required outputs
        and := ← optional and
        or := ← optional or
        implication := ← optional implication
        aggregation := ← optional aggregation
        evalPoints := ← optional evalPoints
        defuzzifier := ← optional defuzzifier
        rules := ← defaulting [] rules
        weights := ← optional weights }
    | _ => none

end Json

/-- **The value a text describes**, if it describes one. -/
def ofText? {β : Type} [Json.Codec β] (source : String) : Option β :=
  Json.parse? source >>= Json.Codec.read?

/-- The text of a value, in one line. -/
def compactText {β : Type} [Json.Codec β] (b : β) : String := (Json.Codec.write b).compact

/-- The text of a value, over several lines. -/
def prettyText {β : Type} [Json.Codec β] (b : β) : String := (Json.Codec.write b).pretty

end FuzzyInference
