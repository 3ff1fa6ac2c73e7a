import FuzzyInference.Defuzzify.Method
import FuzzyInference.Language.Fault
import FuzzyInference.Norm.Setting
import FuzzyInference.Shape.Term
import FuzzyInference.Stream.Fault

/-!
# What can go wrong

An operation that fails says why: a value or a choice that does not suit
the system, an operation called for too early, a rule stream or a text of
rules that is no such thing. A `Fault` is the cause; `Fault.message` is
its text, given the text of a scalar.
-/

namespace FuzzyInference

/-- **Why a value or a choice is rejected.** -/
inductive Rejection (α : Type) where
  /-- A system without inputs or without outputs. -/
  | noVariables
  /-- A system without places for terms on a side. -/
  | noTerms
  /-- A universe that is empty or without end. -/
  | improperRange (lower upper : α)
  /-- Fewer points than a system accepts. -/
  | tooFewPoints (count : Nat)
  /-- A norm that is not fit for its purpose. -/
  | unfitNorm (setting : Setting)
  /-- A method of defuzzification that does not suit the style. -/
  | unfitMethod (method : Defuzzifier) (style : Style)
  /-- A term is bound to a variable that is not there. -/
  | ownerOutOfRange (side : Side) (owner limit : Nat)
  /-- A term is bound in a place that is not there. -/
  | slotOutOfRange (side : Side) (slot limit : Nat)
  /-- A profile that a side of a system of this style cannot use. -/
  | unfitProfile (profile : Profile α) (side : Side) (style : Style)
  /-- Fewer coefficients than the shape needs. -/
  | tooFewCoefficients (shape : Shape) (needed given : Nat)
  /-- A coefficient or a height that is infinite or not a number. -/
  | notFinite
  /-- A shape whose width is zero. -/
  | zeroWidth (profile : Profile α)
  /-- The weight of a rule is infinite or not a number. -/
  | weightNotFinite (rule : Nat)
  /-- A value for an input that is not there. -/
  | inputOutOfRange (tag limit : Nat)
  /-- A value for an input is not a number. -/
  | inputNotNumber (tag : Nat)
  /-- The variable asked for is not there. -/
  | noSuchVariable (side : Side) (tag : Nat)
  /-- More or fewer values than there are inputs. -/
  | wrongInputCount (expected given : Nat)
  /-- One of the values for the inputs is not a number. -/
  | inputsNotNumbers
  /-- The style has no curve to show. -/
  | noCurve (style : Style)
  /-- A value for an input of no known name. -/
  | unknownInput (name : String)
  /-- A value for a named input is not a number. -/
  | namedInputNotNumber (name : String)

namespace Rejection

/-- The text of a rejection. -/
def message {α : Type} (scalar : α → String) : Rejection α → String
  | .noVariables => "a FIS needs at least one input and one output"
  | .noTerms => "membership function tables cannot be empty"
  | .improperRange lower upper =>
    "variable range [" ++ scalar lower ++ ", " ++ scalar upper ++
      "] must be finite with min < max"
  | .tooFewPoints count => s!"eval points must be >= {Setting.leastEvalPoints}, got {count}"
  | .unfitNorm setting => s!"{setting.message} is not an accepted operator choice"
  | .unfitMethod method style =>
    s!"{method.title} is not available for {style.title} systems"
  | .ownerOutOfRange side owner limit =>
    s!"{side.title} tag {owner} out of range (0..{limit})"
  | .slotOutOfRange side slot limit =>
    s!"{side.title} membership slot {slot} out of range (0..{limit})"
  | .unfitProfile profile side style =>
    s!"shape {profile.message} cannot be used on the {side.title} side of a {style.title} system"
  | .tooFewCoefficients shape needed given =>
    s!"{shape.title} needs {needed} coefficients, got {given}"
  | .notFinite => "height and coefficients must be finite"
  | .zeroWidth profile => s!"{profile.message} width must be non-zero"
  | .weightNotFinite rule => s!"rule weight {rule} is not finite"
  | .inputOutOfRange tag limit => s!"input tag {tag} out of range (0..{limit})"
  | .inputNotNumber tag => s!"input {tag} is NaN"
  | .noSuchVariable side tag => s!"{side.name} tag {tag} out of range"
  | .wrongInputCount expected given => s!"expected {expected} inputs, got {given}"
  | .inputsNotNumbers => "inputs must not be NaN"
  | .noCurve style => s!"{style.title} systems have no aggregated output region"
  | .unknownInput name => "unknown input '" ++ name ++ "'"
  | .namedInputNotNumber name => "input '" ++ name ++ "' is NaN"

end Rejection

/-- **What is still to be done** before an operation can be. -/
inductive Unready where
  /-- An input term has to be bound. -/
  | unboundInput (slot : Nat)
  /-- The inputs have to be fuzzified. -/
  | notFuzzified
  /-- Some output term has to be bound. -/
  | unboundOutput
  /-- An inference has to be made. -/
  | notInferred
deriving DecidableEq, Repr

namespace Unready

/-- The text of what is still to be done. -/
def message : Unready → String
  | .unboundInput slot => s!"input membership function {slot} is not bound"
  | .notFuzzified => "fuzzify must run before inference"
  | .unboundOutput => "every output membership function must be bound"
  | .notInferred => "defuzzify requires a successful inference"

end Unready

/-- **Why an operation fails.** -/
inductive Fault (α : Type) where
  /-- A value or a choice is rejected. -/
  | rejected (r : Rejection α)
  /-- Something else has to be done before. -/
  | unready (u : Unready)
  /-- A rule stream is refused. -/
  | malformed (f : StreamFault)
  /-- No rule has said anything about an output. -/
  | noActivation (output : Nat)
  /-- A text of rules is refused. -/
  | language (f : LanguageFault)
  /-- A rule base cannot be written as a stream. -/
  | encoding (f : EncodingFault)
  /-- A name has been given twice. -/
  | duplicateName (kind : NameKind) (name : String)
  /-- A list has been read where it ends, or a value saturated in an
  interval that is none. The invariants of a controller exclude it. -/
  | outOfBounds

namespace Fault

/-- **The text of a fault**, given the text of a scalar. -/
def message {α : Type} (scalar : α → String) : Fault α → String
  | .rejected r => "Invalid parameter: " ++ r.message scalar
  | .unready u => "Not configured: " ++ u.message
  | .malformed f => f.message
  | .noActivation output => s!"No activation on output {output}"
  | .language f => "Rule error: " ++ f.message
  | .encoding f => "Rule error: " ++ f.message
  | .duplicateName kind name =>
    s!"Configuration error: duplicate {kind.message} name '" ++ name ++ "'"
  | .outOfBounds => "index out of bounds"

/-- What a lookup finds, which has to be there. -/
def found {α β : Type} : Option β → Except (Fault α) β
  | some b => .ok b
  | none => .error .outOfBounds

/-- Fail with a rejection. -/
def reject {α β : Type} (r : Rejection α) : Except (Fault α) β := .error (.rejected r)

end Fault

end FuzzyInference
