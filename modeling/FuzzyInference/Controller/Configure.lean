import FuzzyInference.Controller.Basic

/-!
# Configuring a controller

Norms, the number of points, the method of defuzzification, terms, the
weights of the rules and the values of the inputs can be set at any time,
and each setting is either accepted, changing that one thing, or rejected
with a reason. When several reasons apply the first in the order of the
checks is given.
-/

namespace FuzzyInference

/-- **The binding of a term** to a place in the table of a side. -/
structure Binding (α : Type) where
  /-- The side. -/
  side : Side
  /-- The number of the variable the term is one of. -/
  owner : Nat
  /-- The place in the table. -/
  slot : Nat
  /-- The profile of the term. -/
  profile : Profile α
  /-- What the profile is evaluated on. -/
  coefficients : List α
  /-- The height of the term, before saturation. -/
  height : α

/-- **The norms after a choice**, which has to be one of a norm that is
fit for its purpose. -/
def Norms.choose {α : Type} (n : Norms) (setting : Setting) : Except (Rejection α) Norms :=
  match n.choose? setting with
  | some norms => .ok norms
  | none => .error (.unfitNorm setting)

namespace Controller

variable {α : Type} [Scalar α]

/-- Choose a norm, or a number of points. -/
def choose (c : Controller α) : Setting → Except (Fault α) (Controller α)
  | .evalPoints n =>
    if n < Setting.leastEvalPoints then Fault.reject (.tooFewPoints n)
    else .ok { c with evalPoints := n }
  | setting =>
    match c.norms.choose setting with
    | .ok norms => .ok { c with norms := norms }
    | .error r => Fault.reject r

/-- Choose a method of defuzzification. -/
def chooseMethod (c : Controller α) (d : Defuzzifier) : Except (Fault α) (Controller α) :=
  if d.suits c.style then .ok { c with defuzzifier := d }
  else Fault.reject (.unfitMethod d c.style)

/-- **Whether a side of a system can use a profile**: conventional shapes
where degrees are asked for, and what the style concludes with where
conclusions are. Functions of the user's own can be used anywhere. -/
def allows (style : Style) (side : Side) : Profile α → Bool
  | .custom _ => true
  | .builtin shape =>
    match side, style with
    | .input, _ | .output, .mamdani => shape.part = .conventional
    | .output, .sugeno => shape = .constant || shape = .combination
    | .output, .tsukamoto => shape.part = .tsukamoto

/-- Whether the coefficients of a profile are enough of them. -/
def checkCount (c : Controller α) (b : Binding α) : Except (Fault α) Unit :=
  match b.profile with
  | .custom _ => .ok ()
  | .builtin shape =>
    let needed := shape.coefficientCount c.inputs.length
    if b.coefficients.length < needed then
      Fault.reject (.tooFewCoefficients shape needed b.coefficients.length)
    else .ok ()

/-- Whether a profile has a width to divide by. -/
def checkWidth (b : Binding α) : Except (Fault α) Unit :=
  match b.profile with
  | .custom _ => .ok ()
  | .builtin shape => do
    if ← Fault.found (shape.zeroWidth? b.coefficients) then Fault.reject (.zeroWidth b.profile)

/-- Whether a term can be bound as asked. -/
def checkBinding (c : Controller α) (b : Binding α) : Except (Fault α) Unit := do
  if (c.variablesOf b.side).length ≤ b.owner then
    Fault.reject (.ownerOutOfRange b.side b.owner (c.variablesOf b.side).length)
  if (c.termsOf b.side).length ≤ b.slot then
    Fault.reject (.slotOutOfRange b.side b.slot (c.termsOf b.side).length)
  if !allows c.style b.side b.profile then
    Fault.reject (.unfitProfile b.profile b.side c.style)
  c.checkCount b
  if ¬ Scalar.IsFinite b.height ∨ ∃ p ∈ b.coefficients, ¬ Scalar.IsFinite p then
    Fault.reject .notFinite
  checkWidth b

/-- The term a binding binds. -/
def Binding.term (b : Binding α) : Term α :=
  ⟨b.profile, b.coefficients, Scalar.clampUnit b.height, b.owner⟩

/-- The controller with a term put in its place. -/
def store (c : Controller α) (b : Binding α) : Controller α :=
  match b.side with
  | .input => { c with inputTerms := c.inputTerms.set b.slot (some (Binding.term b)) }
  | .output => { c with outputTerms := c.outputTerms.set b.slot (some (Binding.term b)) }

/-- **Bind a term.** -/
def bindTerm (c : Controller α) (b : Binding α) : Except (Fault α) (Controller α) := do
  c.checkBinding b
  return c.store b

/-- Give weights to the first rules. -/
def setWeights (c : Controller α) (ws : List α) : Except (Fault α) (Controller α) :=
  match ws.findIdx? fun w => ¬ Scalar.IsFinite w with
  | some rule => Fault.reject (.weightNotFinite rule)
  | none => .ok { c with weights := some ws }

/-- Let all rules count in full again. -/
def clearWeights (c : Controller α) : Controller α := { c with weights := none }

/-- Set the value of an input. -/
def setInput (c : Controller α) (tag : Nat) (value : α) : Except (Fault α) (Controller α) :=
  match c.inputs[tag]? with
  | none => Fault.reject (.inputOutOfRange tag c.inputs.length)
  | some v =>
    if Scalar.IsNaN value then Fault.reject (.inputNotNumber tag)
    else .ok { c with inputs := c.inputs.set tag { v with value := value } }

/-- Set the values of inputs, one after the other. -/
def setInputs (c : Controller α) (tagged : List (Nat × α)) : Except (Fault α) (Controller α) :=
  tagged.foldlM (fun c (tag, value) => c.setInput tag value) c

end Controller

end FuzzyInference
