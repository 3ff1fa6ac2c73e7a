import FuzzyInference.Controller.Defuzzify
import FuzzyInference.Stream.Table

/-!
# Inferring from a stream as it is stored

A caller has a table of raw tokens, of whatever width. It is read where it
lies, twice over, and never turned into a list of tokens. What the readings
find is treated as `FuzzyInference.Controller.Infer` says, and it is for
`FuzzyInference.Proofs.Controller.Width` to show that nothing else comes of
it than from the tokens.
-/

namespace FuzzyInference

namespace Controller

variable {α : Type} [Scalar α] {w : Width}

/-- Whether a controller accepts a stream as it is stored. -/
def acceptRaw (c : Controller α) (s : RuleStream w) : Except StreamFault Unit :=
  (s.items c.bounds).forM c.acceptItem

/-- A stream fired as it is stored. -/
def fireRaw (c : Controller α) (s : RuleStream w) : Except (Fault α) Nat × Controller α :=
  match c.fireItems ⟨c.cycle, 0, 0⟩ (s.items c.bounds) with
  | (.error f, firing) => (.error f, { c with cycle := firing.cycle })
  | (.ok (), firing) =>
    (.ok firing.closed, { c with cycle := { firing.cycle with inferred := true } })

/-- **Infer** from a stream as it is stored. -/
def inferRaw (c : Controller α) (s : RuleStream w) : Except (Fault α) Nat × Controller α :=
  if !c.cycle.fuzzified then (.error (.unready .notFuzzified), c)
  else if c.outputTerms.any Option.isNone then (.error (.unready .unboundOutput), c)
  else
    match c.acceptRaw s with
    | .error f => (.error (.malformed f), c)
    | .ok () => c.cleared.fireRaw s

/-- Fuzzify, infer from a stream as it is stored, and defuzzify. -/
def runCycleRaw (c : Controller α) (s : RuleStream w) : Except (Fault α) Nat × Controller α :=
  match c.fuzzify with
  | .error f => (.error f, c)
  | .ok fuzzified =>
    match fuzzified.inferRaw s with
    | (.error f, after) => (.error f, after)
    | (.ok rules, inferred) =>
      match inferred.defuzzify with
      | .error f => (.error f, inferred)
      | .ok defuzzified => (.ok rules, defuzzified)

/-- **Evaluate** a stream as it is stored for values of all the inputs. -/
def evaluateRaw (c : Controller α) (s : RuleStream w) (values : List α) :
    Except (Fault α) Nat × Controller α :=
  if values.length ≠ c.inputs.length then
    (Fault.reject (.wrongInputCount c.inputs.length values.length), c)
  else if ∃ x ∈ values, Scalar.IsNaN x then (Fault.reject .inputsNotNumbers, c)
  else (c.withInputs values).runCycleRaw s

end Controller

end FuzzyInference
