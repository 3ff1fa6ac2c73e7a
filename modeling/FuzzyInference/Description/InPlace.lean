import FuzzyInference.Controller.InPlace
import FuzzyInference.Description.Build

/-!
# Evaluating by name, in place

The controller of a system is operated on where it is, also when the system
is evaluated by name: inputs are set one after the other, and a call that
fails leaves them as they have been set by then.
-/

namespace FuzzyInference

namespace NamedController

variable {α : Type} [Scalar α]

/-- **The evaluation by name**, as a program on the controller of a system. All
the names and values are looked at before any input is set. -/
def evaluation (n : NamedController α) (inputs : List (String × α)) :
    InPlace α (List (String × α)) := do
  let tagged ← (inputs.mapM n.taggedInput : Except (Fault α) (List (Nat × α)))
  tagged.forM fun (tag, value) => InPlace.setInput tag value
  InPlace.fuzzify
  let _ ← InPlace.inferTable n.rules
  InPlace.defuzzify
  { n with controller := ← get }.namedOutputs

/-- **Evaluate by name in place.** -/
def evaluateInPlace (n : NamedController α) (inputs : List (String × α)) :
    Except (Fault α) (List (String × α)) × NamedController α :=
  let (answer, c) := (n.evaluation inputs).on n.controller
  (answer, { n with controller := c })

end NamedController

end FuzzyInference
