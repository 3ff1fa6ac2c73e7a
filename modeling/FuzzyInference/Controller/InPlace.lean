import FuzzyInference.Controller.Command
import FuzzyInference.Controller.Table

/-!
# Operating in place

A caller has one controller and operates on it where it is. An operation is
then a program that looks at the controller and writes to it, one thing
after the other, and nothing is taken back: a program that fails leaves
behind what it has written by then. `InPlace` is the type of such programs,
and this module spells the operations out as such, with every check before
or after the writes as it comes, and with a loop wherever something is
written to each place of a table.

An operation all at once is in `FuzzyInference.Controller.Command`, where a
controller is left as it was by whatever fails. That both come to the same
is for `FuzzyInference.Proofs.Controller.InPlace` to show.
-/

namespace FuzzyInference

/-- **A program that operates on a controller in place.** It may fail, and
goes on from what has been written before. -/
abbrev InPlace (α β : Type) := ExceptT (Fault α) (StateM (Controller α)) β

namespace InPlace

section Programs

variable {α β : Type}

/-- **How a program goes** on a controller, and what it leaves of it. -/
def on (p : InPlace α β) (c : Controller α) : Except (Fault α) β × Controller α :=
  (p.run.run c).run

/-- The program that hands the controller over to a step, and goes on from the
one that it gets back. -/
def passing (step : Controller α → Except (Fault α) β × Controller α) : InPlace α β :=
  ExceptT.mk fun c => step c

/-- Look something up, which has to be there. -/
def lookUp (o : Option β) : InPlace α β := passing fun c => (Fault.found o, c)

end Programs

variable {α : Type} [Scalar α]

/-! ## Configuring -/

omit [Scalar α] in
/-- Choose a norm, or a number of points. -/
def choose : Setting → InPlace α Unit
  | .evalPoints n => do
    if n < Setting.leastEvalPoints then throw (.rejected (.tooFewPoints n))
    modify fun c => { c with evalPoints := n }
  | setting => do
    match (← get).norms.choose setting with
    | .ok norms => modify fun c => { c with norms := norms }
    | .error r => throw (.rejected r)

omit [Scalar α] in
/-- Choose a method of defuzzification. -/
def chooseMethod (d : Defuzzifier) : InPlace α Unit := do
  let c ← get
  if !d.suits c.style then throw (.rejected (.unfitMethod d c.style))
  modify fun c => { c with defuzzifier := d }

/-- **Bind a term.** -/
def bindTerm (b : Binding α) : InPlace α Unit := do
  (← get).checkBinding b
  modify fun c => c.store b

/-- Give weights to the first rules. -/
def setWeights (ws : List α) : InPlace α Unit := do
  if let some rule := ws.findIdx? fun w => ¬ Scalar.IsFinite w then
    throw (.rejected (.weightNotFinite rule))
  modify fun c => { c with weights := some ws }

/-- Set the value of an input. -/
def setInput (tag : Nat) (x : α) : InPlace α Unit := do
  let c ← get
  match c.inputs[tag]? with
  | none => throw (.rejected (.inputOutOfRange tag c.inputs.length))
  | some v =>
    if Scalar.IsNaN x then throw (.rejected (.inputNotNumber tag))
    modify fun c => { c with inputs := c.inputs.set tag { v with value := x } }

/-! ## A cycle -/

/-- Saturate the value of an input, and note what has been fuzzified. -/
def saturateInput (tag : Nat) : InPlace α Unit := do
  let c ← get
  let v ← lookUp c.inputs[tag]?
  let x ← lookUp (v.saturate? v.value)
  set { c with
    inputs := c.inputs.set tag { v with value := x }
    cycle := { c.cycle with inputs := c.cycle.inputs.set tag x } }

/-- Find the degree of an input term. -/
def findDegree (slot : Nat) : InPlace α Unit := do
  let c ← get
  let t ← lookUp (c.term? .input slot)
  let degree ← lookUp (Controller.inputDegree? c.inputs t)
  set { c with cycle := { c.cycle with degrees := c.cycle.degrees.set slot degree } }

/-- **Fuzzify**: saturate the inputs one after the other, then find the degrees
of the input terms one after the other. -/
def fuzzify : InPlace α Unit := do
  let c ← get
  match c.inputTerms.findIdx? Option.isNone with
  | some slot => throw (.unready (.unboundInput slot))
  | none =>
    (List.range c.inputs.length).forM saturateInput
    (List.range c.inputTerms.length).forM findDegree
    modify fun c => { c with cycle := { c.cycle with fuzzified := true } }

/-- **Infer** from the tokens of a stream. -/
def infer (tokens : List Token) : InPlace α Nat := passing fun c => c.infer tokens

/-- **Infer** from a stream as it is stored. -/
def inferTable {w : Width} (s : RuleStream w) : InPlace α Nat := passing fun c => c.inferRaw s

/-- **The crisp value of an output**, wherever it lies, and what is left in the
buffer that its samples are gathered in. The buffer is emptied first, and the
crisp value comes from all that it holds then. Where there are no samples it is
not touched. -/
def crispThrough? (c : Controller α) (output : Nat) (v : Variable α) (buffer : List α) :
    Option (α × List α) :=
  match c.style with
  | .mamdani => do
    let step := c.resolution v
    let ys ← (List.range (c.evalPoints + 1)).mapM fun (k : Nat) =>
      c.curve? output (v.lower + step * (k : α))
    let gathered := buffer.take 0 ++ ys
    let crisp ← c.defuzzifier.ofSamples? ⟨gathered, v.lower, step⟩
    return (crisp, gathered)
  | .sugeno | .tsukamoto => do
    let sum ← c.cycle.sums[output]?
    return (c.defuzzifier.ofWeighted sum.weighted sum.weight, buffer)

/-- Give an output its crisp value, which is computed from the controller as it
stands, and hand the buffer on. -/
def defuzzifyOutput (buffer : List α) (output : Nat) : InPlace α (List α) := do
  let c ← get
  let v ← lookUp c.outputs[output]?
  let (crisp, gathered) ← lookUp (crispThrough? c output v buffer)
  let value ← lookUp (v.saturateFinite? crisp)
  set { c with outputs := c.outputs.set output { v with value := value } }
  return gathered

/-- **Defuzzify**: give the outputs their crisp values one after the other. All
their samples go through one buffer, whatever it has been left with. -/
def defuzzifyThrough (buffer : List α) : InPlace α (List α) := do
  let c ← get
  if !c.cycle.inferred then throw (.unready .notInferred)
  (List.range c.outputs.length).foldlM defuzzifyOutput buffer

/-- Defuzzify with a new buffer. -/
def defuzzify : InPlace α Unit := do
  let _ ← defuzzifyThrough []
  return ()

/-- **A whole cycle** around an inference. -/
def cycle (inference : InPlace α Nat) : InPlace α Nat := do
  fuzzify
  let rules ← inference
  defuzzify
  return rules

/-- **Evaluate**: set all the inputs, once their values have been looked at,
and run a cycle around an inference. -/
def evaluate (inference : InPlace α Nat) (values : List α) : InPlace α Nat := do
  let c ← get
  if values.length ≠ c.inputs.length then
    throw (.rejected (.wrongInputCount c.inputs.length values.length))
  if ∃ x ∈ values, Scalar.IsNaN x then throw (.rejected .inputsNotNumbers)
  modify fun c => c.withInputs values
  cycle inference

end InPlace

variable {α : Type} [Scalar α]

/-- **A command carried out in place.** -/
def Command.inPlace : Command α → InPlace α (Option Nat)
  | .choose setting => do InPlace.choose setting; return none
  | .chooseMethod method => do InPlace.chooseMethod method; return none
  | .bindTerm binding => do InPlace.bindTerm binding; return none
  | .setWeights weights => do InPlace.setWeights weights; return none
  | .clearWeights => do modify Controller.clearWeights; return none
  | .setInput tag value => do InPlace.setInput tag value; return none
  | .fuzzify => do InPlace.fuzzify; return none
  | .infer tokens => do return some (← InPlace.infer tokens)
  | .defuzzify => do InPlace.defuzzify; return none
  | .evaluate tokens values => do return some (← InPlace.evaluate (InPlace.infer tokens) values)

/-- **Operate on a controller in place**: how a command goes, and what it
leaves of the controller. -/
def Controller.operate (c : Controller α) (command : Command α) : Outcome α × Controller α :=
  command.inPlace.on c

/-- **Operate on a controller time and again**: how the commands go, one after
the other, and what they leave of it. -/
def Controller.run (c : Controller α) : List (Command α) → List (Outcome α) × Controller α
  | [] => ([], c)
  | command :: history =>
    let (outcome, next) := c.operate command
    let (outcomes, last) := next.run history
    (outcome :: outcomes, last)

end FuzzyInference
