import FuzzyInference.Controller.Basic
import FuzzyInference.Stream.Cursor

/-!
# Fuzzifying and inferring

The first half of a cycle. **Fuzzifying** saturates the inputs and finds
the degree of every input term. **Inferring** reads a rule stream, twice
over: first the whole stream is checked against this controller, and only
when every event has been accepted are the findings of the last cycle
taken back and the rules fired one after the other, as the stream is read
again. The second reading changes the controller as it goes along and
could leave it half-way; that it never does is for
`FuzzyInference.Proofs.Controller.Firing` to show.
-/

namespace FuzzyInference

namespace Controller

variable {α : Type} [Scalar α]

/-! ## Fuzzifying -/

/-- The degree of an input term, at the values of the inputs. -/
def inputDegree? (inputs : List (Variable α)) (t : Term α) : Option α := do
  let v ← inputs[t.owner]?
  t.degree? v.value v.lower v.upper

/-- **Saturate the inputs and find the degrees of their terms.** -/
def fuzzify (c : Controller α) : Except (Fault α) (Controller α) :=
  match c.inputTerms.findIdx? Option.isNone with
  | some slot => .error (.unready (.unboundInput slot))
  | none => do
    let values ← Fault.found (c.inputs.mapM fun v => v.saturate? v.value)
    let inputs := c.inputs.zipWith (fun v x => { v with value := x }) values
    let degrees ← Fault.found ((c.inputTerms.filterMap id).mapM (inputDegree? inputs))
    return { c with
      inputs := inputs
      cycle := { c.cycle with inputs := values, degrees := degrees, fuzzified := true } }

/-! ## Accepting a rule stream -/

/-- What there is to object to in a reference to a term: it is not bound,
or it is a term of another variable. -/
def objection? (c : Controller α) (side : Side) (a : Atom) : Option StreamFault.Reason :=
  match c.term? side a.term.index with
  | none => some (.unboundTerm side a.term.index)
  | some t =>
    if t.owner ≠ a.subject then some (.foreignTerm side a.term.index t.owner a.subject)
    else none

/-- **Whether a controller accepts an event** that begins at a position. A
fault is reported where the reference to the term stands. -/
def acceptEvent (c : Controller α) (position : Nat) (e : Event) : Except StreamFault Unit :=
  match e with
  | .clause link a _ =>
    match c.objection? .input a with
    | some reason => .error ⟨position + (if link.isSome then 2 else 1), reason⟩
    | none => .ok ()
  | .conclusion a _ =>
    if a.term.negated ∧ c.style ≠ .mamdani then
      .error ⟨position + 1, .negatedConclusion c.style⟩
    else
      match c.objection? .output a with
      | some reason => .error ⟨position + 1, reason⟩
      | none => .ok ()
  | .done => .ok ()

/-- Whether a controller accepts an item of a cursor. -/
def acceptItem (c : Controller α) : Cursor.Item → Except StreamFault Unit
  | .error f => .error f
  | .ok (position, e) => c.acceptEvent position e

/-- **Whether a controller accepts a rule stream**, from its opening mark to
its closing one. The first fault in the order of the stream is the one
that is reported. -/
def accept (c : Controller α) (tokens : List Token) : Except StreamFault Unit :=
  (Stream.items c.bounds tokens).forM c.acceptItem

/-! ## Firing the rules -/

/-- **What has been found in the middle of a stream**: the findings so
far, the strength of the rule at hand, and how many rules are done. -/
structure Firing (α : Type) where
  /-- The findings. -/
  cycle : Cycle α
  /-- The strength of the rule at hand. -/
  strength : α
  /-- How many rules are done. -/
  closed : Nat

/-- The degree a statement of a premise has. -/
def atomDegree? (cycle : Cycle α) (r : TermRef) : Option α :=
  (cycle.degrees[r.index]?).map fun degree =>
    if r.negated then 1 - Scalar.clampUnit degree else Scalar.clampUnit degree

/-- The strength of a premise after one more statement. -/
def joinDegree (norms : Norms) (link : Option Connective) (strength degree : α) : α :=
  match link with
  | none => Norm.boundedSum.apply 0 degree
  | some c => (norms.joining c).apply strength degree

/-- The activation of a term after one more conclusion. -/
def Activation.raise (a : Activation α) (aggregation : Norm) (negated : Bool) (strength : α) :
    Activation α :=
  if negated then { a with negated := aggregation.apply a.negated strength }
  else { a with direct := aggregation.apply a.direct strength }

/-- The sum of an output after one more conclusion. -/
def WeightedSum.add (s : WeightedSum α) (conclusion strength : α) : WeightedSum α :=
  ⟨s.weighted + conclusion * strength, s.weight + strength⟩

/-- The findings with one more conclusion added to the sum of an
output. -/
def addConclusion (cycle : Cycle α) (subject : Nat) (conclusion strength : α) :
    Option (Cycle α) := do
  let sum ← cycle.sums[subject]?
  return { cycle with
    sums := cycle.sums.set subject (WeightedSum.add sum conclusion strength) }

/-- **The findings after one more conclusion** of a strength. In a Mamdani
system it raises the activation of its term; in the other styles it adds
its value to the sum of its output, unless the rule has no strength. -/
def conclude (c : Controller α) (cycle : Cycle α) (a : Atom) (strength : α) :
    Option (Cycle α) := do
  let term ← c.term? .output a.term.index
  let v ← c.outputs[a.subject]?
  match c.style with
  | .mamdani =>
    let activation ← cycle.activations[a.term.index]?
    let raised := Activation.raise activation c.norms.aggregation a.term.negated strength
    return { cycle with activations := cycle.activations.set a.term.index raised }
  | .sugeno =>
    if 0 < strength then
      let conclusion ← term.sugeno? cycle.inputs v.lower v.upper
      addConclusion cycle a.subject conclusion strength
    else return cycle
  | .tsukamoto =>
    if 0 < strength then
      let point ← term.tsukamoto? strength cycle.inputs v.lower v.upper
      let conclusion ← v.saturateFinite? point
      addConclusion cycle a.subject conclusion strength
    else return cycle

/-- **One event fired.** A premise that closes is weighted, and its
strength is noted and kept for the conclusions of its rule. -/
def fire (c : Controller α) (f : Firing α) : Event → Option (Firing α)
  | .clause link a closes => do
    let degree ← atomDegree? f.cycle a.term
    let strength := joinDegree c.norms link f.strength degree
    if closes then
      let weighted := strength * c.weight f.cycle.strengths.length
      return { f with
        strength := weighted
        cycle := { f.cycle with strengths := f.cycle.strengths ++ [weighted] } }
    else return { f with strength := strength }
  | .conclusion a closes => do
    let cycle ← c.conclude f.cycle a f.strength
    if closes then return ⟨cycle, 0, f.closed + 1⟩
    else return { f with cycle := cycle }
  | .done => some f

/-- **The items of a cursor fired**, one after the other, up to the closing
mark or to the first fault: how it went, and what has been found by
then. -/
def fireItems (c : Controller α) (f : Firing α) :
    List Cursor.Item → Except (Fault α) Unit × Firing α
  | [] => (.ok (), f)
  | .error fault :: _ => (.error (.malformed fault), f)
  | .ok (_, .done) :: _ => (.ok (), f)
  | .ok (_, e) :: rest =>
    match c.fire f e with
    | none => (.error .outOfBounds, f)
    | some next => c.fireItems next rest

/-- **A rule stream fired**: it is read once more, and what it says is added
to the findings of the controller as it stands. A fault would leave the
findings half-way. -/
def fireStream (c : Controller α) (tokens : List Token) :
    Except (Fault α) Nat × Controller α :=
  match c.fireItems ⟨c.cycle, 0, 0⟩ (Stream.items c.bounds tokens) with
  | (.error f, firing) => (.error f, { c with cycle := firing.cycle })
  | (.ok (), firing) =>
    (.ok firing.closed, { c with cycle := { firing.cycle with inferred := true } })

/-- The controller with every finding of inference taken back. -/
def cleared (c : Controller α) : Controller α := { c with cycle := c.cycle.cleared }

/-- **Infer**: read a rule stream and find what follows. The answer is the
number of rules. -/
def infer (c : Controller α) (tokens : List Token) : Except (Fault α) Nat × Controller α :=
  if !c.cycle.fuzzified then (.error (.unready .notFuzzified), c)
  else if c.outputTerms.any Option.isNone then (.error (.unready .unboundOutput), c)
  else
    match c.accept tokens with
    | .error f => (.error (.malformed f), c)
    | .ok () => c.cleared.fireStream tokens

end Controller

end FuzzyInference
