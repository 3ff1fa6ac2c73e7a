import FuzzyInference.Controller.Command
import FuzzyInference.Proofs.Sequence

/-!
# What operations leave alone

The style of a controller, the universes of its variables and the sizes of
its tables are settled once and for all when it is set up: they make up
its **frame**, and no operation changes it. Every check of a binding is a
question to the frame (`Controller.checkBinding_congr`), so a term that
could be bound once could be bound at any time.

For each operation there is a lemma that says what it leaves behind when
it succeeds (`Controller.choose_eq_ok`, `Controller.fuzzify_eq_ok` and so
on). Everything that is preserved by operations is derived from these.
-/

namespace FuzzyInference

/-- A lookup goes through when it finds something. -/
theorem Fault.found_eq_ok_iff {α β : Type} {o : Option β} {b : β} :
    Fault.found (α := α) o = .ok b ↔ o = some b := by
  cases o with
  | none => constructor <;> intro h <;> cases h
  | some a =>
    constructor
    · intro h
      exact congrArg some (Except.ok.inj h)
    · intro h
      exact congrArg Except.ok (Option.some.inj h)

/-- A check goes through when there is nothing to reject, and what follows
it does. -/
theorem Fault.guard_eq_ok_iff {α β : Type} {p : Prop} [Decidable p] {r : Rejection α}
    {k : Unit → Except (Fault α) β} {b : β} :
    (if p then Fault.reject r >>= k else k ()) = .ok b ↔ ¬ p ∧ k () = .ok b := by
  by_cases hp : p
  · rw [if_pos hp]
    constructor
    · intro h
      cases h
    · rintro ⟨hn, -⟩
      exact absurd hp hn
  · rw [if_neg hp]
    constructor
    · intro h
      exact ⟨hp, h⟩
    · exact And.right

/-- The ends of a universe. -/
def Variable.range {α : Type} (v : Variable α) : α × α := (v.lower, v.upper)

namespace Variable

variable {α : Type}

/-- Values do not belong to the frame. -/
theorem map_range_zipWith {vs : List (Variable α)} {values : List α}
    (h : vs.length ≤ values.length) :
    (vs.zipWith (fun v x => { v with value := x }) values).map range
      = vs.map range := by
  induction vs generalizing values with
  | nil => rfl
  | cons v vs ih =>
    cases values with
    | nil => exact absurd h (Nat.not_succ_le_zero _)
    | cons x values =>
      rw [List.zipWith_cons_cons, List.map_cons, ih (Nat.le_of_succ_le_succ h)]
      rfl

theorem map_range_set {vs : List (Variable α)} {tag : Nat} {v : Variable α} (x : α)
    (h : vs[tag]? = some v) :
    (vs.set tag { v with value := x }).map range = vs.map range := by
  rw [List.map_set]
  refine List.ext_getElem? fun i => ?_
  rw [List.getElem?_set]
  split
  · next hi =>
    subst hi
    rw [List.getElem?_map, h]
    split
    · rfl
    · next hlt =>
      rw [List.getElem?_eq_none (by simpa using hlt)] at h
      cases h
  · rfl

end Variable

/-- **What is settled when a controller is set up.** -/
structure Frame (α : Type) where
  /-- The style of inference. -/
  style : Style
  /-- The universes of the inputs. -/
  inputs : List (α × α)
  /-- The universes of the outputs. -/
  outputs : List (α × α)
  /-- The number of places for input terms. -/
  inputSlots : Nat
  /-- The number of places for output terms. -/
  outputSlots : Nat

namespace Controller

variable {α : Type} {c d : Controller α}

/-- The frame of a controller. -/
def frame (c : Controller α) : Frame α :=
  ⟨c.style, c.inputs.map Variable.range, c.outputs.map Variable.range, c.inputTerms.length,
    c.outputTerms.length⟩

/-- The number of variables of a side is settled by the frame. -/
theorem length_variablesOf_congr (h : d.frame = c.frame) (side : Side) :
    (d.variablesOf side).length = (c.variablesOf side).length := by
  cases side with
  | input =>
    have hranges : d.inputs.map Variable.range = c.inputs.map Variable.range :=
      congrArg Frame.inputs h
    show d.inputs.length = c.inputs.length
    simpa using congrArg List.length hranges
  | output =>
    have hranges : d.outputs.map Variable.range = c.outputs.map Variable.range :=
      congrArg Frame.outputs h
    show d.outputs.length = c.outputs.length
    simpa using congrArg List.length hranges

/-- So is the size of a table. -/
theorem length_termsOf_congr (h : d.frame = c.frame) (side : Side) :
    (d.termsOf side).length = (c.termsOf side).length := by
  cases side with
  | input => exact congrArg Frame.inputSlots h
  | output => exact congrArg Frame.outputSlots h

/-- A bound term is in its table. -/
theorem lt_of_term? {side : Side} {slot : Nat} {t : Term α} (h : c.term? side slot = some t) :
    slot < (c.termsOf side).length :=
  (List.getElem?_eq_some_iff.mp (Option.join_eq_some_iff.mp h)).1

theorem bounds_congr (h : d.frame = c.frame) : d.bounds = c.bounds := by
  unfold bounds
  rw [show d.inputs.length = c.inputs.length from length_variablesOf_congr h .input,
    show d.outputs.length = c.outputs.length from length_variablesOf_congr h .output]

/-- **An operation goes on** with a system if it keeps its frame, and all of
its terms. -/
structure Keeps (c d : Controller α) : Prop where
  /-- The frame is the same. -/
  frame : d.frame = c.frame
  /-- The input terms are. -/
  inputTerms : d.inputTerms = c.inputTerms
  /-- The output terms are. -/
  outputTerms : d.outputTerms = c.outputTerms

namespace Keeps

theorem refl (c : Controller α) : c.Keeps c := ⟨rfl, rfl, rfl⟩

theorem trans {e : Controller α} (h : c.Keeps d) (h' : d.Keeps e) : c.Keeps e :=
  ⟨h'.frame.trans h.frame, h'.inputTerms.trans h.inputTerms, h'.outputTerms.trans h.outputTerms⟩

theorem termsOf (h : c.Keeps d) (side : Side) : d.termsOf side = c.termsOf side := by
  cases side with
  | input => exact h.inputTerms
  | output => exact h.outputTerms

theorem term? (h : c.Keeps d) (side : Side) (slot : Nat) :
    d.term? side slot = c.term? side slot := by
  unfold Controller.term?
  rw [h.termsOf]

end Keeps

/-- A controller with other inputs and other findings, when the universes
of the inputs are the same. -/
theorem keeps_of_inputs {inputs : List (Variable α)} (cycle : Cycle α)
    (h : inputs.map Variable.range = c.inputs.map Variable.range) :
    c.Keeps { c with inputs := inputs, cycle := cycle } := by
  refine ⟨?_, rfl, rfl⟩
  unfold frame
  rw [h]

/-! ## What an operation leaves behind -/

/-- A choice is one of a number of points or one of a norm. -/
theorem choose_eq_ok {s : Setting} (h : c.choose s = .ok d) :
    (∃ n, s = .evalPoints n ∧ Setting.leastEvalPoints ≤ n ∧ d = { c with evalPoints := n }) ∨
      ∃ norms, c.norms.choose? s = some norms ∧ d = { c with norms := norms } := by
  unfold choose at h
  split at h
  · next n =>
    by_cases hn : n < Setting.leastEvalPoints
    · rw [if_pos hn] at h
      cases h
    · rw [if_neg hn] at h
      cases h
      exact .inl ⟨n, rfl, Nat.le_of_not_lt hn, rfl⟩
  · refine .inr ?_
    unfold Norms.choose at h
    cases hs : c.norms.choose? s with
    | none =>
      rw [hs] at h
      cases h
    | some norms =>
      rw [hs] at h
      cases h
      exact ⟨norms, rfl, rfl⟩

theorem chooseMethod_eq_ok {m : Defuzzifier} (h : c.chooseMethod m = .ok d) :
    m.suits c.style = true ∧ d = { c with defuzzifier := m } := by
  unfold chooseMethod at h
  split at h
  · next hm =>
    cases h
    exact ⟨hm, rfl⟩
  · cases h

theorem keeps_choose {s : Setting} (h : c.choose s = .ok d) : c.Keeps d := by
  rcases choose_eq_ok h with ⟨n, -, -, rfl⟩ | ⟨norms, -, rfl⟩ <;> exact ⟨rfl, rfl, rfl⟩

theorem keeps_chooseMethod {m : Defuzzifier} (h : c.chooseMethod m = .ok d) : c.Keeps d := by
  obtain ⟨-, rfl⟩ := chooseMethod_eq_ok h
  exact ⟨rfl, rfl, rfl⟩

variable [Scalar α]

/-- **Whether a term can be bound is a question to the frame.** -/
theorem checkBinding_congr (h : d.frame = c.frame) (b : Binding α) :
    d.checkBinding b = c.checkBinding b := by
  have hstyle : d.style = c.style := congrArg Frame.style h
  have hinputs : d.inputs.length = c.inputs.length := length_variablesOf_congr h .input
  unfold checkBinding checkCount
  rw [length_variablesOf_congr h, length_termsOf_congr h, hstyle, hinputs]

theorem bindTerm_eq_ok {b : Binding α} (h : c.bindTerm b = .ok d) :
    c.checkBinding b = .ok () ∧ d = c.store b := by
  obtain ⟨⟨⟩, hcheck, h⟩ := Except.bind_eq_ok_iff.mp h
  cases h
  exact ⟨hcheck, rfl⟩

theorem setWeights_eq_ok {ws : List α} (h : c.setWeights ws = .ok d) :
    (∀ w ∈ ws, Scalar.IsFinite w) ∧ d = { c with weights := some ws } := by
  unfold setWeights at h
  split at h
  · cases h
  · next hfind =>
    cases h
    refine ⟨fun w hw => ?_, rfl⟩
    have := List.findIdx?_eq_none_iff.mp hfind w hw
    simpa using this

/-- Setting an input sets its value. -/
theorem setInput_eq_ok {tag : Nat} {x : α} (h : c.setInput tag x = .ok d) :
    ∃ v, c.inputs[tag]? = some v ∧ ¬ Scalar.IsNaN x ∧
      d = { c with inputs := c.inputs.set tag { v with value := x } } := by
  unfold setInput at h
  cases hv : c.inputs[tag]? with
  | none =>
    rw [hv] at h
    cases h
  | some v =>
    rw [hv] at h
    simp only at h
    split at h
    · cases h
    · next hx =>
      cases h
      exact ⟨v, rfl, hx, rfl⟩

/-- **Fuzzifying** finds all input terms bound, saturates the inputs and
notes the degrees. -/
theorem fuzzify_eq_ok (h : c.fuzzify = .ok d) :
    (∀ slot ∈ c.inputTerms, slot ≠ none) ∧ ∃ values degrees,
      c.inputs.mapM (fun v => v.saturate? v.value) = some values ∧
      (c.inputTerms.filterMap id).mapM
        (inputDegree? (c.inputs.zipWith (fun v x => { v with value := x }) values))
          = some degrees ∧
      d = { c with
        inputs := c.inputs.zipWith (fun v x => { v with value := x }) values
        cycle := { c.cycle with inputs := values, degrees := degrees, fuzzified := true } } := by
  unfold fuzzify at h
  split at h
  · cases h
  · next hfind =>
    simp only [Except.bind_eq_ok_iff, Fault.found_eq_ok_iff] at h
    obtain ⟨values, hvalues, degrees, hdegrees, h⟩ := h
    cases h
    refine ⟨fun slot hslot hnone => ?_, values, degrees, hvalues, hdegrees, rfl⟩
    have hbound := List.findIdx?_eq_none_iff.mp hfind slot hslot
    rw [hnone] at hbound
    cases hbound

/-- **Fuzzifying succeeds** when the input terms are bound, the inputs can be
saturated, and the terms have degrees. -/
theorem fuzzify_of_mapM (hbound : ∀ slot ∈ c.inputTerms, slot ≠ none) {values degrees : List α}
    (hvalues : c.inputs.mapM (fun v => v.saturate? v.value) = some values)
    (hdegrees : (c.inputTerms.filterMap id).mapM
        (inputDegree? (c.inputs.zipWith (fun v x => { v with value := x }) values))
          = some degrees) :
    c.fuzzify = .ok { c with
        inputs := c.inputs.zipWith (fun v x => { v with value := x }) values
        cycle := { c.cycle with inputs := values, degrees := degrees, fuzzified := true } } := by
  have hfind : c.inputTerms.findIdx? Option.isNone = none := by
    rw [List.findIdx?_eq_none_iff]
    intro slot hslot
    rw [← Bool.not_eq_true, Option.isNone_iff_eq_none]
    exact hbound slot hslot
  unfold fuzzify
  rw [hfind]
  exact Except.bind_eq_ok_iff.mpr ⟨values, Fault.found_eq_ok_iff.mpr hvalues,
    Except.bind_eq_ok_iff.mpr ⟨degrees, Fault.found_eq_ok_iff.mpr hdegrees, rfl⟩⟩

/-- Defuzzifying sets the outputs. -/
theorem defuzzify_eq_ok (h : c.defuzzify = .ok d) :
    c.cycle.inferred = true ∧ ∃ outputs, c.outputs.zipIdx.mapM c.defuzzified? = some outputs ∧
      d = { c with outputs := outputs } := by
  unfold defuzzify at h
  split at h
  · cases h
  · next hinferred =>
    simp only [Except.bind_eq_ok_iff, Fault.found_eq_ok_iff] at h
    obtain ⟨outputs, houtputs, h⟩ := h
    cases h
    exact ⟨by simpa using hinferred, outputs, houtputs, rfl⟩

/-- Inference goes on to the second reading when everything is ready and
the first reading has gone through. -/
theorem infer_eq_fireStream {tokens : List Token} (hfuzzified : c.cycle.fuzzified = true)
    (hbound : c.outputTerms.any Option.isNone = false) (haccept : c.accept tokens = .ok ()) :
    c.infer tokens = c.cleared.fireStream tokens := by
  unfold infer
  rw [hfuzzified, hbound, haccept]
  rfl

/-- **Inferring** stops before anything has been changed, or it goes on to
the second reading. -/
theorem infer_cases (c : Controller α) (tokens : List Token) :
    (∃ u, c.infer tokens = (.error (.unready u), c)) ∨
    (∃ f, c.accept tokens = .error f ∧ c.infer tokens = (.error (.malformed f), c)) ∨
    c.accept tokens = .ok () ∧ c.infer tokens = c.cleared.fireStream tokens := by
  cases hfuzzified : c.cycle.fuzzified with
  | true =>
    cases hbound : c.outputTerms.any Option.isNone with
    | true =>
      refine .inl ⟨.unboundOutput, ?_⟩
      rw [infer, hfuzzified, hbound]
      rfl
    | false =>
      cases haccept : c.accept tokens with
      | error f =>
        refine .inr (.inl ⟨f, rfl, ?_⟩)
        rw [infer, hfuzzified, hbound, haccept]
        rfl
      | ok u => exact .inr (.inr ⟨rfl, infer_eq_fireStream hfuzzified hbound haccept⟩)
  | false =>
    refine .inl ⟨.notFuzzified, ?_⟩
    rw [infer, hfuzzified]
    rfl

/-- **What a conclusion does**: nothing, or it raises one activation, or it is
added to one sum, which takes some strength. -/
theorem conclude_cases {x y : Cycle α} {a : Atom} {strength : α}
    (h : c.conclude x a strength = some y) :
    y = x ∨
    (∃ activation, x.activations[a.term.index]? = some activation ∧
      y = { x with activations := x.activations.set a.term.index <|
        Activation.raise activation c.norms.aggregation a.term.negated strength }) ∨
    ∃ sum conclusion, 0 < strength ∧ x.sums[a.subject]? = some sum ∧
      y = { x with sums := x.sums.set a.subject (WeightedSum.add sum conclusion strength) } := by
  have hadd {z : α} (h : addConclusion x a.subject z strength = some y) :
      ∃ sum, x.sums[a.subject]? = some sum ∧
        y = { x with sums := x.sums.set a.subject (WeightedSum.add sum z strength) } := by
    obtain ⟨sum, hsum, h⟩ := Option.bind_eq_some_iff.mp h
    cases h
    exact ⟨sum, hsum, rfl⟩
  obtain ⟨t, -, h⟩ := Option.bind_eq_some_iff.mp h
  obtain ⟨v, -, h⟩ := Option.bind_eq_some_iff.mp h
  split at h
  · obtain ⟨activation, hactivation, h⟩ := Option.bind_eq_some_iff.mp h
    cases h
    exact .inr (.inl ⟨activation, hactivation, rfl⟩)
  · split at h
    · next hpos =>
      obtain ⟨value, -, h⟩ := Option.bind_eq_some_iff.mp h
      obtain ⟨sum, hsum, h⟩ := hadd h
      exact .inr (.inr ⟨sum, value, hpos, hsum, h⟩)
    · cases h
      exact .inl rfl
  · split at h
    · next hpos =>
      obtain ⟨point, -, h⟩ := Option.bind_eq_some_iff.mp h
      obtain ⟨value, -, h⟩ := Option.bind_eq_some_iff.mp h
      obtain ⟨sum, hsum, h⟩ := hadd h
      exact .inr (.inr ⟨sum, value, hpos, hsum, h⟩)
    · cases h
      exact .inl rfl

/-- A conclusion changes activations and sums. -/
theorem conclude_eq_some {x y : Cycle α} {a : Atom} {strength : α}
    (h : c.conclude x a strength = some y) :
    ∃ activations sums, y = { x with activations := activations, sums := sums } := by
  rcases conclude_cases h with rfl | ⟨activation, -, rfl⟩ | ⟨sum, conclusion, -, -, rfl⟩
  · exact ⟨_, _, rfl⟩
  · exact ⟨_, _, rfl⟩
  · exact ⟨_, _, rfl⟩

/-- **An event changes activations, sums and strengths**, and nothing else
of the findings. -/
theorem fire_eq_some {f g : Firing α} {e : Event} (h : c.fire f e = some g) :
    ∃ activations sums strengths, g.cycle =
      { f.cycle with activations := activations, sums := sums, strengths := strengths } := by
  cases e with
  | clause link a closes =>
    obtain ⟨degree, -, h⟩ := Option.bind_eq_some_iff.mp h
    split at h <;> cases h <;> exact ⟨_, _, _, rfl⟩
  | conclusion a closes =>
    obtain ⟨cycle, hcycle, h⟩ := Option.bind_eq_some_iff.mp h
    obtain ⟨activations, sums, rfl⟩ := conclude_eq_some hcycle
    split at h <;> cases h <;> exact ⟨_, _, _, rfl⟩
  | done =>
    cases h
    exact ⟨_, _, _, rfl⟩

/-- **What every event keeps** is kept by events one after the other, as far as
they are fired. -/
theorem fireItems_induction {P : Firing α → Prop} {f : Firing α} (hf : P f)
    (hfire : ∀ f e g, P f → c.fire f e = some g → P g) (items : List Cursor.Item) :
    P (c.fireItems f items).2 := by
  induction items generalizing f with
  | nil => exact hf
  | cons i items ih =>
    unfold fireItems
    split
    · exact hf
    · exact hf
    · exact hf
    · next heq =>
      cases heq
      split
      · exact hf
      · next hg => exact ih (hfire _ _ _ hf hg)

/-- So all the events together change activations, sums and strengths. -/
theorem cycle_fireItems (c : Controller α) (f : Firing α) (items : List Cursor.Item) :
    ∃ activations sums strengths, (c.fireItems f items).2.cycle =
      { f.cycle with activations := activations, sums := sums, strengths := strengths } := by
  refine fireItems_induction (P := fun g => ∃ activations sums strengths, g.cycle =
    { f.cycle with activations := activations, sums := sums, strengths := strengths })
    ⟨_, _, _, rfl⟩ ?_ items
  rintro g e g' ⟨activations, sums, strengths, hg⟩ hfire
  obtain ⟨activations', sums', strengths', hg'⟩ := fire_eq_some hfire
  rw [hg] at hg'
  exact ⟨activations', sums', strengths', hg'⟩

/-- **A stream that is fired to its end** leaves new activations, sums and
strengths, and an inference that has been made. -/
theorem fireStream_eq_ok {tokens : List Token} {rules : Nat}
    (h : (c.fireStream tokens).1 = .ok rules) :
    ∃ activations sums strengths, (c.fireStream tokens).2 = { c with cycle :=
      { c.cycle with
        activations := activations, sums := sums, strengths := strengths, inferred := true } } := by
  obtain ⟨activations, sums, strengths, hcycle⟩ :=
    cycle_fireItems c ⟨c.cycle, 0, 0⟩ (Stream.items c.bounds tokens)
  unfold fireStream at h ⊢
  split at h
  · cases h
  · next firing heq =>
    rw [heq] at hcycle
    have hcycle : firing.cycle = _ := hcycle
    refine ⟨activations, sums, strengths, ?_⟩
    show { c with cycle := { firing.cycle with inferred := true } } = _
    rw [hcycle]

/-- A stream that is fired leaves what its items do, as far as they are fired. -/
theorem cycle_fireStream (c : Controller α) (tokens : List Token) :
    ∃ inferred, (c.fireStream tokens).2 = { c with cycle :=
      { (c.fireItems ⟨c.cycle, 0, 0⟩ (Stream.items c.bounds tokens)).2.cycle with
        inferred := inferred } } := by
  unfold fireStream
  split
  · next heq => exact ⟨_, by rw [heq]⟩
  · next heq => exact ⟨true, by rw [heq]⟩

/-- **What an inference leaves** is what was there before, or what the items of a
stream make of findings that have been taken back. -/
theorem infer_induction {P : Controller α → Prop} {tokens : List Token} (hc : P c)
    (hfire : ∀ inferred, P { c with cycle :=
      { (c.cleared.fireItems ⟨c.cycle.cleared, 0, 0⟩ (Stream.items c.bounds tokens)).2.cycle with
        inferred := inferred } }) : P (c.infer tokens).2 := by
  rcases infer_cases c tokens with ⟨u, h⟩ | ⟨f, -, h⟩ | ⟨-, h⟩
  · rw [h]
    exact hc
  · rw [h]
    exact hc
  · obtain ⟨inferred, hcycle⟩ := cycle_fireStream c.cleared tokens
    rw [h, hcycle]
    exact hfire inferred

/-- **A whole cycle** ends where one of its three parts does. -/
theorem runCycle_cases (c : Controller α) (tokens : List Token) :
    (∃ f, c.fuzzify = .error f ∧ c.runCycle tokens = (.error f, c)) ∨
    ∃ fuzzified, c.fuzzify = .ok fuzzified ∧
      ((∃ f, (fuzzified.infer tokens).1 = .error f ∧
          c.runCycle tokens = (.error f, (fuzzified.infer tokens).2)) ∨
        ∃ rules, (fuzzified.infer tokens).1 = .ok rules ∧
          ((∃ f, (fuzzified.infer tokens).2.defuzzify = .error f ∧
              c.runCycle tokens = (.error f, (fuzzified.infer tokens).2)) ∨
            ∃ defuzzified, (fuzzified.infer tokens).2.defuzzify = .ok defuzzified ∧
              c.runCycle tokens = (.ok rules, defuzzified))) := by
  unfold runCycle
  cases hfuzzify : c.fuzzify with
  | error f => exact .inl ⟨f, rfl, rfl⟩
  | ok fuzzified =>
    refine .inr ⟨fuzzified, rfl, ?_⟩
    rcases hinfer : fuzzified.infer tokens with ⟨outcome, after⟩
    cases outcome with
    | error f => exact .inl ⟨f, rfl, by simp only [hinfer]⟩
    | ok rules =>
      refine .inr ⟨rules, rfl, ?_⟩
      simp only [hinfer]
      cases hdefuzzify : after.defuzzify with
      | error f => exact .inl ⟨f, rfl, by simp only⟩
      | ok defuzzified => exact .inr ⟨defuzzified, rfl, by simp only⟩

/-- **What the parts of a cycle keep** the whole keeps. -/
theorem runCycle_induction {P : Controller α → Prop} {tokens : List Token} (hc : P c)
    (hfuzzify : ∀ d, c.fuzzify = .ok d → P d) (hinfer : ∀ d, P d → P (d.infer tokens).2)
    (hdefuzzify : ∀ d e, P d → d.defuzzify = .ok e → P e) : P (c.runCycle tokens).2 := by
  rcases runCycle_cases c tokens with ⟨f, -, h⟩ | ⟨fuzzified, hfuzzified, h⟩
  · rw [h]
    exact hc
  · have hinferred := hinfer fuzzified (hfuzzify fuzzified hfuzzified)
    rcases h with ⟨f, -, h⟩ | ⟨rules, -, ⟨f, -, h⟩ | ⟨d, hd, h⟩⟩
    · rw [h]
      exact hinferred
    · rw [h]
      exact hinferred
    · rw [h]
      exact hdefuzzify _ d hinferred hd

/-- **What a cycle keeps** an evaluation keeps, if it goes on with the values it is
given, as many numbers as there are inputs. -/
theorem evaluate_induction {P : Controller α → Prop} {tokens : List Token} {values : List α}
    (hc : P c) (hcycle : values.length = c.inputs.length → (∀ x ∈ values, ¬ Scalar.IsNaN x) →
      P ((c.withInputs values).runCycle tokens).2) : P (c.evaluate tokens values).2 := by
  unfold evaluate
  split
  · exact hc
  · next hlength =>
    split
    · exact hc
    · next hnumbers =>
      exact hcycle (Decidable.not_not.mp hlength) fun x hx hnan => hnumbers ⟨x, hx, hnan⟩

omit [Scalar α] in
/-- **An operation that fails leaves the controller as it was**, so it keeps
whatever it keeps when it succeeds. -/
theorem settle_induction {P : Controller α → Prop} {r : Except (Fault α) (Controller α)}
    (hc : P c) (h : ∀ d, r = .ok d → P d) : P (c.settle r).2 := by
  cases r with
  | error f => exact hc
  | ok d => exact h d rfl

/-! ## The frame is kept -/

/-- A crisp value leaves the universe of its variable alone. -/
theorem range_of_defuzzified? {v w : Variable α} {output : Nat}
    (h : c.defuzzified? (v, output) = some w) : w.range = v.range := by
  simp only [defuzzified?, bind, Option.bind_eq_some_iff] at h
  obtain ⟨crisp, -, value, -, h⟩ := h
  cases h
  rfl

theorem keeps_setWeights {ws : List α} (h : c.setWeights ws = .ok d) : c.Keeps d := by
  obtain ⟨-, rfl⟩ := setWeights_eq_ok h
  exact ⟨rfl, rfl, rfl⟩

theorem keeps_setInput {tag : Nat} {x : α} (h : c.setInput tag x = .ok d) : c.Keeps d := by
  obtain ⟨v, hv, -, rfl⟩ := setInput_eq_ok h
  exact keeps_of_inputs c.cycle (Variable.map_range_set x hv)

theorem keeps_fuzzify (h : c.fuzzify = .ok d) : c.Keeps d := by
  obtain ⟨-, values, degrees, hvalues, -, rfl⟩ := fuzzify_eq_ok h
  have hlength : values.length = c.inputs.length := List.length_of_mapM_eq_some hvalues
  exact keeps_of_inputs _ (Variable.map_range_zipWith (Nat.le_of_eq hlength.symm))

theorem keeps_infer (c : Controller α) (tokens : List Token) : c.Keeps (c.infer tokens).2 :=
  infer_induction (Keeps.refl c) fun _ => ⟨rfl, rfl, rfl⟩

theorem keeps_defuzzify (h : c.defuzzify = .ok d) : c.Keeps d := by
  obtain ⟨-, outputs, houtputs, rfl⟩ := defuzzify_eq_ok h
  have hranges : outputs.map Variable.range = c.outputs.map Variable.range := by
    have hzip : c.outputs.zipIdx.map (Variable.range ∘ Prod.fst)
        = c.outputs.map Variable.range := by
      rw [← List.map_map, List.zipIdx_map_fst]
    exact (List.map_of_mapM_eq_some houtputs fun _ _ h => range_of_defuzzified? h).trans hzip
  refine ⟨?_, rfl, rfl⟩
  unfold frame
  rw [hranges]

theorem keeps_runCycle (c : Controller α) (tokens : List Token) :
    c.Keeps (c.runCycle tokens).2 :=
  runCycle_induction (Keeps.refl c) (fun _ h => keeps_fuzzify h)
    (fun d h => h.trans (keeps_infer d tokens)) fun _ _ h hd => h.trans (keeps_defuzzify hd)

omit [Scalar α] in
/-- The inputs can be given other values. -/
theorem keeps_withInputs {values : List α} (h : values.length = c.inputs.length) :
    c.Keeps (c.withInputs values) :=
  keeps_of_inputs c.cycle (Variable.map_range_zipWith (Nat.le_of_eq h.symm))

theorem keeps_evaluate (c : Controller α) (tokens : List Token) (values : List α) :
    c.Keeps (c.evaluate tokens values).2 :=
  evaluate_induction (Keeps.refl c) fun hlength _ =>
    (keeps_withInputs hlength).trans (keeps_runCycle _ tokens)

end Controller

end FuzzyInference
