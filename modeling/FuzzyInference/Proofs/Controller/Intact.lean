import FuzzyInference.Proofs.Controller.InPlace
import FuzzyInference.Proofs.Controller.Progress

/-!
# What a failure leaves behind

Operations are carried out in place, and nothing is taken back when they
fail. Still, an operation that fails leaves the controller as it was, because
all that can go wrong is found out before the first write. The only operation
that is made of several others is an evaluation. It can be stopped when the
inputs have been set and fuzzified, and then leaves behind what fuzzifying
has written; the findings of the last inference and the outputs are still
there (`Controller.Leaves`).

An operation that sets something and succeeds writes to one place:
`Controller.assign` says for each of them what is written.
-/

namespace FuzzyInference

namespace Command

variable {α : Type}

/-- **The commands that set something.** -/
def IsSetting : Command α → Prop
  | .fuzzify | .infer _ | .defuzzify | .evaluate _ _ => False
  | _ => True

/-- **The command that is made of several others.** -/
def IsEvaluation : Command α → Prop
  | .evaluate _ _ => True
  | _ => False

end Command

namespace Controller

variable {α : Type} [Scalar α] {c d : Controller α}

/-! ## Operations that set something -/

/-- **What a command sets**: one norm or the number of points, the method, one
place of one table, the weights, or the value of one input. -/
def assign (c : Controller α) : Command α → Controller α
  | .choose (.and op) => { c with norms := { c.norms with and := op } }
  | .choose (.or op) => { c with norms := { c.norms with or := op } }
  | .choose (.implication op) => { c with norms := { c.norms with implication := op } }
  | .choose (.aggregation op) => { c with norms := { c.norms with aggregation := op } }
  | .choose (.evalPoints n) => { c with evalPoints := n }
  | .chooseMethod m => { c with defuzzifier := m }
  | .bindTerm b =>
    match b.side with
    | .input => { c with inputTerms := c.inputTerms.set b.slot (some (Binding.term b)) }
    | .output => { c with outputTerms := c.outputTerms.set b.slot (some (Binding.term b)) }
  | .setWeights ws => { c with weights := some ws }
  | .clearWeights => { c with weights := none }
  | .setInput tag x => { c with inputs := c.inputs.modify tag fun v => { v with value := x } }
  | .fuzzify | .infer _ | .defuzzify | .evaluate _ _ => c

/-- A choice is made of what it names. -/
theorem choose_eq_assign {s : Setting} (h : c.choose s = .ok d) : d = c.assign (.choose s) := by
  have hchoices := choices_choose h
  rcases choose_eq_ok h with ⟨n, rfl, -, rfl⟩ | ⟨norms, hnorms, rfl⟩
  · rfl
  · have hnorms' : norms = (c.choices.after s).norms := congrArg Choices.norms hchoices
    cases s with
    | evalPoints n => cases hnorms
    | _ op =>
      rw [hnorms']
      rfl

omit [Scalar α] in
theorem settle_of_error {r : Except (Fault α) (Controller α)} {f : Fault α}
    (h : (c.settle r).1 = .error f) : (c.settle r).2 = c := by
  cases r with
  | error f => rfl
  | ok d => cases h

omit [Scalar α] in
theorem settle_of_ok {r : Except (Fault α) (Controller α)} {o : Option Nat}
    (h : (c.settle r).1 = .ok o) : r = .ok (c.settle r).2 := by
  cases r with
  | error f => cases h
  | ok d => rfl

variable [Scalar.IsOrdered α]

/-- **An operation that sets something** sets what it names, if it succeeds. -/
theorem operate_of_ok (hc : c.Sound) {command : Command α} (hcommand : command.IsSetting)
    {o : Option Nat} (h : (c.operate command).1 = .ok o) :
    (c.operate command).2 = c.assign command := by
  rw [operate_eq_perform hc] at h ⊢
  cases command with
  | choose setting => exact choose_eq_assign (settle_of_ok h)
  | chooseMethod method => exact (chooseMethod_eq_ok (settle_of_ok h)).2
  | bindTerm binding => exact (bindTerm_eq_ok (settle_of_ok h)).2
  | setWeights weights => exact (setWeights_eq_ok (settle_of_ok h)).2
  | clearWeights => rfl
  | setInput tag value =>
    obtain ⟨v, hv, -, heq⟩ := setInput_eq_ok (settle_of_ok h)
    rw [← List.modify_eq_set_of_getElem? (fun v => { v with value := value }) hv] at heq
    exact heq
  | fuzzify => exact absurd hcommand not_false
  | infer tokens => exact absurd hcommand not_false
  | defuzzify => exact absurd hcommand not_false
  | evaluate tokens values => exact absurd hcommand not_false

/-- **An operation that fails** leaves the controller as it was, unless it is an
evaluation. -/
theorem operate_of_error (hc : c.Sound) {command : Command α} (hcommand : ¬ command.IsEvaluation)
    {f : Fault α} (h : (c.operate command).1 = .error f) : (c.operate command).2 = c := by
  rw [operate_eq_perform hc] at h ⊢
  cases command with
  | infer tokens =>
    cases hinfer : (c.infer tokens).1 with
    | error g => exact infer_eq_error hc hinfer
    | ok rules =>
      have h : (c.infer tokens).1.map some = .error f := h
      rw [hinfer] at h
      cases h
  | clearWeights => cases h
  | evaluate tokens values => exact absurd trivial hcommand
  | _ => exact settle_of_error h

/-! ## Evaluations -/

/-- **A controller that differs at most in what fuzzifying writes**: the values
of the inputs, what has been noted of them, the degrees of their terms, and
the note that they have been fuzzified. -/
def UpToFuzzifying (c d : Controller α) : Prop :=
  ∃ inputs values degrees fuzzified, inputs.map Variable.range = c.inputs.map Variable.range ∧
    d = { c with
      inputs := inputs
      cycle := { c.cycle with inputs := values, degrees := degrees, fuzzified := fuzzified } }

omit [Scalar α] [Scalar.IsOrdered α] in
/-- Fuzzifying writes over the values that the inputs have been set to. -/
theorem UpToFuzzifying.of_inputs {values : List (Variable α)}
    (h : ({ c with inputs := values } : Controller α).UpToFuzzifying d)
    (hranges : values.map Variable.range = c.inputs.map Variable.range) :
    c.UpToFuzzifying d := by
  obtain ⟨inputs, noted, degrees, fuzzified, hinputs, hd⟩ := h
  exact ⟨inputs, noted, degrees, fuzzified, hinputs.trans hranges, hd⟩

/-- **What an evaluation that fails may leave behind**, by the fault it fails
with: values that are rejected leave everything as it was, and what stops the
cycle later leaves everything but what fuzzifying writes. It fails with no
other fault. -/
def Leaves (c : Controller α) : Fault α → Controller α → Prop
  | .rejected _, d => d = c
  | .unready _, d => c.UpToFuzzifying d
  | .malformed _, d => c.UpToFuzzifying d
  | _, _ => False

/-- An inference that fails comes too early, or its stream is refused. -/
theorem fault_of_infer (hc : c.Sound) {tokens : List Token} {f : Fault α}
    (h : (c.infer tokens).1 = .error f) : (∃ u, f = .unready u) ∨ ∃ g, f = .malformed g := by
  rcases infer_cases c tokens with ⟨u, hinfer⟩ | ⟨g, -, hinfer⟩ | ⟨haccept, hinfer⟩
  · rw [hinfer] at h
    exact .inl ⟨u, (Except.error.inj h).symm⟩
  · rw [hinfer] at h
    exact .inr ⟨g, (Except.error.inj h).symm⟩
  · obtain ⟨rules, hrules⟩ := fireStream_of_accept hc haccept
    rw [hinfer, hrules] at h
    cases h

/-- **A cycle that fails** is stopped before the inference has changed anything,
and not by a rejection. -/
theorem runCycle_of_error (hc : c.Sound) {tokens : List Token} {f : Fault α}
    (h : (c.runCycle tokens).1 = .error f) :
    ((∃ u, f = .unready u) ∨ ∃ g, f = .malformed g) ∧
      c.UpToFuzzifying (c.runCycle tokens).2 := by
  rcases runCycle_cases c tokens with ⟨g, hg, hrun⟩ | ⟨e, he, hcycle⟩
  · -- fuzzifying has failed
    rw [hrun] at h ⊢
    cases h
    refine ⟨.inl ?_, c.inputs, c.cycle.inputs, c.cycle.degrees, c.cycle.fuzzified, rfl, rfl⟩
    refine Classical.byContradiction fun hready => ?_
    obtain ⟨d, hd⟩ := (not_isUnready_fuzzify_iff hc).mp fun ⟨u, hu⟩ =>
      hready ⟨u, Except.error.inj (hg.symm.trans hu)⟩
    cases hg.symm.trans hd
  · have hsound := sound_fuzzify hc he
    rcases hcycle with ⟨g, hg, hrun⟩ | ⟨rules, hrules, ⟨g, hg, hrun⟩ | ⟨d, -, hrun⟩⟩
    · -- the inference has failed
      have hranges := congrArg Frame.inputs (keeps_fuzzify he).frame
      obtain ⟨-, values, degrees, -, -, rfl⟩ := fuzzify_eq_ok he
      rw [hrun] at h ⊢
      cases h
      rw [infer_eq_error hsound hg]
      exact ⟨fault_of_infer hsound hg, _, values, degrees, true, hranges, rfl⟩
    · -- defuzzifying does not fail after an inference
      obtain ⟨activations, sums, strengths, hafter⟩ := infer_eq_ok hrules
      have hinferred : (e.infer tokens).2.cycle.inferred = true := by
        rw [hafter]
      obtain ⟨d, hd⟩ := exists_defuzzify (sound_infer hsound tokens) hinferred
      cases hg.symm.trans hd
    · rw [hrun] at h
      cases h

/-- **An evaluation that fails** leaves the findings of the last inference and
the outputs as they were, and everything if it is rejected, which it is if and
only if there are too few or too many values or one of them is not a number. -/
theorem leaves_evaluate (hc : c.Sound) {tokens : List Token} {values : List α} :
    ((∃ r, (c.evaluate tokens values).1 = .error (.rejected r)) ↔
      values.length ≠ c.inputs.length ∨ ∃ x ∈ values, Scalar.IsNaN x) ∧
    ∀ f, (c.evaluate tokens values).1 = .error f → c.Leaves f (c.evaluate tokens values).2 := by
  by_cases hlength : values.length ≠ c.inputs.length
  · have hrun : c.evaluate tokens values = _ := if_pos hlength
    rw [hrun]
    refine ⟨iff_of_true ⟨_, rfl⟩ (.inl hlength), fun f h => ?_⟩
    cases h
    rfl
  · by_cases hnan : ∃ x ∈ values, Scalar.IsNaN x
    · have hrun : c.evaluate tokens values = _ := (if_neg hlength).trans (if_pos hnan)
      rw [hrun]
      refine ⟨iff_of_true ⟨_, rfl⟩ (.inr hnan), fun f h => ?_⟩
      cases h
      rfl
    · have hrun : c.evaluate tokens values = (c.withInputs values).runCycle tokens :=
        (if_neg hlength).trans (if_neg hnan)
      have hranges : (c.withInputs values).inputs.map Variable.range
          = c.inputs.map Variable.range :=
        Variable.map_range_zipWith (Nat.le_of_eq (Decidable.not_not.mp hlength).symm)
      have hsound := hc.of_keeps (keeps_of_inputs c.cycle hranges) hc.fits
      rw [hrun]
      refine ⟨iff_of_false ?_ (not_or_intro hlength hnan), fun f h => ?_⟩
      · rintro ⟨r, hr⟩
        rcases (runCycle_of_error hsound hr).1 with ⟨u, hu⟩ | ⟨g, hg⟩
        · cases hu
        · cases hg
      · obtain ⟨hfault, hafter⟩ := runCycle_of_error hsound h
        have hafter := hafter.of_inputs hranges
        rcases hfault with ⟨u, rfl⟩ | ⟨g, rfl⟩
        · exact hafter
        · exact hafter

end Controller

end FuzzyInference
