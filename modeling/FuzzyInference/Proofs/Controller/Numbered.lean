import FuzzyInference.Proofs.Controller.Cycle
import FuzzyInference.Proofs.Scalar.Linear

/-!
# Inputs that are numbers

Whatever is set as the value of an input is looked at first, and rejected if
it is not a number. Fuzzifying saturates the inputs, which makes numbers of
numbers. No other operation writes to them, so inputs that are numbers to
begin with stay numbers.
-/

namespace FuzzyInference

namespace Controller

variable {α : Type} [Scalar α] {c d : Controller α}

/-- **The inputs are numbers.** -/
def Numbered (c : Controller α) : Prop := ∀ v ∈ c.inputs, ¬ Scalar.IsNaN v.value

theorem Numbered.of_inputs (hc : c.Numbered) (h : d.inputs = c.inputs) : d.Numbered := by
  unfold Numbered
  rw [h]
  exact hc

theorem inputs_infer (c : Controller α) (tokens : List Token) :
    (c.infer tokens).2.inputs = c.inputs :=
  infer_induction (P := fun d => d.inputs = c.inputs) rfl fun _ => rfl

theorem numbered_setInput (hc : c.Numbered) {tag : Nat} {x : α} (h : c.setInput tag x = .ok d) :
    d.Numbered := by
  obtain ⟨v, -, hx, rfl⟩ := setInput_eq_ok h
  intro w hw
  rcases List.mem_or_eq_of_mem_set hw with hw | rfl
  · exact hc w hw
  · exact hx

theorem numbered_withInputs {values : List α} (h : ∀ x ∈ values, ¬ Scalar.IsNaN x) :
    (c.withInputs values).Numbered := by
  intro w hw
  obtain ⟨i, hi⟩ := List.mem_iff_getElem?.mp hw
  obtain ⟨v, x, -, hx, rfl⟩ := List.getElem?_zipWith_eq_some.mp hi
  exact h x (List.mem_of_getElem? hx)

variable [Scalar.IsLinear α]

/-- **Saturation makes numbers of numbers.** -/
theorem numbered_fuzzify (hc : c.Numbered) (h : c.fuzzify = .ok d) : d.Numbered := by
  obtain ⟨-, values, degrees, hvalues, -, rfl⟩ := fuzzify_eq_ok h
  refine numbered_withInputs (c := c) fun x hx => not_not_intro ?_
  obtain ⟨v, hv, hsaturated⟩ : ∃ v ∈ c.inputs, v.saturate? v.value = some x := by
    have hmem := List.mem_map_of_mem (f := some) hx
    rw [← List.mapM_eq_some_iff.mp hvalues] at hmem
    exact List.mem_map.mp hmem
  unfold Variable.saturate? at hsaturated
  split at hsaturated
  · next hle =>
    cases hsaturated
    have hnumber : v.value ≤ v.value := Decidable.not_not.mp (hc v hv)
    exact (Scalar.IsLinear.number_of_le (Scalar.clamp_mem hle hnumber).1).2
  · cases hsaturated

theorem numbered_runCycle (hc : c.Numbered) (tokens : List Token) :
    (c.runCycle tokens).2.Numbered := by
  refine runCycle_induction hc (fun _ h => numbered_fuzzify hc h)
    (fun d hd => hd.of_inputs (inputs_infer d tokens)) fun d e hd h => ?_
  obtain ⟨-, outputs, -, rfl⟩ := defuzzify_eq_ok h
  exact hd

/-- **Inputs that are numbers stay numbers**, whatever is done. -/
theorem numbered_perform (hc : c.Numbered) (command : Command α) :
    (c.perform command).2.Numbered := by
  cases command with
  | choose setting =>
    refine settle_induction hc fun d h => ?_
    rcases choose_eq_ok h with ⟨n, -, -, rfl⟩ | ⟨norms, -, rfl⟩ <;> exact hc
  | chooseMethod method =>
    refine settle_induction hc fun d h => ?_
    rw [(chooseMethod_eq_ok h).2]
    exact hc
  | bindTerm binding =>
    refine settle_induction hc fun d h => hc.of_inputs ?_
    rw [(bindTerm_eq_ok h).2]
    exact inputs_store c binding
  | setWeights weights =>
    refine settle_induction hc fun d h => ?_
    rw [(setWeights_eq_ok h).2]
    exact hc
  | clearWeights => exact hc
  | setInput tag value => exact settle_induction hc fun d h => numbered_setInput hc h
  | fuzzify => exact settle_induction hc fun d h => numbered_fuzzify hc h
  | infer tokens => exact hc.of_inputs (inputs_infer c tokens)
  | defuzzify =>
    refine settle_induction hc fun d h => ?_
    obtain ⟨-, outputs, -, rfl⟩ := defuzzify_eq_ok h
    exact hc
  | evaluate tokens values =>
    exact evaluate_induction hc fun _ hnumbers =>
      numbered_runCycle (numbered_withInputs hnumbers) tokens

end Controller

end FuzzyInference
