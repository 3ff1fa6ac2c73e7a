import FuzzyInference.Proofs.Controller.Configured
import FuzzyInference.Proofs.Controller.Numbered
import FuzzyInference.Proofs.Scalar.Strict

/-!
# Inputs after fuzzifying

Fuzzifying saturates the inputs, notes their values, and so prepares a cycle
in which every input lies in its universe. A second fuzzifying finds nothing
to do (`Controller.fuzzify_fuzzify`).

There is one way for an input to stay outside. When a controller is set up the
universes of its variables are looked at, their values are not, and a value
that is no number is let through by every saturation. Setting an input and
evaluating refuse such values, and so the question is only whether the input
has been given a value since: `Controller.lacks_after_iff` says, by induction
on the history with one lemma for each command that writes to the inputs, that
an input lacks a number if it did so when the controller was set up and nothing
has been given to it (`Controller.Given`). The inputs for which this is so are
those that are not saturated (`Controller.saturated_of_fuzzify`), and
`Controller.unmeasured_escapes` has a controller with such an input.
-/

namespace FuzzyInference

/-- **A variable with its value saturated.** -/
def Variable.saturated {α : Type} [Scalar α] (v : Variable α) : Variable α :=
  { v with value := Scalar.clamp v.lower v.upper v.value }

namespace Controller

variable {α : Type} [Scalar α] {c d : Controller α}

/-! ## Fuzzifying once, and twice -/

/-- **Fuzzifying saturates the inputs** and notes their values. -/
theorem inputs_of_fuzzify (h : c.fuzzify = .ok d) :
    (∀ v ∈ c.inputs, v.lower ≤ v.upper) ∧ d.inputs = c.inputs.map Variable.saturated ∧
      d.cycle.inputs = d.inputs.map Variable.value := by
  obtain ⟨-, values, degrees, hvalues, -, rfl⟩ := fuzzify_eq_ok h
  have hsaturate (v : Variable α) (x : α) (hx : v.saturate? v.value = some x) :
      v.lower ≤ v.upper ∧ x = v.saturated.value := by
    unfold Variable.saturate? at hx
    split at hx
    · next hle =>
      cases hx
      exact ⟨hle, rfl⟩
    · cases hx
  have heq : values = c.inputs.map fun v => v.saturated.value := by
    rw [← List.map_id values]
    exact List.map_of_mapM_eq_some hvalues fun v x hx => (hsaturate v x hx).2
  have hinputs : c.inputs.zipWith (fun v x => { v with value := x }) values
      = c.inputs.map Variable.saturated := by
    rw [heq, List.zipWith_map_right, List.zipWith_self]
    rfl
  refine ⟨fun v hv => ?_, hinputs, ?_⟩
  · obtain ⟨k, hk⟩ := List.mem_iff_getElem?.mp hv
    obtain ⟨x, -, hx⟩ := List.exists_getElem?_of_mapM_eq_some hvalues hk
    exact (hsaturate v x hx).1
  · show values = List.map _ (List.zipWith _ _ _)
    rw [hinputs, List.map_map, heq]
    rfl

variable {input : Nat}

/-- **An input lacks a number** if its value is none. -/
def Lacks (c : Controller α) (input : Nat) : Prop :=
  ∃ v, c.inputs[input]? = some v ∧ Scalar.IsNaN v.value

theorem lacks_congr (h : d.inputs = c.inputs) : d.Lacks input ↔ c.Lacks input := by
  unfold Lacks
  rw [h]

/-- An input that is set does not lack a number, and the others do as they
did. -/
theorem lacks_setInput_iff {tag : Nat} {x : α} (h : c.setInput tag x = .ok d) :
    d.Lacks input ↔ c.Lacks input ∧ tag ≠ input := by
  obtain ⟨v, hv, hx, rfl⟩ := setInput_eq_ok h
  show (∃ u, (c.inputs.set tag _)[input]? = some u ∧ _) ↔ _
  by_cases htag : tag = input
  · subst htag
    rw [List.getElem?_set_self (List.getElem?_eq_some_iff.mp hv).1]
    refine iff_of_false ?_ fun h => h.2 rfl
    rintro ⟨u, hu, hnan⟩
    cases hu
    exact hx hnan
  · rw [List.getElem?_set_ne htag]
    exact (and_iff_left htag).symm

/-- Inputs that are all given numbers lack none. -/
theorem not_lacks_withInputs {values : List α} (h : ∀ x ∈ values, ¬ Scalar.IsNaN x) :
    ¬ (c.withInputs values).Lacks input := by
  rintro ⟨v, hv, hnan⟩
  exact numbered_withInputs h v (List.mem_of_getElem? hv) hnan

section Linear

variable [Scalar.IsLinear α]

/-- Fuzzifying gives no input a number that lacks one, and takes none away. -/
theorem lacks_fuzzify_iff (h : c.fuzzify = .ok d) : d.Lacks input ↔ c.Lacks input := by
  obtain ⟨hrange, hinputs, -⟩ := inputs_of_fuzzify h
  unfold Lacks
  rw [hinputs, List.getElem?_map]
  constructor
  · rintro ⟨u, hu, hnan⟩
    obtain ⟨v, hv, rfl⟩ := Option.map_eq_some_iff.mp hu
    exact ⟨v, hv, (Scalar.isNaN_clamp_iff (hrange v (List.mem_of_getElem? hv))).mp hnan⟩
  · rintro ⟨v, hv, hnan⟩
    exact ⟨_, congrArg (Option.map Variable.saturated) hv,
      (Scalar.isNaN_clamp_iff (hrange v (List.mem_of_getElem? hv))).mpr hnan⟩

/-- A cycle writes to the inputs when it fuzzifies them, and not afterwards. -/
theorem lacks_runCycle_iff (tokens : List Token) :
    (c.runCycle tokens).2.Lacks input ↔ c.Lacks input := by
  refine runCycle_induction (P := fun d => d.Lacks input ↔ c.Lacks input) Iff.rfl
    (fun _ h => lacks_fuzzify_iff h) (fun d hd => (lacks_congr (inputs_infer d tokens)).trans hd)
    fun d e hd h => ?_
  obtain ⟨-, outputs, -, rfl⟩ := defuzzify_eq_ok h
  exact hd

end Linear

/-! ## What has been given to an input -/

/-- **Whether a command gives an input a value**: it sets this input, or it is
an evaluation, which has a value for every input. Neither is refused. -/
def gives (c : Controller α) (input : Nat) : Command α → Prop
  | .setInput tag value => tag = input ∧ (c.setInput tag value).isOk = true
  | .evaluate _ values => values.length = c.inputs.length ∧ ∀ x ∈ values, ¬ Scalar.IsNaN x
  | .choose _ | .chooseMethod _ | .bindTerm _ | .setWeights _ | .clearWeights | .fuzzify
  | .infer _ | .defuzzify => False

/-- **Whether an input has been given a value** in the course of a history. -/
def Given (c : Controller α) (input : Nat) : List (Command α) → Prop
  | [] => False
  | command :: history => c.gives input command ∨ (c.perform command).2.Given input history

section Linear

variable [Scalar.IsLinear α]

/-- **An input lacks a number after a command** if it did before and the
command does not give it one. -/
theorem lacks_perform_iff (c : Controller α) (command : Command α) :
    (c.perform command).2.Lacks input ↔ c.Lacks input ∧ ¬ c.gives input command := by
  -- a command that gives nothing leaves it as it was, whether it fails or not
  have hsettle {r : Except (Fault α) (Controller α)}
      (h : ∀ d, r = .ok d → (d.Lacks input ↔ c.Lacks input)) :
      (c.settle r).2.Lacks input ↔ c.Lacks input ∧ ¬ False := by
    rw [and_iff_left not_false]
    exact settle_induction (P := fun d => d.Lacks input ↔ c.Lacks input) Iff.rfl h
  cases command with
  | choose setting =>
    refine hsettle fun d h => ?_
    rcases choose_eq_ok h with ⟨n, -, -, rfl⟩ | ⟨norms, -, rfl⟩ <;> exact Iff.rfl
  | chooseMethod method =>
    refine hsettle fun d h => ?_
    rw [(chooseMethod_eq_ok h).2]
    exact Iff.rfl
  | bindTerm binding =>
    refine hsettle fun d h => lacks_congr ?_
    rw [(bindTerm_eq_ok h).2]
    exact inputs_store c binding
  | setWeights weights =>
    refine hsettle fun d h => ?_
    rw [(setWeights_eq_ok h).2]
    exact Iff.rfl
  | clearWeights => exact (and_iff_left not_false).symm
  | setInput tag value =>
    show (c.settle (c.setInput tag value)).2.Lacks input ↔ _ ∧ ¬ (_ ∧ _)
    cases h : c.setInput tag value with
    | error f => exact (and_iff_left fun hgives => Bool.false_ne_true hgives.2).symm
    | ok d =>
      show d.Lacks input ↔ _
      rw [lacks_setInput_iff h]
      exact and_congr_right' (not_congr (and_iff_left rfl).symm)
  | fuzzify => exact hsettle fun d h => lacks_fuzzify_iff h
  | infer tokens =>
    exact (lacks_congr (inputs_infer c tokens)).trans (and_iff_left not_false).symm
  | defuzzify =>
    refine hsettle fun d h => ?_
    obtain ⟨-, outputs, -, rfl⟩ := defuzzify_eq_ok h
    exact Iff.rfl
  | evaluate tokens values =>
    show (c.evaluate tokens values).2.Lacks input ↔ _ ∧ ¬ (_ ∧ _)
    unfold evaluate
    split
    · next hlength => exact (and_iff_left fun hgives => hlength hgives.1).symm
    · next hlength =>
      split
      · next hnan =>
        obtain ⟨x, hx, hnan⟩ := hnan
        exact (and_iff_left fun hgives => hgives.2 x hx hnan).symm
      · next hnumbers =>
        have hvalues : ∀ x ∈ values, ¬ Scalar.IsNaN x := fun x hx hnan => hnumbers ⟨x, hx, hnan⟩
        rw [lacks_runCycle_iff]
        exact iff_of_false (not_lacks_withInputs hvalues)
          fun h => h.2 ⟨Decidable.not_not.mp hlength, hvalues⟩

/-- **An input lacks a number after a history** if it did before and none has
been given to it. By induction on the history. -/
theorem lacks_after_iff (c : Controller α) (history : List (Command α)) :
    (c.after history).Lacks input ↔ c.Lacks input ∧ ¬ c.Given input history := by
  induction history generalizing c with
  | nil => exact (and_iff_left not_false).symm
  | cons command history ih =>
    show ((c.perform command).2.after history).Lacks input ↔ _ ∧ ¬ (_ ∨ _)
    rw [ih, lacks_perform_iff, not_or, and_assoc]

end Linear

/-! ## Saturated inputs -/

/-- **Fuzzifying changes nothing** when the inputs are saturated and all it
finds has been noted. -/
theorem fuzzify_eq_self (hbound : ∀ slot ∈ c.inputTerms, slot ≠ none)
    (hsaturated : ∀ v ∈ c.inputs, v.saturate? v.value = some v.value)
    (hvalues : c.cycle.inputs = c.inputs.map Variable.value)
    (hdegrees : (c.inputTerms.filterMap id).mapM (inputDegree? c.inputs) = some c.cycle.degrees)
    (hfuzzified : c.cycle.fuzzified = true) : c.fuzzify = .ok c := by
  have hzip : c.inputs.zipWith (fun v x => { v with value := x }) c.cycle.inputs = c.inputs := by
    rw [hvalues, List.zipWith_map_right, List.zipWith_self, List.map_id']
  have hfound : c.inputs.mapM (fun v => v.saturate? v.value) = some c.cycle.inputs := by
    rw [List.mapM_eq_some_iff, hvalues, List.map_map]
    exact List.map_congr_left hsaturated
  rw [fuzzify_of_mapM hbound hfound (hzip.symm ▸ hdegrees), hzip, ← hfuzzified]

/-- **Fuzzifying a second time** changes nothing. -/
theorem fuzzify_fuzzify [Scalar.IsStrict α] (h : c.fuzzify = .ok d) : d.fuzzify = .ok d := by
  obtain ⟨hrange, hinputs, hvalues⟩ := inputs_of_fuzzify h
  obtain ⟨hbound, values, degrees, -, hdegrees, rfl⟩ := fuzzify_eq_ok h
  refine fuzzify_eq_self hbound (fun v hv => ?_) hvalues hdegrees rfl
  obtain ⟨u, hu, rfl⟩ := List.mem_map.mp (hinputs ▸ hv)
  exact (if_pos (hrange u hu)).trans (congrArg some (Scalar.clamp_clamp (hrange u hu)))

/-- **An input is saturated** by fuzzifying, unless it lacks a number. -/
theorem mem_of_fuzzify_iff [Scalar.IsLinear α] (h : c.fuzzify = .ok d) {v : Variable α}
    (hv : d.inputs[input]? = some v) :
    v.lower ≤ v.value ∧ v.value ≤ v.upper ↔ ¬ c.Lacks input := by
  obtain ⟨hrange, hinputs, -⟩ := inputs_of_fuzzify h
  rw [hinputs, List.getElem?_map] at hv
  obtain ⟨u, hu, rfl⟩ := Option.map_eq_some_iff.mp hv
  refine (Scalar.clamp_mem_iff (hrange u (List.mem_of_getElem? hu))).trans (not_congr ?_)
  constructor
  · exact fun hnan => ⟨u, hu, hnan⟩
  · rintro ⟨w, hw, hnan⟩
    cases hu.symm.trans hw
    exact hnan

variable {style : Style} {inputs outputs : List (Variable α)} {inputSlots outputSlots : Nat}

/-- **The inputs after fuzzifying**, in a controller that has been set up and
operated on. Their values have been noted, and fuzzifying once more changes
nothing. Each lies in its universe, which is the one it has been set up with,
unless its value has been no number from the beginning and it has not been
given another. -/
theorem saturated_of_fuzzify [Scalar.IsStrict α]
    (hsetup : setup style inputs outputs inputSlots outputSlots = .ok c)
    {history : List (Command α)} (h : (c.after history).fuzzify = .ok d) :
    d.cycle.inputs = d.inputs.map Variable.value ∧ d.fuzzify = .ok d ∧
    d.inputs.map Variable.range = inputs.map Variable.range ∧
    ∀ input v, d.inputs[input]? = some v →
      (v.lower ≤ v.value ∧ v.value ≤ v.upper ↔
        ¬ ((∃ u, inputs[input]? = some u ∧ Scalar.IsNaN u.value) ∧ ¬ c.Given input history)) := by
  obtain ⟨hrange, hinputs, hvalues⟩ := inputs_of_fuzzify h
  have hsame : c.inputs = inputs := by
    obtain ⟨values, rfl⟩ := eq_of_setup hsetup
    rfl
  have hframe : d.frame = c.frame :=
    (keeps_fuzzify h).frame.trans (frame_after c history)
  refine ⟨hvalues, fuzzify_fuzzify h, ?_, fun input v hv => ?_⟩
  · rw [← hsame]
    exact congrArg Frame.inputs hframe
  · rw [mem_of_fuzzify_iff h hv, lacks_after_iff, ← hsame]
    exact Iff.rfl

/-- A controller that has been set up with no number for the value of its
input. -/
def unmeasured : Controller Float32 :=
  { bare with
    inputs := [⟨0, 1, Scalar.nan⟩]
    cycle := { bare.cycle with inputs := [Scalar.nan] } }

theorem setup_unmeasured :
    setup .mamdani [⟨0, 1, Scalar.nan⟩] [⟨0, 1, 0⟩] 1 2 = .ok unmeasured := rfl

/-- The term of its input is bound. -/
def rising : Command Float32 := .bindTerm ⟨.input, 0, 0, .builtin .linearS, [0, 1], 1⟩

/-- **The input is not saturated** when it is fuzzified, and neither is its
degree a number. A value like this would have been refused if it had been
set. -/
theorem unmeasured_escapes :
    setup .mamdani [⟨0, 1, Scalar.nan⟩] [⟨0, 1, 0⟩] 1 2 = .ok unmeasured ∧
    (∃ d, (unmeasured.after [rising]).fuzzify = .ok d ∧
      (∃ v ∈ d.inputs, Scalar.IsNaN v.value ∧ ¬ v.lower ≤ v.value ∧ ¬ v.value ≤ v.upper) ∧
      ∃ degree ∈ d.cycle.degrees, Scalar.IsNaN degree) ∧
    unmeasured.setInput 0 Scalar.nan = Fault.reject (.inputNotNumber 0) := by
  refine ⟨setup_unmeasured, ⟨_, rfl, ?_, ?_⟩, rfl⟩
  · exact ⟨_, List.mem_singleton_self _, by decide +kernel⟩
  · exact ⟨_, List.mem_singleton_self _, by decide +kernel⟩

/-- When it has been set before, it is. -/
theorem saturated_of_fuzzify_measured :
    ∃ d, (unmeasured.after [.setInput 0 2, rising]).fuzzify = .ok d ∧
      d.fuzzify = .ok d ∧ ∀ v, d.inputs[0]? = some v → v.lower ≤ v.value ∧ v.value ≤ v.upper := by
  obtain ⟨d, hd⟩ : ∃ d, (unmeasured.after [.setInput 0 2, rising]).fuzzify = .ok d := ⟨_, rfl⟩
  obtain ⟨-, hagain, -, hmem⟩ := saturated_of_fuzzify setup_unmeasured hd
  have hgiven : unmeasured.Given 0 [.setInput 0 2, rising] := .inl ⟨rfl, rfl⟩
  exact ⟨d, hd, hagain, fun v hv => (hmem 0 v hv).mpr fun h => h.2 hgiven⟩

end Controller

end FuzzyInference
