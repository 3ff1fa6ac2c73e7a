import FuzzyInference.Proofs.Controller.Reachable
import FuzzyInference.Proofs.Scalar.Linear

/-!
# What a controller is configured to be

A controller starts from the choices of `Controller.setup`, and from then
on every choice and every term has to pass a check. This module says what
the checks have left of each part of a controller, at any time and whatever
has been asked of it (`Controller.after_configured`):

* its choices are fit for it (`Choices.Fit`);
* its frame is the one it has been set up with;
* each of its terms is well formed for the place it is in
  (`Term.WellFormed`).

The first two are invariants with one lemma for each operation that has
anything to do with them. The third is read off what is known of every
reachable controller, and here scalars whose numbers are linearly ordered
are needed: the height of a term lies in the unit interval because it has
been saturated there.
-/

namespace FuzzyInference

variable {α : Type}

/-! ## Terms -/

/-- **The profiles of a side**, in a system of a style. -/
inductive Profile.Legal : Style → Side → Profile α → Prop
  /-- A function of the user's own can be used anywhere. -/
  | custom {style : Style} {side : Side} (curve : CustomCurve α) : Legal style side (.custom curve)
  /-- An input term has a degree. -/
  | input {style : Style} {shape : Shape} (h : shape.part = .conventional) :
    Legal style .input (.builtin shape)
  /-- So has the conclusion of a Mamdani system. -/
  | mamdani {shape : Shape} (h : shape.part = .conventional) :
    Legal .mamdani .output (.builtin shape)
  /-- A Sugeno conclusion that is the same everywhere. -/
  | constant : Legal .sugeno .output (.builtin .constant)
  /-- A Sugeno conclusion that depends on the inputs. -/
  | combination : Legal .sugeno .output (.builtin .combination)
  /-- A Tsukamoto conclusion inverts a ramp. -/
  | inverse (ramp : Ramp) : Legal .tsukamoto .output (.builtin (.inverse ramp))

namespace Profile.Legal

variable {style : Style} {side : Side} {shape : Shape}

/-- Where degrees are asked for, a shape is conventional. -/
theorem conventional (h : (Profile.builtin shape : Profile α).Legal style side)
    (hside : side = .input ∨ style = .mamdani) : shape.part = .conventional := by
  cases h with
  | input h => exact h
  | mamdani h => exact h
  | constant => exact absurd hside (by decide)
  | combination => exact absurd hside (by decide)
  | inverse ramp => exact absurd hside (by decide)

/-- Conclusions of Tsukamoto systems are inverses. -/
theorem exists_inverse (h : (Profile.builtin shape : Profile α).Legal .tsukamoto .output) :
    ∃ ramp, shape = .inverse ramp := by
  cases h with
  | inverse ramp => exact ⟨ramp, rfl⟩

/-- Inverses are conclusions of Tsukamoto systems. -/
theorem style_of_inverse {ramp : Ramp}
    (h : (Profile.builtin (.inverse ramp) : Profile α).Legal style .output) :
    style = .tsukamoto := by
  cases h with
  | mamdani h => cases h
  | inverse => rfl

end Profile.Legal

namespace Controller

/-- **The profiles that are allowed** are the legal ones. -/
theorem allows_eq_true_iff {style : Style} {side : Side} {profile : Profile α} :
    allows style side profile = true ↔ profile.Legal style side := by
  constructor
  · intro h
    cases profile with
    | custom curve => exact .custom curve
    | builtin shape =>
      cases side with
      | input => exact .input (of_decide_eq_true h)
      | output =>
        cases style with
        | mamdani => exact .mamdani (of_decide_eq_true h)
        | sugeno =>
          rcases Bool.or_eq_true_iff.mp h with h | h
          · rw [of_decide_eq_true h]
            exact .constant
          · rw [of_decide_eq_true h]
            exact .combination
        | tsukamoto =>
          obtain ⟨ramp, rfl⟩ := Shape.eq_inverse_of_part (of_decide_eq_true h)
          exact .inverse ramp
  · rintro (curve | h | h | - | - | ramp)
    · rfl
    · exact decide_eq_true h
    · exact decide_eq_true h
    · rfl
    · rfl
    · rfl

end Controller

/-- **A well-formed term** of a side of a system: `inputs` is the number of
inputs of the system and `owners` the number of variables of the side. -/
structure Term.WellFormed [Scalar α] (style : Style) (inputs owners : Nat) (side : Side)
    (t : Term α) : Prop where
  /-- Its variable is there. -/
  owner_lt : t.owner < owners
  /-- Its profile is one of the side. -/
  legal : t.profile.Legal style side
  /-- Its coefficients are finite. -/
  finite : ∀ p ∈ t.coefficients, Scalar.IsFinite p
  /-- There are enough of them. -/
  supplied : ∀ shape, t.profile = .builtin shape →
    shape.coefficientCount inputs ≤ t.coefficients.length
  /-- The width of its shape is not zero. -/
  width : ∀ shape, t.profile = .builtin shape → shape.zeroWidth? t.coefficients = some false
  /-- Its height is a degree of truth. -/
  height : 0 ≤ t.height ∧ t.height ≤ 1

namespace Controller

/-- **A term that could be bound in a place** is well formed for it. -/
theorem Admits.wellFormed [Scalar α] [Scalar.IsLinear α] {c : Controller α} {side : Side}
    {slot : Nat} {t : Term α} (h : c.Admits side slot t) :
    t.WellFormed c.style c.inputs.length (c.variablesOf side).length side := by
  obtain ⟨b, rfl, -, rfl, hcheck⟩ := h
  have hadmissible := admissible_of_checkBinding hcheck
  exact ⟨hadmissible.owner_lt, allows_eq_true_iff.mp hadmissible.allowed,
    hadmissible.coefficients_finite, hadmissible.supplied, hadmissible.width,
    Scalar.clampUnit_mem (Scalar.IsLinear.number_of_isFinite hadmissible.height_finite)⟩

end Controller

/-! ## Choices -/

/-- **Norms that are fit** for their purposes. -/
structure Norms.Fit (n : Norms) : Prop where
  /-- Statements are joined by a t-norm in `and`. -/
  and : n.and ∈ [Norm.minimum, .product]
  /-- They are joined by an s-norm in `or`. -/
  or : n.or ∈ [Norm.maximum, .probabilisticSum, .boundedSum]
  /-- Conclusions are cut by a t-norm. -/
  implication : n.implication ∈ [Norm.minimum, .product]
  /-- They are united by an s-norm. -/
  aggregation : n.aggregation ∈ [Norm.maximum, .probabilisticSum, .boundedSum]

theorem Norm.isTNorm_iff {n : Norm} : n.isTNorm = true ↔ n ∈ [Norm.minimum, .product] := by
  cases n <;> decide

theorem Norm.isSNorm_iff {n : Norm} :
    n.isSNorm = true ↔ n ∈ [Norm.maximum, .probabilisticSum, .boundedSum] := by
  cases n <;> decide

namespace Norms

theorem fit_initial : initial.Fit := ⟨by decide, by decide, by decide, by decide⟩

/-- **A norm that is chosen** is fit for its purpose. -/
theorem fit_choose {n m : Norms} (hn : n.Fit) {s : Setting} (h : n.choose? s = some m) :
    m.Fit := by
  cases s with
  | and op =>
    obtain ⟨hop, h⟩ := Option.ite_none_right_eq_some.mp h
    cases h
    exact { hn with and := Norm.isTNorm_iff.mp hop }
  | or op =>
    obtain ⟨hop, h⟩ := Option.ite_none_right_eq_some.mp h
    cases h
    exact { hn with or := Norm.isSNorm_iff.mp hop }
  | implication op =>
    obtain ⟨hop, h⟩ := Option.ite_none_right_eq_some.mp h
    cases h
    exact { hn with implication := Norm.isTNorm_iff.mp hop }
  | aggregation op =>
    obtain ⟨hop, h⟩ := Option.ite_none_right_eq_some.mp h
    cases h
    exact { hn with aggregation := Norm.isSNorm_iff.mp hop }
  | evalPoints n => cases h

end Norms

/-- **What can be chosen** about a controller. -/
structure Choices (α : Type) where
  /-- The style, which is chosen once and for all. -/
  style : Style
  /-- The norms. -/
  norms : Norms
  /-- The number of points. -/
  evalPoints : Nat
  /-- The method of defuzzification. -/
  defuzzifier : Defuzzifier
  /-- The weights of the rules, where there are any. -/
  weights : Option (List α)

/-- The choices after one more. -/
def Choices.after (x : Choices α) : Setting → Choices α
  | .and op => { x with norms := { x.norms with and := op } }
  | .or op => { x with norms := { x.norms with or := op } }
  | .implication op => { x with norms := { x.norms with implication := op } }
  | .aggregation op => { x with norms := { x.norms with aggregation := op } }
  | .evalPoints n => { x with evalPoints := n }

/-- **Choices that are fit** for each other. -/
structure Choices.Fit [Scalar α] (x : Choices α) : Prop where
  /-- The norms are fit for their purposes. -/
  norms : x.norms.Fit
  /-- There are enough points. -/
  evalPoints : 20 ≤ x.evalPoints
  /-- The method is one of the style. -/
  defuzzifier : x.defuzzifier.suits x.style = true
  /-- The weights are finite. -/
  weights : ∀ ws, x.weights = some ws → ∀ w ∈ ws, Scalar.IsFinite w

namespace Controller

variable {c d : Controller α}

/-- The choices made about a controller. -/
def choices (c : Controller α) : Choices α :=
  ⟨c.style, c.norms, c.evalPoints, c.defuzzifier, c.weights⟩

variable [Scalar α]

/-! ### Operations that choose -/

omit [Scalar α] in
/-- **A choice** replaces the one that was made before for the same purpose, and
nothing else. -/
theorem choices_choose {s : Setting} (h : c.choose s = .ok d) :
    d.choices = c.choices.after s := by
  rcases choose_eq_ok h with ⟨n, rfl, -, rfl⟩ | ⟨norms, hnorms, rfl⟩
  · rfl
  · cases s with
    | evalPoints n => cases hnorms
    | _ op =>
      obtain ⟨-, hnorms⟩ := Option.ite_none_right_eq_some.mp hnorms
      cases hnorms
      rfl

theorem fit_choose (hc : c.choices.Fit) {s : Setting} (h : c.choose s = .ok d) :
    d.choices.Fit := by
  rcases choose_eq_ok h with ⟨n, -, hn, rfl⟩ | ⟨norms, hnorms, rfl⟩
  · exact ⟨hc.norms, hn, hc.defuzzifier, hc.weights⟩
  · exact ⟨Norms.fit_choose hc.norms hnorms, hc.evalPoints, hc.defuzzifier, hc.weights⟩

theorem fit_chooseMethod (hc : c.choices.Fit) {m : Defuzzifier} (h : c.chooseMethod m = .ok d) :
    d.choices.Fit := by
  obtain ⟨hm, rfl⟩ := chooseMethod_eq_ok h
  exact ⟨hc.norms, hc.evalPoints, hm, hc.weights⟩

theorem fit_setWeights (hc : c.choices.Fit) {ws : List α} (h : c.setWeights ws = .ok d) :
    d.choices.Fit := by
  obtain ⟨hws, rfl⟩ := setWeights_eq_ok h
  refine ⟨hc.norms, hc.evalPoints, hc.defuzzifier, fun _ h => ?_⟩
  cases h
  exact hws

theorem fit_clearWeights (hc : c.choices.Fit) : c.clearWeights.choices.Fit :=
  ⟨hc.norms, hc.evalPoints, hc.defuzzifier, fun _ h => by cases h⟩

/-! ### Operations that do not -/

theorem choices_bindTerm {b : Binding α} (h : c.bindTerm b = .ok d) : d.choices = c.choices := by
  obtain ⟨-, rfl⟩ := bindTerm_eq_ok h
  unfold store
  cases b.side <;> rfl

theorem choices_setInput {tag : Nat} {x : α} (h : c.setInput tag x = .ok d) :
    d.choices = c.choices := by
  obtain ⟨v, -, -, rfl⟩ := setInput_eq_ok h
  rfl

theorem choices_fuzzify (h : c.fuzzify = .ok d) : d.choices = c.choices := by
  obtain ⟨-, values, degrees, -, -, rfl⟩ := fuzzify_eq_ok h
  rfl

theorem choices_infer (c : Controller α) (tokens : List Token) :
    (c.infer tokens).2.choices = c.choices :=
  infer_induction (P := fun d => d.choices = c.choices) rfl fun _ => rfl

theorem choices_defuzzify (h : c.defuzzify = .ok d) : d.choices = c.choices := by
  obtain ⟨-, outputs, -, rfl⟩ := defuzzify_eq_ok h
  rfl

theorem choices_runCycle (c : Controller α) (tokens : List Token) :
    (c.runCycle tokens).2.choices = c.choices :=
  runCycle_induction (P := fun d => d.choices = c.choices) rfl (fun _ h => choices_fuzzify h)
    (fun d hd => (choices_infer d tokens).trans hd) fun _ _ hd h => (choices_defuzzify h).trans hd

theorem choices_evaluate (c : Controller α) (tokens : List Token) (values : List α) :
    (c.evaluate tokens values).2.choices = c.choices :=
  evaluate_induction (P := fun d => d.choices = c.choices) rfl fun _ _ =>
    choices_runCycle (c.withInputs values) tokens

/-! ### All of them -/

/-- **No command makes choices that are unfit.** -/
theorem fit_perform (hc : c.choices.Fit) (command : Command α) :
    (c.perform command).2.choices.Fit := by
  have hkeep {d : Controller α} (h : d.choices = c.choices) : d.choices.Fit := h ▸ hc
  cases command with
  | choose setting => exact settle_induction hc fun _ h => fit_choose hc h
  | chooseMethod method => exact settle_induction hc fun _ h => fit_chooseMethod hc h
  | bindTerm binding => exact settle_induction hc fun _ h => hkeep (choices_bindTerm h)
  | setWeights weights => exact settle_induction hc fun _ h => fit_setWeights hc h
  | clearWeights => exact fit_clearWeights hc
  | setInput tag value => exact settle_induction hc fun _ h => hkeep (choices_setInput h)
  | fuzzify => exact settle_induction hc fun _ h => hkeep (choices_fuzzify h)
  | infer tokens => exact hkeep (choices_infer c tokens)
  | defuzzify => exact settle_induction hc fun _ h => hkeep (choices_defuzzify h)
  | evaluate tokens values => exact hkeep (choices_evaluate c tokens values)

/-! ## The frame -/

/-- **No command changes the frame.** -/
theorem frame_perform (c : Controller α) (command : Command α) :
    (c.perform command).2.frame = c.frame := by
  -- `P` is written out, because the frame of `c` is on both sides
  have hsettle {r : Except (Fault α) (Controller α)} (h : ∀ d, r = .ok d → d.frame = c.frame) :
      (c.settle r).2.frame = c.frame :=
    settle_induction (P := fun d => d.frame = c.frame) rfl h
  cases command with
  | choose setting => exact hsettle fun _ h => (keeps_choose h).frame
  | chooseMethod method => exact hsettle fun _ h => (keeps_chooseMethod h).frame
  | bindTerm binding =>
    refine hsettle fun d h => ?_
    rw [(bindTerm_eq_ok h).2]
    exact frame_store c binding
  | setWeights weights => exact hsettle fun _ h => (keeps_setWeights h).frame
  | clearWeights => rfl
  | setInput tag value => exact hsettle fun _ h => (keeps_setInput h).frame
  | fuzzify => exact hsettle fun _ h => (keeps_fuzzify h).frame
  | infer tokens => exact (keeps_infer c tokens).frame
  | defuzzify => exact hsettle fun _ h => (keeps_defuzzify h).frame
  | evaluate tokens values => exact (keeps_evaluate c tokens values).frame

/-! ## Configured controllers -/

/-- **What a controller that has been set up with certain arguments is
configured to be**, at any time. -/
structure Configured (style : Style) (inputs outputs : List (Variable α))
    (inputSlots outputSlots : Nat) (c : Controller α) : Prop where
  /-- Its choices are fit. -/
  choices : c.choices.Fit
  /-- Its style is the one it has been set up with. -/
  sameStyle : c.style = style
  /-- So are the universes of its inputs. -/
  inputRanges : c.inputs.map Variable.range = inputs.map Variable.range
  /-- So are those of its outputs. -/
  outputRanges : c.outputs.map Variable.range = outputs.map Variable.range
  /-- The table of the input terms has the size it has been set up with. -/
  inputSize : c.inputTerms.length = inputSlots
  /-- So has the table of the output terms. -/
  outputSize : c.outputTerms.length = outputSlots
  /-- Every input term is well formed. -/
  inputTerms : ∀ {slot t}, c.term? .input slot = some t →
    t.WellFormed style inputs.length inputs.length .input
  /-- So is every output term. -/
  outputTerms : ∀ {slot t}, c.term? .output slot = some t →
    t.WellFormed style inputs.length outputs.length .output

variable {style : Style} {inputs outputs : List (Variable α)} {inputSlots outputSlots : Nat}

/-- What a controller is when it has been set up: nothing is bound, nothing has
been found, and the choices are the ones to begin with. -/
theorem eq_of_setup (h : setup style inputs outputs inputSlots outputSlots = .ok c) :
    ∃ values, c = {
      style, inputs, outputs
      inputTerms := List.replicate inputSlots none
      outputTerms := List.replicate outputSlots none
      norms := .initial
      evalPoints := Setting.defaultEvalPoints
      defuzzifier := .initial style
      weights := none
      cycle := {
        inputs := values
        degrees := List.replicate inputSlots 0
        activations := List.replicate outputSlots ⟨0, 0⟩
        sums := outputs.map fun _ => ⟨0, 0⟩
        strengths := []
        fuzzified := false
        inferred := false } } := by
  simp only [setup, Fault.guard_eq_ok_iff] at h
  obtain ⟨-, -, h⟩ := h
  split at h
  · cases h
  · simp only [Except.bind_eq_ok_iff, Fault.found_eq_ok_iff] at h
    obtain ⟨values, -, h⟩ := h
    cases h
    exact ⟨values, rfl⟩

/-- What a controller is set up with. -/
theorem setup_eq_ok (h : setup style inputs outputs inputSlots outputSlots = .ok c) :
    c.frame = ⟨style, inputs.map Variable.range, outputs.map Variable.range, inputSlots,
        outputSlots⟩ ∧
      c.choices = ⟨style, .initial, Setting.defaultEvalPoints, .initial style, none⟩ := by
  obtain ⟨values, rfl⟩ := eq_of_setup h
  refine ⟨?_, rfl⟩
  simp only [frame, List.length_replicate]

/-- No term is bound to begin with. -/
theorem term?_of_setup (h : setup style inputs outputs inputSlots outputSlots = .ok c)
    (side : Side) (slot : Nat) : c.term? side slot = none := by
  obtain ⟨values, rfl⟩ := eq_of_setup h
  refine Option.join_eq_none_iff.mpr ?_
  cases side <;> rw [termsOf, List.getElem?_replicate] <;> split <;> simp

/-- The choices to begin with are fit. -/
theorem fit_initial (style : Style) :
    (⟨style, .initial, Setting.defaultEvalPoints, .initial style, none⟩ : Choices α).Fit :=
  ⟨Norms.fit_initial, Nat.le_of_ble_eq_true rfl, by cases style <;> rfl, fun _ h => by cases h⟩

/-- **The choices of a reachable controller** are fit. -/
theorem Reachable.fit (hc : c.Reachable) : c.choices.Fit := by
  induction hc with
  | setup h =>
    rw [(setup_eq_ok h).2]
    exact fit_initial _
  | perform _ command ih => exact fit_perform ih command

/-- **A reachable controller is configured** as its frame says. -/
theorem configured_of_reachable [Scalar.IsLinear α] (hc : c.Reachable)
    (hframe : c.frame = ⟨style, inputs.map Variable.range, outputs.map Variable.range, inputSlots,
        outputSlots⟩) :
    c.Configured style inputs outputs inputSlots outputSlots := by
  have hstyle : c.style = style := congrArg Frame.style hframe
  have hinputs : c.inputs.map Variable.range = inputs.map Variable.range :=
    congrArg Frame.inputs hframe
  have houtputs : c.outputs.map Variable.range = outputs.map Variable.range :=
    congrArg Frame.outputs hframe
  have hinputCount : c.inputs.length = inputs.length := by simpa using congrArg List.length hinputs
  have houtputCount : c.outputs.length = outputs.length := by
    simpa using congrArg List.length houtputs
  have hterm {side slot t} (ht : c.term? side slot = some t) :
      t.WellFormed style inputs.length (c.variablesOf side).length side := by
    rw [← hstyle, ← hinputCount]
    exact (hc.sound.terms ht).wellFormed
  refine ⟨hc.fit, hstyle, hinputs, houtputs, congrArg Frame.inputSlots hframe,
    congrArg Frame.outputSlots hframe, fun ht => ?_, fun ht => ?_⟩
  · exact hinputCount ▸ hterm ht
  · exact houtputCount ▸ hterm ht

/-- The frame is the same after a history. -/
theorem frame_after (c : Controller α) (history : List (Command α)) :
    (c.after history).frame = c.frame := by
  induction history generalizing c with
  | nil => rfl
  | cons command history ih => exact (ih _).trans (frame_perform c command)

/-- **A controller is configured as it has been set up**, after any history
of commands, successful or not. -/
theorem after_configured [Scalar.IsLinear α]
    (h : setup style inputs outputs inputSlots outputSlots = .ok c) (history : List (Command α)) :
    (c.after history).Configured style inputs outputs inputSlots outputSlots :=
  configured_of_reachable ((Reachable.setup h).after history)
    ((frame_after c history).trans (setup_eq_ok h).1)

/-- A Mamdani system after a history in which every second command fails:
the norm is no t-norm, the bell has no width, and there are too few
points. -/
theorem after_configured_single :
    ∃ c : Controller Float32, setup .mamdani [⟨0, 1, 0⟩] [⟨-1, 1, 0⟩] 1 1 = .ok c ∧
      let d := c.after [.choose (.and .product), .choose (.and .maximum),
        .bindTerm ⟨.input, 0, 0, .builtin .bell, [1, 2, 0], 7⟩,
        .bindTerm ⟨.input, 0, 0, .builtin .bell, [0, 2, 0], 7⟩,
        .choose (.evalPoints 20), .choose (.evalPoints 19)]
      d.Configured .mamdani [⟨0, 1, 0⟩] [⟨-1, 1, 0⟩] 1 1 ∧ d.norms.and = .product ∧
        d.evalPoints = 20 ∧ d.term? .input 0 = some ⟨.builtin .bell, [1, 2, 0], 1, 0⟩ := by
  refine ⟨_, rfl, after_configured rfl _, rfl, rfl, rfl⟩

end Controller

end FuzzyInference
