import FuzzyInference.Proofs.Controller.Frame
import FuzzyInference.Proofs.Scalar.Order
import FuzzyInference.Proofs.Shape.Term

/-!
# Reachable controllers

A controller that has been set up and then been operated on, with success
or without, is `Controller.Reachable`. Every such controller is
`Controller.Sound`: its universes are proper ranges, each of its terms is
one that could be bound where it is, and the findings of its cycle are as
many as there are inputs, terms and outputs. The proof is by induction on
how the controller has been reached, with one lemma for each operation;
that a term could be bound is a question to the frame, so an answer given
once is good for ever.
-/

namespace FuzzyInference

/-- **Findings of the right size** for a controller. -/
structure Cycle.Fits {α : Type} (x : Cycle α) (c : Controller α) : Prop where
  /-- There is a value for every input. -/
  inputs : x.inputs.length = c.inputs.length
  /-- There is a degree for every input term. -/
  degrees : x.degrees.length = c.inputTerms.length
  /-- There is an activation for every output term. -/
  activations : x.activations.length = c.outputTerms.length
  /-- There is a sum for every output. -/
  sums : x.sums.length = c.outputs.length

/-- The findings fit a controller that goes on with another as they fit
that one. -/
theorem Cycle.Fits.of_keeps {α : Type} {x : Cycle α} {c d : Controller α} (hx : x.Fits c)
    (h : c.Keeps d) : x.Fits d where
  inputs := hx.inputs.trans (Controller.length_variablesOf_congr h.frame .input).symm
  degrees := hx.degrees.trans (congrArg List.length h.inputTerms).symm
  activations := hx.activations.trans (congrArg List.length h.outputTerms).symm
  sums := hx.sums.trans (Controller.length_variablesOf_congr h.frame .output).symm

namespace Controller

variable {α : Type} [Scalar α] {c d : Controller α}

/-! ## Terms that could be bound -/

/-- **What the checks of a binding find out.** -/
structure Admissible (c : Controller α) (b : Binding α) : Prop where
  /-- The variable is there. -/
  owner_lt : b.owner < (c.variablesOf b.side).length
  /-- The place is there. -/
  slot_lt : b.slot < (c.termsOf b.side).length
  /-- The side can use the profile. -/
  allowed : allows c.style b.side b.profile = true
  /-- There are coefficients enough. -/
  supplied : (Binding.term b).Supplied c.inputs.length
  /-- The height is finite. -/
  height_finite : Scalar.IsFinite b.height
  /-- So are the coefficients. -/
  coefficients_finite : ∀ p ∈ b.coefficients, Scalar.IsFinite p
  /-- The profile has a width. -/
  width : ∀ shape, b.profile = .builtin shape → shape.zeroWidth? b.coefficients = some false

theorem supplied_of_checkCount {b : Binding α} (h : c.checkCount b = .ok ()) :
    (Binding.term b).Supplied c.inputs.length := by
  intro shape hshape
  replace hshape : b.profile = .builtin shape := hshape
  unfold checkCount at h
  rw [hshape] at h
  simp only at h
  split at h
  · cases h
  · next hcount => exact Nat.le_of_not_lt hcount

theorem zeroWidth?_of_checkWidth {b : Binding α} (h : checkWidth b = .ok ()) {shape : Shape}
    (hshape : b.profile = .builtin shape) : shape.zeroWidth? b.coefficients = some false := by
  unfold checkWidth at h
  rw [hshape] at h
  simp only [Except.bind_eq_ok_iff, Fault.found_eq_ok_iff] at h
  obtain ⟨width, hwidth, h⟩ := h
  cases width with
  | true => cases h
  | false => exact hwidth

/-- **A binding that passes its checks is admissible.** -/
theorem admissible_of_checkBinding {b : Binding α} (h : c.checkBinding b = .ok ()) :
    c.Admissible b := by
  simp only [checkBinding, Fault.guard_eq_ok_iff, Except.bind_eq_ok_iff] at h
  obtain ⟨howner, hslot, hallowed, _, hcount, hfinite, hwidth⟩ := h
  rw [not_or] at hfinite
  refine ⟨Nat.lt_of_not_le howner, Nat.lt_of_not_le hslot, by simpa using hallowed,
    supplied_of_checkCount hcount, Decidable.not_not.mp hfinite.1, fun p hp => ?_,
    fun shape => zeroWidth?_of_checkWidth hwidth⟩
  exact Decidable.not_not.mp fun hn => hfinite.2 ⟨p, hp, hn⟩

/-- **An admissible binding** passes its checks. -/
theorem checkBinding_of_admissible {b : Binding α} (h : c.Admissible b) :
    c.checkBinding b = .ok () := by
  have hcount : c.checkCount b = .ok () := by
    unfold checkCount
    split
    · rfl
    · next shape hshape => exact if_neg (Nat.not_lt_of_le (h.supplied shape hshape))
  have hwidth : checkWidth b = .ok () := by
    unfold checkWidth
    split
    · rfl
    · next shape hshape =>
      rw [h.width shape hshape]
      rfl
  have hfinite : ¬ (¬ Scalar.IsFinite b.height ∨ ∃ p ∈ b.coefficients, ¬ Scalar.IsFinite p) := by
    rintro (hheight | ⟨p, hp, hcoefficient⟩)
    · exact hheight h.height_finite
    · exact hcoefficient (h.coefficients_finite p hp)
  simp only [checkBinding, Fault.guard_eq_ok_iff, Except.bind_eq_ok_iff]
  exact ⟨Nat.not_le_of_lt h.owner_lt, Nat.not_le_of_lt h.slot_lt, by simp [h.allowed], _, hcount,
    hfinite, hwidth⟩

theorem bindTerm_of_admissible {b : Binding α} (h : c.Admissible b) :
    c.bindTerm b = .ok (c.store b) := by
  unfold bindTerm
  rw [checkBinding_of_admissible h]
  rfl

/-- **A term could be bound in a place** of a controller. -/
def Admits (c : Controller α) (side : Side) (slot : Nat) (t : Term α) : Prop :=
  ∃ b : Binding α, b.side = side ∧ b.slot = slot ∧ Binding.term b = t ∧ c.checkBinding b = .ok ()

theorem Admits.of_frame {side : Side} {slot : Nat} {t : Term α} (h : c.Admits side slot t)
    (hframe : d.frame = c.frame) : d.Admits side slot t := by
  obtain ⟨b, hside, hslot, hterm, hcheck⟩ := h
  exact ⟨b, hside, hslot, hterm, (checkBinding_congr hframe b).trans hcheck⟩

section Admits

variable {side : Side} {slot : Nat} {t : Term α}

theorem Admits.owner_lt (h : c.Admits side slot t) : t.owner < (c.variablesOf side).length := by
  obtain ⟨b, rfl, -, rfl, hcheck⟩ := h
  exact (admissible_of_checkBinding hcheck).owner_lt

theorem Admits.supplied (h : c.Admits side slot t) : t.Supplied c.inputs.length := by
  obtain ⟨b, -, -, rfl, hcheck⟩ := h
  exact (admissible_of_checkBinding hcheck).supplied

theorem Admits.allowed (h : c.Admits side slot t) : allows c.style side t.profile = true := by
  obtain ⟨b, rfl, -, rfl, hcheck⟩ := h
  exact (admissible_of_checkBinding hcheck).allowed

end Admits

/-! ## Sound controllers -/

/-- **What every reachable controller has.** -/
structure Sound (c : Controller α) : Prop where
  /-- The universes of the inputs are proper ranges. -/
  inputs : ∀ v ∈ c.inputs, Variable.IsProperRange v.lower v.upper
  /-- The universes of the outputs are. -/
  outputs : ∀ v ∈ c.outputs, Variable.IsProperRange v.lower v.upper
  /-- Every term could be bound where it is. -/
  terms : ∀ {side slot t}, c.term? side slot = some t → c.Admits side slot t
  /-- The findings are of the right size. -/
  fits : c.cycle.Fits c

/-- Variables of the same universes are as proper. -/
theorem isProperRange_of_map_range {vs ws : List (Variable α)}
    (h : ws.map Variable.range = vs.map Variable.range)
    (hvs : ∀ v ∈ vs, Variable.IsProperRange v.lower v.upper) :
    ∀ w ∈ ws, Variable.IsProperRange w.lower w.upper := by
  intro w hw
  have hmem := List.mem_map_of_mem (f := Variable.range) hw
  rw [h] at hmem
  obtain ⟨v, hv, hrange⟩ := List.mem_map.mp hmem
  have hlower : v.lower = w.lower := congrArg Prod.fst hrange
  have hupper : v.upper = w.upper := congrArg Prod.snd hrange
  rw [← hlower, ← hupper]
  exact hvs v hv

/-- **What goes on with a sound controller is sound**, if its findings are of
the right size. -/
theorem Sound.of_keeps (hc : c.Sound) (h : c.Keeps d) (hfits : d.cycle.Fits c) : d.Sound where
  inputs := isProperRange_of_map_range (congrArg Frame.inputs h.frame) hc.inputs
  outputs := isProperRange_of_map_range (congrArg Frame.outputs h.frame) hc.outputs
  terms ht := (hc.terms ((h.term? _ _).symm.trans ht)).of_frame h.frame
  fits := hfits.of_keeps h

/-! ## One lemma for each operation -/

theorem sound_setup {style : Style} {inputs outputs : List (Variable α)}
    {inputSlots outputSlots : Nat}
    (h : setup style inputs outputs inputSlots outputSlots = .ok c) : c.Sound := by
  simp only [setup, Fault.guard_eq_ok_iff] at h
  obtain ⟨-, -, h⟩ := h
  split at h
  · cases h
  next hcheck =>
  simp only [Except.bind_eq_ok_iff, Fault.found_eq_ok_iff] at h
  obtain ⟨values, hvalues, h⟩ := h
  cases h
  have hproper : ∀ v ∈ inputs ++ outputs, Variable.IsProperRange v.lower v.upper := by
    intro v hv
    have hv := List.forM_eq_ok_iff.mp hcheck v hv
    unfold Variable.check at hv
    split at hv
    · assumption
    · cases hv
  refine ⟨fun v hv => hproper v (List.mem_append_left _ hv),
    fun v hv => hproper v (List.mem_append_right _ hv), ?_, ?_⟩
  · -- no place has been taken
    intro side slot t ht
    unfold term? at ht
    cases side with
    | input =>
      rw [termsOf, List.getElem?_replicate] at ht
      split at ht <;> cases ht
    | output =>
      rw [termsOf, List.getElem?_replicate] at ht
      split at ht <;> cases ht
  · exact ⟨List.length_of_mapM_eq_some hvalues, by simp, by simp, by simp⟩

theorem frame_store (c : Controller α) (b : Binding α) : (c.store b).frame = c.frame := by
  unfold store
  cases b.side with
  | input =>
    show Frame.mk _ _ _ (c.inputTerms.set b.slot _).length _ = _
    rw [List.length_set]
    rfl
  | output =>
    show Frame.mk _ _ _ _ (c.outputTerms.set b.slot _).length = _
    rw [List.length_set]
    rfl

theorem inputs_store (c : Controller α) (b : Binding α) : (c.store b).inputs = c.inputs := by
  unfold store
  cases b.side <;> rfl

theorem cycle_store (c : Controller α) (b : Binding α) : (c.store b).cycle = c.cycle := by
  unfold store
  cases b.side <;> rfl

/-- The tables after a binding. -/
theorem termsOf_store (c : Controller α) (b : Binding α) (side : Side) :
    (c.store b).termsOf side
      = if b.side = side then (c.termsOf side).set b.slot (some (Binding.term b))
        else c.termsOf side := by
  unfold store
  cases hb : b.side <;> cases side <;> rfl

/-- **The terms after a binding** are the one that was bound, in its place,
and those that were there before in all others. -/
theorem term?_store (c : Controller α) (b : Binding α) (side : Side) (slot : Nat) :
    (c.store b).term? side slot
      = if b.side = side ∧ b.slot = slot ∧ slot < (c.termsOf side).length then some (Binding.term b)
        else c.term? side slot := by
  unfold term?
  rw [termsOf_store]
  by_cases hside : b.side = side
  · rw [if_pos hside, List.getElem?_set]
    by_cases hslot : b.slot = slot
    · rw [if_pos hslot]
      by_cases hlt : slot < (c.termsOf side).length
      · rw [if_pos (hslot ▸ hlt), if_pos ⟨hside, hslot, hlt⟩]
        rfl
      · rw [if_neg (hslot ▸ hlt), if_neg fun h => hlt h.2.2,
          List.getElem?_eq_none (Nat.le_of_not_lt hlt)]
    · rw [if_neg hslot, if_neg fun h => hslot h.2.1]
  · rw [if_neg hside, if_neg fun h => hside h.1]

theorem sound_bindTerm (hc : c.Sound) {b : Binding α} (h : c.bindTerm b = .ok d) : d.Sound := by
  obtain ⟨hcheck, rfl⟩ := bindTerm_eq_ok h
  have hframe := frame_store c b
  refine ⟨isProperRange_of_map_range (congrArg Frame.inputs hframe) hc.inputs,
    isProperRange_of_map_range (congrArg Frame.outputs hframe) hc.outputs, ?_, ?_⟩
  · intro side slot t ht
    rw [term?_store] at ht
    split at ht
    · -- the new term, which has just been checked
      next h =>
      exact Admits.of_frame ⟨b, h.1, h.2.1, Option.some.inj ht, hcheck⟩ hframe
    · exact (hc.terms ht).of_frame hframe
  · rw [cycle_store]
    exact ⟨hc.fits.inputs.trans (length_variablesOf_congr hframe .input).symm,
      hc.fits.degrees.trans (length_termsOf_congr hframe .input).symm,
      hc.fits.activations.trans (length_termsOf_congr hframe .output).symm,
      hc.fits.sums.trans (length_variablesOf_congr hframe .output).symm⟩

theorem sound_choose (hc : c.Sound) {s : Setting} (h : c.choose s = .ok d) : d.Sound := by
  refine hc.of_keeps (keeps_choose h) ?_
  rcases choose_eq_ok h with ⟨n, -, -, rfl⟩ | ⟨norms, -, rfl⟩ <;> exact hc.fits

theorem sound_chooseMethod (hc : c.Sound) {m : Defuzzifier} (h : c.chooseMethod m = .ok d) :
    d.Sound := by
  refine hc.of_keeps (keeps_chooseMethod h) ?_
  obtain ⟨-, rfl⟩ := chooseMethod_eq_ok h
  exact hc.fits

theorem sound_setWeights (hc : c.Sound) {ws : List α} (h : c.setWeights ws = .ok d) :
    d.Sound := by
  refine hc.of_keeps (keeps_setWeights h) ?_
  obtain ⟨-, rfl⟩ := setWeights_eq_ok h
  exact hc.fits

theorem sound_clearWeights (hc : c.Sound) : c.clearWeights.Sound :=
  hc.of_keeps ⟨rfl, rfl, rfl⟩ hc.fits

theorem sound_setInput (hc : c.Sound) {tag : Nat} {x : α} (h : c.setInput tag x = .ok d) :
    d.Sound := by
  refine hc.of_keeps (keeps_setInput h) ?_
  obtain ⟨v, -, -, rfl⟩ := setInput_eq_ok h
  exact hc.fits

theorem sound_fuzzify (hc : c.Sound) (h : c.fuzzify = .ok d) : d.Sound := by
  refine hc.of_keeps (keeps_fuzzify h) ?_
  obtain ⟨hbound, values, degrees, hvalues, hdegrees, rfl⟩ := fuzzify_eq_ok h
  obtain ⟨terms, hterms⟩ := List.exists_eq_map_some hbound
  refine ⟨List.length_of_mapM_eq_some hvalues, ?_, hc.fits.activations, hc.fits.sums⟩
  have hlength := List.length_of_mapM_eq_some hdegrees
  rw [hterms, List.filterMap_map] at hlength
  show degrees.length = c.inputTerms.length
  rw [hterms, List.length_map, hlength]
  exact congrArg List.length (List.filterMap_some)

theorem sound_defuzzify (hc : c.Sound) (h : c.defuzzify = .ok d) : d.Sound := by
  refine hc.of_keeps (keeps_defuzzify h) ?_
  obtain ⟨-, outputs, -, rfl⟩ := defuzzify_eq_ok h
  exact hc.fits

/-! ## Inferring -/

/-- **A conclusion replaces findings** by as many. -/
theorem fits_conclude {x y : Cycle α} (hx : x.Fits c) {a : Atom} {strength : α}
    (h : d.conclude x a strength = some y) : y.Fits c := by
  rcases conclude_cases h with rfl | ⟨activation, -, rfl⟩ | ⟨sum, conclusion, -, -, rfl⟩
  · exact hx
  · exact ⟨hx.inputs, hx.degrees, (List.length_set ..).trans hx.activations, hx.sums⟩
  · exact ⟨hx.inputs, hx.degrees, hx.activations, (List.length_set ..).trans hx.sums⟩

/-- An event fired leaves as many findings as before, but for the strengths
of the rules. -/
theorem fits_fire {f g : Firing α} (hf : f.cycle.Fits c) {e : Event}
    (h : d.fire f e = some g) : g.cycle.Fits c := by
  cases e with
  | clause link a closes =>
    obtain ⟨degree, -, h⟩ := Option.bind_eq_some_iff.mp h
    split at h
    · cases h
      exact ⟨hf.inputs, hf.degrees, hf.activations, hf.sums⟩
    · cases h
      exact hf
  | conclusion a closes =>
    obtain ⟨cycle, hcycle, h⟩ := Option.bind_eq_some_iff.mp h
    have hcycle := fits_conclude hf hcycle
    split at h <;> cases h <;> exact hcycle
  | done =>
    cases h
    exact hf

theorem fits_fireItems {f : Firing α} (hf : f.cycle.Fits c) (items : List Cursor.Item) :
    (d.fireItems f items).2.cycle.Fits c :=
  fireItems_induction (P := fun g => g.cycle.Fits c) hf (fun _ _ _ hg h => fits_fire hg h) items

theorem fits_cleared {x : Cycle α} (hx : x.Fits c) : x.cleared.Fits c :=
  ⟨hx.inputs, hx.degrees, (List.length_map ..).trans hx.activations,
    (List.length_map ..).trans hx.sums⟩

/-- Taking back the findings leaves a sound controller sound. -/
theorem sound_cleared (hc : c.Sound) : c.cleared.Sound :=
  hc.of_keeps ⟨rfl, rfl, rfl⟩ (fits_cleared hc.fits)

theorem sound_infer (hc : c.Sound) (tokens : List Token) : (c.infer tokens).2.Sound := by
  have hfired := fits_fireItems (d := c.cleared) (f := ⟨c.cycle.cleared, 0, 0⟩)
    (fits_cleared hc.fits) (Stream.items c.bounds tokens)
  exact infer_induction hc fun _ => hc.of_keeps ⟨rfl, rfl, rfl⟩
    ⟨hfired.inputs, hfired.degrees, hfired.activations, hfired.sums⟩

/-! ## A whole cycle, and any command -/

theorem sound_runCycle (hc : c.Sound) (tokens : List Token) : (c.runCycle tokens).2.Sound :=
  runCycle_induction hc (fun _ h => sound_fuzzify hc h) (fun _ hd => sound_infer hd tokens)
    fun _ _ hd h => sound_defuzzify hd h

theorem sound_evaluate (hc : c.Sound) (tokens : List Token) (values : List α) :
    (c.evaluate tokens values).2.Sound :=
  evaluate_induction hc fun hlength _ =>
    sound_runCycle (hc.of_keeps (keeps_withInputs hlength) hc.fits) tokens

/-- **A command makes a sound controller of a sound one.** -/
theorem sound_perform (hc : c.Sound) (command : Command α) : (c.perform command).2.Sound := by
  cases command with
  | choose setting => exact settle_induction hc fun _ h => sound_choose hc h
  | chooseMethod method => exact settle_induction hc fun _ h => sound_chooseMethod hc h
  | bindTerm binding => exact settle_induction hc fun _ h => sound_bindTerm hc h
  | setWeights weights => exact settle_induction hc fun _ h => sound_setWeights hc h
  | clearWeights => exact sound_clearWeights hc
  | setInput tag value => exact settle_induction hc fun _ h => sound_setInput hc h
  | fuzzify => exact settle_induction hc fun _ h => sound_fuzzify hc h
  | infer tokens => exact sound_infer hc tokens
  | defuzzify => exact settle_induction hc fun _ h => sound_defuzzify hc h
  | evaluate tokens values => exact sound_evaluate hc tokens values

/-! ## Reachable controllers -/

/-- **A controller that has been set up and operated on.** -/
inductive Reachable : Controller α → Prop
  /-- A controller that has just been set up. -/
  | setup {style : Style} {inputs outputs : List (Variable α)} {inputSlots outputSlots : Nat}
    {c : Controller α} (h : setup style inputs outputs inputSlots outputSlots = .ok c) :
    Reachable c
  /-- A controller after one more command, whether it has succeeded or
  failed. -/
  | perform {c : Controller α} (hc : Reachable c) (command : Command α) :
    Reachable (c.perform command).2

/-- **Every reachable controller is sound.** -/
theorem Reachable.sound (hc : c.Reachable) : c.Sound := by
  induction hc with
  | setup h => exact sound_setup h
  | perform _ command ih => exact sound_perform ih command

/-- The controllers after a history are reachable. -/
theorem Reachable.after (hc : c.Reachable) (history : List (Command α)) :
    (c.after history).Reachable := by
  induction history generalizing c with
  | nil => exact hc
  | cons command history ih => exact ih (hc.perform command)

end Controller

end FuzzyInference
