import FuzzyInference.Proofs.Controller.Cycle

/-!
# What a curve depends on

While the outputs are given their crisp values one after the other, curves
are read from a controller whose outputs are being written to. All that a
curve takes from the outputs is the universe of its own, though
(`Controller.curve?_outputs`), and no crisp value changes that. So
controllers that are the same but for what their outputs hold
(`Controller.UpToOutputs`) have the same curves and are defuzzified alike,
and the one that has just been defuzzified is among them.
-/

/-- Two values that may not be there and look the same. -/
theorem Option.none_or_some_of_map_eq {α β : Type} {f : α → β} {o o' : Option α}
    (h : o.map f = o'.map f) :
    o = none ∧ o' = none ∨ ∃ a a', o = some a ∧ o' = some a' ∧ f a = f a' := by
  cases o' with
  | none => exact .inl ⟨Option.map_eq_none_iff.mp h, rfl⟩
  | some a' =>
    obtain ⟨a, ha, heq⟩ := Option.map_eq_some_iff.mp h
    exact .inr ⟨a, a', ha, rfl, heq⟩

namespace FuzzyInference

namespace Controller

variable {α : Type} [Scalar α] {c d : Controller α}

/-! ## Other outputs in the same universes -/

section Outputs

variable {outputs : List (Variable α)} {output : Nat} {v w : Variable α}

/-- **A term is united with a curve** over the universe of the output. -/
theorem unite?_congr (h : w.range = v.range) (x y : α) (slot : Option (Term α) × Activation α) :
    c.unite? output w x y slot = c.unite? output v x y slot := by
  obtain ⟨hlower, hupper⟩ := Prod.mk.inj h
  obtain ⟨_ | t, activation⟩ := slot
  · rfl
  · simp only [unite?, hlower, hupper]

theorem resolution_congr (h : w.range = v.range) : c.resolution w = c.resolution v := by
  obtain ⟨hlower, hupper⟩ := Prod.mk.inj h
  unfold resolution Variable.span
  rw [hlower, hupper]

variable (h : outputs[output]?.map Variable.range = c.outputs[output]?.map Variable.range)

include h

/-- **The curve of an output** takes nothing from the outputs but its own
universe. -/
theorem curve?_outputs (x : α) :
    ({ c with outputs := outputs } : Controller α).curve? output x = c.curve? output x := by
  show (outputs[output]? >>= _) = c.outputs[output]? >>= _
  rcases Option.none_or_some_of_map_eq h with ⟨hw, hv⟩ | ⟨w, v, hw, hv, hrange⟩
  · rw [hw, hv]
    rfl
  · have hunite : c.unite? output w x = c.unite? output v x :=
      funext fun y => funext fun slot => unite?_congr hrange x y slot
    rw [hw, hv]
    show List.foldlM (c.unite? output w x) 0 _ = List.foldlM (c.unite? output v x) 0 _
    rw [hunite]

theorem samples?_outputs (hrange : w.range = v.range) :
    ({ c with outputs := outputs } : Controller α).samples? output w = c.samples? output v := by
  have hstep : ({ c with outputs := outputs } : Controller α).resolution w = c.resolution v :=
    resolution_congr hrange
  unfold samples?
  simp only [curve?_outputs h, hstep, (Prod.mk.inj hrange).1]

theorem crisp?_outputs (hrange : w.range = v.range) :
    ({ c with outputs := outputs } : Controller α).crisp? output w = c.crisp? output v := by
  unfold crisp?
  rw [samples?_outputs h hrange]

/-- **The crisp value of an output** does not depend on what the outputs hold,
that one among them. -/
theorem defuzzified?_outputs (hrange : w.range = v.range) :
    ({ c with outputs := outputs } : Controller α).defuzzified? (w, output)
      = c.defuzzified? (v, output) := by
  obtain ⟨hlower, hupper⟩ := Prod.mk.inj hrange
  unfold defuzzified? Variable.saturateFinite? Variable.saturate?
  simp only [crisp?_outputs h hrange, hlower, hupper]

end Outputs

/-- **Controllers that are the same but for what their outputs hold.** -/
def UpToOutputs (c d : Controller α) : Prop :=
  ∃ outputs : List (Variable α), outputs.map Variable.range = c.outputs.map Variable.range ∧
    d = { c with outputs := outputs }

namespace UpToOutputs

omit [Scalar α] in
theorem refl (c : Controller α) : c.UpToOutputs c := ⟨c.outputs, rfl, rfl⟩

omit [Scalar α] in
theorem keeps (h : c.UpToOutputs d) : c.Keeps d := by
  obtain ⟨outputs, houtputs, rfl⟩ := h
  refine ⟨?_, rfl, rfl⟩
  unfold frame
  rw [houtputs]

theorem of_defuzzify (h : c.defuzzify = .ok d) : c.UpToOutputs d := by
  have houtputs := congrArg Frame.outputs (keeps_defuzzify h).frame
  obtain ⟨-, outputs, -, rfl⟩ := defuzzify_eq_ok h
  exact ⟨outputs, houtputs, rfl⟩

omit [Scalar α] in
theorem range (h : c.UpToOutputs d) (output : Nat) :
    d.outputs[output]?.map Variable.range = c.outputs[output]?.map Variable.range := by
  obtain ⟨outputs, houtputs, rfl⟩ := h
  have hplace := congrArg (·[output]?) houtputs
  simpa only [List.getElem?_map] using hplace

omit [Scalar α] in
/-- An output and its universe, before and after. -/
theorem exists_output (h : c.UpToOutputs d) {output : Nat} {v : Variable α}
    (hv : c.outputs[output]? = some v) :
    ∃ w, d.outputs[output]? = some w ∧ w.range = v.range := by
  have hrange := h.range output
  rw [hv, Option.map_some] at hrange
  exact Option.map_eq_some_iff.mp hrange

omit [Scalar α] in
theorem style (h : c.UpToOutputs d) : d.style = c.style := congrArg Frame.style h.keeps.frame

omit [Scalar α] in
theorem evalPoints (h : c.UpToOutputs d) : d.evalPoints = c.evalPoints := by
  obtain ⟨outputs, -, rfl⟩ := h
  rfl

theorem sound (h : c.UpToOutputs d) (hc : c.Sound) : d.Sound := by
  have hkeeps := h.keeps
  obtain ⟨outputs, -, rfl⟩ := h
  exact hc.of_keeps hkeeps hc.fits

omit [Scalar α] in
theorem length (h : c.UpToOutputs d) : d.outputs.length = c.outputs.length :=
  length_variablesOf_congr h.keeps.frame .output

theorem curve? (h : c.UpToOutputs d) (output : Nat) (x : α) :
    d.curve? output x = c.curve? output x := by
  have hrange := h.range output
  obtain ⟨outputs, -, rfl⟩ := h
  exact curve?_outputs hrange x

theorem samples? (h : c.UpToOutputs d) (output : Nat) {v w : Variable α}
    (hvw : w.range = v.range) : d.samples? output w = c.samples? output v := by
  have hrange := h.range output
  obtain ⟨outputs, -, rfl⟩ := h
  exact samples?_outputs hrange hvw

theorem defuzzified? (h : c.UpToOutputs d) (output : Nat) {v w : Variable α}
    (hvw : w.range = v.range) : d.defuzzified? (w, output) = c.defuzzified? (v, output) := by
  have hrange := h.range output
  obtain ⟨outputs, -, rfl⟩ := h
  exact defuzzified?_outputs hrange hvw

omit [Scalar α] in
theorem requireCurve (h : c.UpToOutputs d) (output : Nat) :
    d.requireCurve output = c.requireCurve output := by
  have hlength := h.length
  obtain ⟨outputs, -, rfl⟩ := h
  unfold Controller.requireCurve
  rw [hlength]

/-- **The curve of an output** can be read from either. -/
theorem curve (h : c.UpToOutputs d) (output : Nat) (x : α) :
    d.curve output x = c.curve output x := by
  unfold Controller.curve
  rw [h.requireCurve, h.curve?]

/-- **So can its region.** -/
theorem region (h : c.UpToOutputs d) (output : Nat) : d.region output = c.region output := by
  have hlength := h.requireCurve output
  have hcurve := h.curve? output
  have hrange := h.range output
  obtain ⟨outputs, -, rfl⟩ := h
  unfold Controller.region
  simp only [hcurve]
  rw [hlength]
  refine bind_congr fun _ => ?_
  show (Fault.found outputs[output]? >>= _) = Fault.found c.outputs[output]? >>= _
  rcases Option.none_or_some_of_map_eq hrange with ⟨hw, hv⟩ | ⟨w, v, hw, hv, hrange⟩
  · rw [hw, hv]
    rfl
  · have hstep : ({ c with outputs := outputs } : Controller α).resolution w = c.resolution v :=
      resolution_congr hrange
    rw [hw, hv]
    show List.mapM _ _ = List.mapM _ _
    rw [hstep, (Prod.mk.inj hrange).1]

/-- **They are defuzzified alike**, to the same controller. -/
theorem defuzzify (h : c.UpToOutputs d) : d.defuzzify = c.defuzzify := by
  have hplaces : d.outputs.zipIdx.map d.defuzzified? = c.outputs.zipIdx.map c.defuzzified? := by
    refine List.ext_getElem? fun output => ?_
    simp only [List.getElem?_map, List.getElem?_zipIdx, Option.map_map, Nat.zero_add]
    rcases Option.none_or_some_of_map_eq (h.range output) with ⟨hw, hv⟩ | ⟨w, v, hw, hv, hvw⟩
    · rw [hw, hv]
      rfl
    · rw [hw, hv]
      exact congrArg some (h.defuzzified? output hvw)
  have hmapM : d.outputs.zipIdx.mapM d.defuzzified? = c.outputs.zipIdx.mapM c.defuzzified? :=
    Option.ext fun outputs => by
      rw [List.mapM_eq_some_iff, List.mapM_eq_some_iff, hplaces]
  obtain ⟨outputs, -, rfl⟩ := h
  unfold Controller.defuzzify
  rw [hmapM]

end UpToOutputs

end Controller

end FuzzyInference
