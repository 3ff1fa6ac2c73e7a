import FuzzyInference.Proofs.Controller.Firing

/-!
# When a cycle goes through

A cycle can be stopped by what has not been done before it and by its rule
stream, and by nothing else. Where all terms of a sound controller are
bound, fuzzifying succeeds, and so does defuzzifying after an inference,
in every style and with every method; whether the inference in between
does depends on whether the stream is accepted
(`Controller.runCycle_of_accept`, `Controller.runCycle_of_reject`). Whether
it is accepted in turn depends on the terms and the frame of the
controller only, so the answer is the same in every cycle.
-/

namespace FuzzyInference

/-! ## Sampled curves -/

namespace Samples

variable {α : Type} [Scalar α]

/-- **Two sweeps meet.** Each step brings them closer by one sample and
takes one from either side, which leaves enough on both. -/
theorem exists_sweep {gap : Nat} (index : Nat) (before behind : α) {front back : List α}
    (hfront : gap < front.length) (hback : gap < back.length) :
    ∃ b, sweep gap index before behind front back = some b := by
  induction gap generalizing index before behind front back with
  | zero =>
    match front, hfront with
    | y :: front, _ => exact ⟨_, rfl⟩
  | succ gap ih =>
    match front, back, hfront, hback with
    | a :: front, b :: back, hfront, hback =>
      unfold sweep
      split
      · exact ih _ _ _ (Nat.lt_of_succ_lt_succ hfront) (Nat.lt_of_succ_lt hback)
      · exact ih _ _ _ (Nat.lt_of_succ_lt hfront) (Nat.lt_of_succ_lt_succ hback)

/-- The line that halves the area is always found, or known not to be
there. -/
theorem exists_bisector? (s : Samples α) : ∃ x, s.bisector? = some x := by
  unfold bisector?
  split
  · exact ⟨_, rfl⟩
  · next h =>
    have hpos : 0 < s.ys.length := List.length_pos_iff.mpr fun hnil => h (.inl hnil)
    have hgap : s.ys.length - 1 < s.ys.length := Nat.sub_lt hpos Nat.zero_lt_one
    obtain ⟨b, hb⟩ := exists_sweep 0 (0 : α) 0 hgap
      (show s.ys.length - 1 < s.ys.reverse.length by rwa [List.length_reverse])
    exact ⟨_, congrArg (Option.map s.halfway) hb⟩

end Samples

theorem Defuzzifier.exists_ofSamples? {α : Type} [Scalar α] (d : Defuzzifier) (s : Samples α) :
    ∃ x, d.ofSamples? s = some x := by
  cases d with
  | bisector => exact s.exists_bisector?
  | _ => exact ⟨_, rfl⟩

namespace Controller

variable {α : Type} [Scalar α] {c d : Controller α}

/-! ## Fuzzifying and defuzzifying -/

omit [Scalar α] in
/-- What stands in a table is bound in some place. -/
theorem exists_term?_of_mem {side : Side} {t : Term α} (h : some t ∈ c.termsOf side) :
    ∃ slot, c.term? side slot = some t := by
  obtain ⟨slot, hslot⟩ := List.mem_iff_getElem?.mp h
  exact ⟨slot, Option.join_eq_some_iff.mpr hslot⟩

variable [Scalar.IsOrdered α]

/-- **The inputs of a sound controller can be fuzzified** when all input terms
are bound. -/
theorem exists_fuzzify (hc : c.Sound) (hbound : ∀ slot ∈ c.inputTerms, slot ≠ none) :
    ∃ d, c.fuzzify = .ok d := by
  obtain ⟨values, hvalues, hlength⟩ := List.exists_mapM_eq_some (l := c.inputs)
    fun v hv => ⟨_, Variable.saturate?_of_isProperRange (hc.inputs v hv) v.value⟩
  obtain ⟨degrees, hdegrees, -⟩ := List.exists_mapM_eq_some (l := c.inputTerms.filterMap id)
    (f := inputDegree? (c.inputs.zipWith (fun v x => { v with value := x }) values)) (by
      -- a bound term has its coefficients, and its variable is there
      intro t ht
      obtain ⟨o, ho, hot⟩ := List.mem_filterMap.mp ht
      cases hot
      have hbound : some t ∈ c.termsOf .input := ho
      obtain ⟨slot, hslot⟩ := exists_term?_of_mem hbound
      have hadmits := hc.terms hslot
      have hlt : t.owner < (c.inputs.zipWith (fun v x => { v with value := x }) values).length := by
        rw [List.length_zipWith, hlength, Nat.min_self]
        exact hadmits.owner_lt
      obtain ⟨y, hy⟩ := Term.exists_degree? hadmits.supplied _ _ _
      refine ⟨y, Option.bind_eq_some_iff.mpr ⟨_, List.getElem?_eq_getElem hlt, hy⟩⟩)
  exact ⟨_, fuzzify_of_mapM hbound hvalues hdegrees⟩

omit [Scalar.IsOrdered α] in
/-- **The curve of an output** has a value at every point. -/
theorem exists_curve? (hc : c.Sound) {output : Nat} (hlt : output < c.outputs.length) (x : α) :
    ∃ y, c.curve? output x = some y := by
  unfold curve?
  rw [List.getElem?_eq_getElem hlt]
  refine List.exists_foldlM_eq_some ?_ 0
  rintro ⟨slot, activation⟩ hmem y
  cases slot with
  | none => exact ⟨y, rfl⟩
  | some t =>
    have hbound : some t ∈ c.termsOf .output := (List.of_mem_zip hmem).1
    obtain ⟨slot, hslot⟩ := exists_term?_of_mem hbound
    by_cases howner : t.owner ≠ output
    · exact ⟨y, if_pos howner⟩
    · obtain ⟨degree, hdegree⟩ := Term.exists_degree? (hc.terms hslot).supplied x
        c.outputs[output].lower c.outputs[output].upper
      simp only [unite?, if_neg howner]
      exact ⟨_, Option.bind_eq_some_iff.mpr ⟨degree, hdegree, rfl⟩⟩

omit [Scalar.IsOrdered α] in
/-- **An output has a crisp value**, be it a number or not. -/
theorem exists_crisp? (hc : c.Sound) {output : Nat} (hlt : output < c.outputs.length)
    (v : Variable α) : ∃ x, c.crisp? output v = some x := by
  have hsum : ∃ x, (do
      let sum ← c.cycle.sums[output]?
      return c.defuzzifier.ofWeighted sum.weighted sum.weight) = some x := by
    have hlt : output < c.cycle.sums.length := hc.fits.sums ▸ hlt
    rw [List.getElem?_eq_getElem hlt]
    exact ⟨_, rfl⟩
  unfold crisp?
  cases c.style with
  | mamdani =>
    -- every sample can be taken, and every method has an answer for samples
    obtain ⟨ys, hys, -⟩ := List.exists_mapM_eq_some (l := List.range (c.evalPoints + 1))
      (f := fun k : Nat => c.curve? output (v.lower + c.resolution v * (k : α)))
      fun k _ => exists_curve? hc hlt _
    obtain ⟨x, hx⟩ := c.defuzzifier.exists_ofSamples? ⟨ys, v.lower, c.resolution v⟩
    refine ⟨x, Option.bind_eq_some_iff.mpr ⟨_, ?_, hx⟩⟩
    exact Option.bind_eq_some_iff.mpr ⟨ys, hys, rfl⟩
  | sugeno => exact hsum
  | tsukamoto => exact hsum

/-- **The outputs of a sound controller can be defuzzified** when an inference
has been made. -/
theorem exists_defuzzify (hc : c.Sound) (hinferred : c.cycle.inferred = true) :
    ∃ d, c.defuzzify = .ok d := by
  obtain ⟨outputs, houtputs, -⟩ := List.exists_mapM_eq_some (l := c.outputs.zipIdx)
    (f := c.defuzzified?) (by
      rintro ⟨v, output⟩ hmem
      have hv := List.mem_zipIdx_iff_getElem?.mp hmem
      obtain ⟨crisp, hcrisp⟩ := exists_crisp? hc (List.getElem?_eq_some_iff.mp hv).1 v
      have hproper := hc.outputs v (List.mem_of_getElem? hv)
      have hvalue := Variable.saturateFinite?_of_isProperRange hproper crisp
      exact ⟨_, Option.bind_eq_some_iff.mpr
        ⟨crisp, hcrisp, Option.bind_eq_some_iff.mpr ⟨_, hvalue, rfl⟩⟩⟩)
  unfold defuzzify
  rw [hinferred]
  exact ⟨_, Except.bind_eq_ok_iff.mpr ⟨outputs, Fault.found_eq_ok_iff.mpr houtputs, rfl⟩⟩

/-! ## The inference in between -/

omit [Scalar α] [Scalar.IsOrdered α] in
/-- **Whether a stream is accepted** is a question to the terms and the frame
of a controller. -/
theorem accept_congr (h : c.Keeps d) (tokens : List Token) : d.accept tokens = c.accept tokens := by
  have hobjection (side : Side) (a : Atom) : d.objection? side a = c.objection? side a := by
    unfold objection?
    rw [h.term?]
  have hevent (position : Nat) (e : Event) :
      d.acceptEvent position e = c.acceptEvent position e := by
    unfold acceptEvent
    simp only [hobjection, show d.style = c.style from congrArg Frame.style h.frame]
  have hitem : d.acceptItem = c.acceptItem := by
    funext i
    cases i with
    | error f => rfl
    | ok p => exact hevent p.1 p.2
  unfold accept
  rw [bounds_congr h.frame, hitem]

/-- **An inference is made** from a stream that is accepted. -/
theorem exists_infer (hc : c.Sound) (hfuzzified : c.cycle.fuzzified = true)
    (hbound : c.outputTerms.any Option.isNone = false) {w : Width} {s : RuleStream w}
    (haccept : c.accept s.tokens = .ok ()) :
    ∃ rules d, c.infer s.tokens = (.ok rules, d) ∧ d.cycle.inferred = true := by
  obtain ⟨rules, hbegins, htakes⟩ := accept_eq_ok_iff.mp haccept
  have hinfer := infer_eq_fireStream hfuzzified hbound haccept
  exact ⟨_, _, hinfer.trans (fireStream_of_begins (sound_cleared hc) hbegins htakes), rfl⟩

omit [Scalar.IsOrdered α] in
/-- The outputs are bound after fuzzifying if they were before. -/
theorem ready_of_fuzzify (houtputs : ∀ slot ∈ c.outputTerms, slot ≠ none)
    (h : c.fuzzify = .ok d) :
    d.cycle.fuzzified = true ∧ d.outputTerms.any Option.isNone = false := by
  constructor
  · obtain ⟨-, values, degrees, -, -, rfl⟩ := fuzzify_eq_ok h
    rfl
  · rw [(keeps_fuzzify h).outputTerms]
    exact List.any_isNone_eq_false houtputs

/-- **A cycle goes through** when the stream is accepted. -/
theorem runCycle_of_accept (hc : c.Sound) (hinputs : ∀ slot ∈ c.inputTerms, slot ≠ none)
    (houtputs : ∀ slot ∈ c.outputTerms, slot ≠ none) {w : Width} {s : RuleStream w}
    (haccept : c.accept s.tokens = .ok ()) : ∃ rules d, c.runCycle s.tokens = (.ok rules, d) := by
  obtain ⟨fuzzified, hfuzzify⟩ := exists_fuzzify hc hinputs
  obtain ⟨hready, hbound⟩ := ready_of_fuzzify houtputs hfuzzify
  have hsound := sound_fuzzify hc hfuzzify
  have haccepted : fuzzified.accept s.tokens = .ok () := by
    rw [accept_congr (keeps_fuzzify hfuzzify)]
    exact haccept
  obtain ⟨rules, inferred, hinfer, hdone⟩ := exists_infer hsound hready hbound haccepted
  have hinferred := sound_infer hsound s.tokens
  rw [hinfer] at hinferred
  obtain ⟨defuzzified, hdefuzzify⟩ := exists_defuzzify hinferred hdone
  refine ⟨rules, defuzzified, ?_⟩
  simp only [runCycle, hfuzzify, hinfer, hdefuzzify]

/-- **A cycle is stopped** when the stream is refused. -/
theorem runCycle_of_reject (hc : c.Sound) (hinputs : ∀ slot ∈ c.inputTerms, slot ≠ none)
    (houtputs : ∀ slot ∈ c.outputTerms, slot ≠ none) {tokens : List Token} {f : StreamFault}
    (hreject : c.accept tokens = .error f) :
    ∃ d, c.runCycle tokens = (.error (.malformed f), d) := by
  obtain ⟨fuzzified, hfuzzify⟩ := exists_fuzzify hc hinputs
  obtain ⟨hready, hbound⟩ := ready_of_fuzzify houtputs hfuzzify
  have hrejected : fuzzified.accept tokens = .error f := by
    rw [accept_congr (keeps_fuzzify hfuzzify)]
    exact hreject
  have hinfer : fuzzified.infer tokens = (.error (.malformed f), fuzzified) := by
    rw [infer, hready, hbound, hrejected]
    rfl
  refine ⟨fuzzified, ?_⟩
  simp only [runCycle, hfuzzify, hinfer]

end Controller

end FuzzyInference
