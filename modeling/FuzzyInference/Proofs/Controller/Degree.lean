import FuzzyInference.Proofs.Controller.RuleOrder

/-!
# Degrees stay degrees

A shape may answer any number at all, a function of the user's own even more so,
and weights may be given that are no degrees. Still, what a controller finds in
exact arithmetic are degrees at all times: the strengths of the rules, the
activations of the terms, and the curves that are made of them
(`Controller.isDegree_of_reachable`).

The reason is that everything is saturated where it enters the findings: a degree
when a statement of a premise is looked at, a weight when a rule is weighted, and
what a norm makes of two degrees before anything else is done with it. So one
event that is fired leaves findings of this kind when it has met such
(`Controller.graded_fire`), and by induction so does a stream. No other operation
touches these findings, and the sums of the other styles grow with every
conclusion that is added to them.
-/

namespace FuzzyInference

/-- **Findings that are degrees** where they have to be. -/
structure Cycle.Graded (x : Cycle ℝ) : Prop where
  /-- The strengths of the rules are degrees. -/
  strengths : ∀ strength ∈ x.strengths, IsDegree strength
  /-- So are the activations of the terms, by either kind of conclusion. -/
  activations : ∀ a ∈ x.activations, IsDegree a.direct ∧ IsDegree a.negated
  /-- No sum of strengths is below zero. -/
  sums : ∀ sum ∈ x.sums, 0 ≤ sum.weight

namespace Controller

variable {c d : Controller ℝ} {x y : Cycle ℝ}

/-! ## One event -/

/-- **The strength of a premise** has been saturated after every statement. -/
theorem isDegree_joinDegree (norms : Norms) (link : Option Connective) (strength degree : ℝ) :
    IsDegree (joinDegree norms link strength degree) := by
  cases link with
  | none => exact Norm.isDegree_apply .boundedSum 0 degree
  | some k => exact Norm.isDegree_apply (norms.joining k) strength degree

theorem isDegree_raise {a : Activation ℝ} (ha : IsDegree a.direct ∧ IsDegree a.negated)
    (aggregation : Norm) (negated : Bool) (strength : ℝ) :
    IsDegree (Activation.raise a aggregation negated strength).direct ∧
      IsDegree (Activation.raise a aggregation negated strength).negated := by
  cases negated with
  | true => exact ⟨ha.1, Norm.isDegree_apply _ _ _⟩
  | false => exact ⟨Norm.isDegree_apply _ _ _, ha.2⟩

/-- **A conclusion** raises an activation to a degree, or adds a strength above
zero to a sum. -/
theorem graded_conclude (hx : x.Graded) {a : Atom} {strength : ℝ}
    (h : c.conclude x a strength = some y) : y.Graded := by
  rcases conclude_cases h with
    rfl | ⟨activation, hactivation, rfl⟩ | ⟨sum, conclusion, hpos, hsum, rfl⟩
  · exact hx
  · refine ⟨hx.strengths, fun b hb => ?_, hx.sums⟩
    rcases List.mem_or_eq_of_mem_set hb with hb | rfl
    · exact hx.activations b hb
    · exact isDegree_raise (hx.activations activation (List.mem_of_getElem? hactivation)) _ _ _
  · refine ⟨hx.strengths, hx.activations, fun b hb => ?_⟩
    rcases List.mem_or_eq_of_mem_set hb with hb | rfl
    · exact hx.sums b hb
    · exact add_nonneg (hx.sums sum (List.mem_of_getElem? hsum)) hpos.le

/-- **An event leaves degrees** when it has met degrees. -/
theorem graded_fire {f g : Firing ℝ} {e : Event} (hf : f.cycle.Graded)
    (h : c.fire f e = some g) : g.cycle.Graded := by
  cases e with
  | clause link a closes =>
    obtain ⟨degree, -, h⟩ := Option.bind_eq_some_iff.mp h
    split at h
    · -- the premise closes, and its strength is weighted
      cases h
      refine ⟨fun strength hmem => ?_, hf.activations, hf.sums⟩
      rcases List.mem_append.mp hmem with hmem | hmem
      · exact hf.strengths strength hmem
      · rw [List.mem_singleton.mp hmem]
        exact (isDegree_joinDegree _ _ _ _).mul
          (Scalar.isDegree_iff.mp (isDegree_weight (numeric_real c) _))
    · cases h
      exact hf
  | conclusion a closes =>
    obtain ⟨cycle, hcycle, h⟩ := Option.bind_eq_some_iff.mp h
    have hgraded := graded_conclude hf hcycle
    split at h <;> cases h <;> exact hgraded
  | done =>
    cases h
    exact hf

/-! ## A stream -/

/-- Nothing has been found yet. -/
theorem graded_cleared (x : Cycle ℝ) : x.cleared.Graded where
  strengths _ h := absurd h List.not_mem_nil
  activations a h := by
    obtain ⟨-, -, rfl⟩ := List.mem_map.mp h
    exact ⟨.zero, .zero⟩
  sums sum h := by
    obtain ⟨-, -, rfl⟩ := List.mem_map.mp h
    exact le_rfl

/-- **A stream leaves degrees**, whether it is accepted or not. -/
theorem graded_infer (hc : c.cycle.Graded) (tokens : List Token) :
    (c.infer tokens).2.cycle.Graded := by
  have hfired := fireItems_induction (c := c.cleared) (P := fun g => g.cycle.Graded)
    (f := ⟨c.cycle.cleared, 0, 0⟩) (graded_cleared c.cycle)
    (fun _ _ _ hg hfire => graded_fire hg hfire) (Stream.items c.bounds tokens)
  exact infer_induction (P := fun d => d.cycle.Graded) hc fun _ =>
    ⟨hfired.strengths, hfired.activations, hfired.sums⟩

/-! ## A history -/

theorem graded_fuzzify (hc : c.cycle.Graded) (h : c.fuzzify = .ok d) : d.cycle.Graded := by
  obtain ⟨-, values, degrees, -, -, rfl⟩ := fuzzify_eq_ok h
  exact ⟨hc.strengths, hc.activations, hc.sums⟩

theorem graded_defuzzify (hc : c.cycle.Graded) (h : c.defuzzify = .ok d) : d.cycle.Graded := by
  obtain ⟨-, outputs, -, rfl⟩ := defuzzify_eq_ok h
  exact hc

theorem graded_runCycle (hc : c.cycle.Graded) (tokens : List Token) :
    (c.runCycle tokens).2.cycle.Graded :=
  runCycle_induction (P := fun d => d.cycle.Graded) hc (fun _ h => graded_fuzzify hc h)
    (fun _ hd => graded_infer hd tokens) fun _ _ hd h => graded_defuzzify hd h

/-- **A command leaves degrees** when it has met degrees. -/
theorem graded_perform (hc : c.cycle.Graded) (command : Command ℝ) :
    (c.perform command).2.cycle.Graded := by
  have hsettle {r : Except (Fault ℝ) (Controller ℝ)} (h : ∀ d, r = .ok d → d.cycle.Graded) :
      (c.settle r).2.cycle.Graded := settle_induction (P := fun d => d.cycle.Graded) hc h
  cases command with
  | choose setting =>
    refine hsettle fun d h => ?_
    rcases choose_eq_ok h with ⟨n, -, -, rfl⟩ | ⟨norms, -, rfl⟩ <;> exact hc
  | chooseMethod method =>
    refine hsettle fun d h => ?_
    rw [(chooseMethod_eq_ok h).2]
    exact hc
  | bindTerm binding =>
    refine hsettle fun d h => ?_
    rw [(bindTerm_eq_ok h).2, cycle_store]
    exact hc
  | setWeights weights =>
    refine hsettle fun d h => ?_
    rw [(setWeights_eq_ok h).2]
    exact hc
  | clearWeights => exact hc
  | setInput tag value =>
    refine hsettle fun d h => ?_
    obtain ⟨v, -, -, rfl⟩ := setInput_eq_ok h
    exact hc
  | fuzzify => exact hsettle fun d h => graded_fuzzify hc h
  | infer tokens => exact graded_infer hc tokens
  | defuzzify => exact hsettle fun d h => graded_defuzzify hc h
  | evaluate tokens values =>
    exact evaluate_induction (P := fun d => d.cycle.Graded) hc fun _ _ =>
      graded_runCycle (c := c.withInputs values) hc tokens

theorem graded_setup {style : Style} {inputs outputs : List (Variable ℝ)}
    {inputSlots outputSlots : Nat} (h : setup style inputs outputs inputSlots outputSlots = .ok c) :
    c.cycle.Graded := by
  obtain ⟨values, rfl⟩ := eq_of_setup h
  refine ⟨fun strength hmem => absurd hmem List.not_mem_nil, fun a ha => ?_, fun sum hsum => ?_⟩
  · rw [List.eq_of_mem_replicate ha]
    exact ⟨.zero, .zero⟩
  · obtain ⟨-, -, rfl⟩ := List.mem_map.mp hsum
    exact le_rfl

/-- **What a reachable controller has found** are degrees. -/
theorem Reachable.graded (hc : c.Reachable) : c.cycle.Graded := by
  induction hc with
  | setup h => exact graded_setup h
  | perform _ command ih => exact graded_perform ih command

/-! ## Curves -/

/-- **The curve of an output** runs between zero and one, whatever its terms are:
it begins at zero, and each piece is united with it by a norm. -/
theorem isDegree_curve? {output : Nat} {z w : ℝ} (h : c.curve? output z = some w) :
    IsDegree w := by
  obtain ⟨v, -, h⟩ := Option.bind_eq_some_iff.mp h
  refine List.foldlM_eq_some_induction h .zero ?_
  rintro ⟨slot, activation⟩ - y y' hy hunite
  cases slot with
  | none =>
    cases hunite
    exact hy
  | some t =>
    by_cases howner : t.owner ≠ output
    · rw [unite?, if_pos howner] at hunite
      cases hunite
      exact hy
    · rw [unite?, if_neg howner] at hunite
      obtain ⟨degree, -, hunite⟩ := Option.bind_eq_some_iff.mp hunite
      cases hunite
      exact Norm.isDegree_apply _ _ _

/-- **A degree of truth is never outside of the unit interval.** In exact
arithmetic, and at any time, so after every stream that has been accepted, the
strengths of the rules and the activations of the terms of a controller lie there,
no sum of strengths is below zero, and in a Mamdani system the curve of every
output has a value in the interval at every point. Nothing is asked of the terms,
of the functions of the user's own or of the weights. -/
theorem isDegree_of_reachable (hc : c.Reachable) :
    (∀ strength ∈ c.cycle.strengths, IsDegree strength) ∧
    (∀ a ∈ c.cycle.activations, IsDegree a.direct ∧ IsDegree a.negated) ∧
    (∀ sum ∈ c.cycle.sums, 0 ≤ sum.weight) ∧
    (c.style = .mamdani → ∀ output < c.outputs.length, ∀ z,
      ∃ w, c.curve output z = .ok w ∧ IsDegree w) := by
  refine ⟨hc.graded.strengths, hc.graded.activations, hc.graded.sums, ?_⟩
  intro hstyle output hlt z
  obtain ⟨w, hw⟩ := exists_curve? hc.sound hlt z
  have hrequire : c.requireCurve output = .ok () := by
    rw [requireCurve, if_neg (not_not_intro hstyle), if_neg (Nat.not_le_of_lt hlt)]
  refine ⟨w, ?_, isDegree_curve? hw⟩
  exact Except.bind_eq_ok_iff.mpr ⟨(), hrequire, Fault.found_eq_ok_iff.mpr hw⟩

/-- A term of the input that every value has sevenfold. -/
def excessive : Binding ℝ := ⟨.input, 0, 0, .custom ⟨"excessive", fun _ _ => 7⟩, [], 1⟩

/-- A term of the output that is below zero almost everywhere. -/
def deficient : Binding ℝ := ⟨.output, 0, 0, .custom ⟨"deficient", fun s _ => -s.x⟩, [], 1⟩

/-- A Mamdani controller of one input and one output. -/
def unshaped : Controller ℝ := { unsloped with style := .mamdani, defuzzifier := .centroid }

/-- The controller when its terms have been bound, and the first rule counts six
times. -/
noncomputable def shaped : Controller ℝ :=
  { (unshaped.store excessive).store deficient with weights := some [6] }

/-- The controller when its input has been fuzzified. -/
noncomputable def exaggerating : Controller ℝ :=
  { shaped with cycle := { shaped.cycle with degrees := [7], fuzzified := true } }

theorem fuzzify_shaped : shaped.fuzzify = .ok exaggerating := by
  have hdegree : inputDegree? [(⟨0, 1, 0⟩ : Variable ℝ)] (Binding.term excessive) = some 7 := by
    simp [inputDegree?, Term.degree?, excessive, Binding.term, Real.clampUnit_of_isDegree .one]
  have hvalues : [(⟨0, 1, 0⟩ : Variable ℝ)].mapM (fun v => v.saturate? v.value) = some [0] :=
    List.mapM_eq_some_iff.mpr (congrArg ([·]) saturate?_zero)
  have hdegrees : [Binding.term excessive].mapM (inputDegree? [(⟨0, 1, 0⟩ : Variable ℝ)])
      = some [7] := List.mapM_eq_some_iff.mpr (congrArg ([·]) hdegree)
  exact fuzzify_of_mapM (c := shaped)
    (by simp [shaped, unshaped, store, excessive, deficient, unsloped]) hvalues hdegrees

theorem reachable_exaggerating : exaggerating.Reachable := by
  have hinput : unshaped.bindTerm excessive = .ok (unshaped.store excessive) :=
    bindTerm_of_admissible ⟨Nat.one_pos, Nat.one_pos, rfl, fun shape h => (by cases h), le_rfl,
      fun p _ => le_rfl, fun shape h => (by cases h)⟩
  have houtput : (unshaped.store excessive).bindTerm deficient
      = .ok ((unshaped.store excessive).store deficient) :=
    bindTerm_of_admissible ⟨Nat.one_pos, Nat.one_pos, rfl, fun shape h => (by cases h), le_rfl,
      fun p _ => le_rfl, fun shape h => (by cases h)⟩
  have hweights : ((unshaped.store excessive).store deficient).setWeights [6] = .ok shaped := by
    simp [setWeights, shaped]
  have hafter : unshaped.after [.bindTerm excessive, .bindTerm deficient, .setWeights [6], .fuzzify]
      = exaggerating := by
    simp only [after, List.foldl_cons, List.foldl_nil, perform, hinput, houtput, hweights,
      fuzzify_shaped, settle]
  rw [← hafter]
  exact (Reachable.setup (setup_unsloped .mamdani)).after _

theorem strengthsFrom_exaggerating : exaggerating.strengthsFrom 0 slopeRule = [1] := by
  have hseven : Scalar.clampUnit (7 : ℝ) = 1 := by
    rw [Real.clampUnit_of_nonneg (by norm_num), min_eq_right (by norm_num)]
  have hsix : Scalar.clampUnit (6 : ℝ) = 1 := by
    rw [Real.clampUnit_of_nonneg (by norm_num), min_eq_right (by norm_num)]
  have hstrength : Scalar.clampUnit (0 + Scalar.clampUnit (7 : ℝ)) * Scalar.clampUnit 6 = 1 := by
    rw [hseven, hsix, zero_add, Real.clampUnit_of_isDegree .one, mul_one]
  exact congrArg ([·]) hstrength

/-- The strength of a rule is one, though seven times six would be more, and the
curve stays above zero, though the term does not. -/
theorem isDegree_of_reachable_exaggerating :
    ∃ d, exaggerating.infer slopeStream.tokens = (.ok 1, d) ∧ d.cycle.strengths = [1] ∧
      (∀ strength ∈ d.cycle.strengths, IsDegree strength) ∧
      (∀ a ∈ d.cycle.activations, IsDegree a.direct ∧ IsDegree a.negated) ∧
      ∃ w, d.curve 0 3 = .ok w ∧ IsDegree w := by
  have hs : RuleStream.encode .bits8 slopeRule = .ok slopeStream := rfl
  have hbound : ∀ slot ∈ exaggerating.outputTerms, slot ≠ none :=
    List.forall_mem_singleton.mpr (Option.some_ne_none _)
  have haccept : exaggerating.accept slopeStream.tokens = .ok () :=
    accept_slope rfl ⟨_, rfl, rfl⟩ ⟨_, rfl, rfl⟩
  have hinfer := infer_of_accept reachable_exaggerating.sound rfl hbound hs haccept
  have hreachable := reachable_exaggerating.perform (.infer slopeStream.tokens)
  rw [perform, hinfer] at hreachable
  obtain ⟨hstrengths, hactivations, -, hcurve⟩ := isDegree_of_reachable hreachable
  exact ⟨_, hinfer, strengthsFrom_exaggerating, hstrengths, hactivations,
    hcurve rfl 0 Nat.one_pos 3⟩

end Controller

end FuzzyInference
