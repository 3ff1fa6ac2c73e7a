import FuzzyInference.Proofs.Controller.Count
import FuzzyInference.Proofs.Controller.Exact
import FuzzyInference.Proofs.Controller.Isolation
import FuzzyInference.Proofs.Controller.Strength
import FuzzyInference.Proofs.Defuzzify.Exact

/-!
# Outputs that nothing is said about

If no rule that has some strength says anything about an output, then the
output has no value after defuzzifying, and asking for it is answered by a
fault: `Controller.noActivation_of_silent`. This is a statement of exact
arithmetic. The rules that do speak of the output have the strength zero; zero
raises no activation (`Norm.apply_zero_zero`) and cuts every curve to nothing
(`Norm.apply_zero_left`); so all samples of the output are zero, and each method
has its own way to find that out (`Defuzzifier.ofSamples?_of_zero`). In the
other styles nothing has been added to the sum of the output.

The strength of a rule can be told from zero because it is a number: the
controller computes with numbers (`Controller.IsExact`), and so strengths are
degrees (`Controller.isDegree_ruleStrength`).
-/

namespace FuzzyInference

namespace Controller

variable {c d : Controller Exact} {rules : List Rule} {output : Nat}

/-- A controller that computes with numbers is one of numbers. -/
theorem IsExact.numeric (hc : c.IsExact) (hfit : c.choices.Fit) : c.Numeric where
  degrees x hx := Exact.isFinite_iff.mpr (Decidable.not_not.mp (hc.degrees x hx))
  weights := hfit.weights

/-! ## What is said about an output -/

/-- **A silent output**: no rule that has some strength says anything about
it. -/
def Silent {α : Type} [Scalar α] (strengths : List α) (rules : List Rule) (output : Nat) : Prop :=
  ∀ (i : Nat) (r : Rule) (strength : α), rules[i]? = some r → strengths[i]? = some strength →
    0 < strength → ∀ a ∈ r.conclusions, a.subject ≠ output

/-- **The conclusions about a silent output** have no strength. -/
theorem eq_zero_of_silent (hc : c.IsExact) (hfit : c.choices.Fit)
    (hsilent : Silent (c.strengthsFrom 0 rules) rules output) {a : Atom} {strength : Exact}
    (ha : (a, strength) ∈ c.conclusionsFrom 0 rules) (hsubject : a.subject = output) :
    strength = 0 := by
  obtain ⟨⟨r, i⟩, hr, ha⟩ := List.mem_flatMap.mp ha
  obtain ⟨b, hb, heq⟩ := List.mem_map.mp ha
  cases heq
  have hplace : rules[i]? = some r := List.mem_zipIdx_iff_getElem?.mp hr
  refine (isDegree_ruleStrength (hc.numeric hfit) i r).eq_zero fun hpos => ?_
  refine hsilent i r _ hplace ?_ hpos a hb hsubject
  rw [strengthsFrom, List.getElem?_map, List.getElem?_zipIdx, hplace, Option.map_some,
    Option.map_some, Nat.zero_add]

/-- **A term of a silent output** is not activated. -/
theorem activationOf_of_silent (hc : c.IsExact) (hfit : c.choices.Fit)
    (htakes : ∀ e ∈ Rule.script rules, c.Takes e)
    (hsilent : Silent (c.strengthsFrom 0 rules) rules output) {slot : Nat} {t : Term Exact}
    (ht : c.term? .output slot = some t) (howner : t.owner = output) {r : TermRef}
    (hr : r.index = slot) : c.activationOf rules r = 0 := by
  have hnorm : c.norms.aggregation.isSNorm = true := Norm.isSNorm_iff.mpr hfit.norms.aggregation
  refine List.foldlRecOn (motive := (· = 0)) _ _ rfl ?_
  rintro x hx ⟨a, strength⟩ hp
  obtain ⟨hmem, hterm⟩ := List.mem_filter.mp hp
  have hindex : a.term.index = slot := (of_decide_eq_true hterm : a.term = r) ▸ hr
  -- a conclusion that names a term of the output is about the output
  obtain ⟨rule, hrule, hconclusion⟩ := exists_of_mem_conclusionsFrom hmem
  obtain ⟨closes, hevent⟩ := Rule.conclusion_mem_script_iff.mpr ⟨rule, hrule, hconclusion⟩
  obtain ⟨u, hu, hsubject⟩ := (htakes _ hevent).2
  rw [hindex, ht] at hu
  cases hu
  rw [hx, eq_zero_of_silent hc hfit hsilent hmem (hsubject.symm.trans howner)]
  exact Norm.apply_zero_zero hnorm

/-- **Nothing is added to the sum of a silent output.** -/
theorem conclusionsAbout_of_silent (hc : c.IsExact) (hfit : c.choices.Fit)
    (hsilent : Silent (c.strengthsFrom 0 rules) rules output) :
    c.conclusionsAbout rules output = [] := by
  refine List.filter_eq_nil_iff.mpr fun p hp h => ?_
  obtain ⟨hsubject, hpos⟩ := of_decide_eq_true h
  rw [eq_zero_of_silent hc hfit hsilent hp hsubject] at hpos
  exact lt_irrefl (0 : ℝ) hpos

/-! ## What is read off the findings -/

section Findings

/-- **What an inference has found about a silent output**: no term of it is
activated, and nothing has been added to its sum. -/
structure Unsaid (d : Controller Exact) (output : Nat) : Prop where
  /-- Its terms are not activated. -/
  activations : ∀ {slot t}, d.term? .output slot = some t → t.owner = output →
    d.cycle.activations[slot]? = some ⟨0, 0⟩
  /-- Its sum has no weight. -/
  sums : d.style ≠ .mamdani → ∃ sum, d.cycle.sums[output]? = some sum ∧ sum.weight = 0

theorem unsaid_of_silent (hc : c.IsExact) (hfit : c.choices.Fit)
    (htakes : ∀ e ∈ Rule.script rules, c.Takes e)
    (hsilent : Silent (c.strengthsFrom 0 rules) rules output) (hlt : output < c.outputs.length) :
    ({ c with cycle := c.meaning rules } : Controller Exact).Unsaid output := by
  constructor
  · intro slot t ht howner
    have hterm : c.term? .output slot = some t := ht
    have hslot : slot < c.outputTerms.length := lt_of_term? hterm
    have hzero {r : TermRef} (hr : r.index = slot) : c.activationOf rules r = 0 :=
      activationOf_of_silent hc hfit htakes hsilent hterm howner hr
    show ((List.range c.outputTerms.length).map _)[slot]? = _
    rw [List.getElem?_map, List.getElem?_range hslot, Option.map_some, hzero (r := .is slot) rfl,
      hzero (r := .isNot slot) rfl, ite_self]
  · intro hstyle
    refine ⟨c.sumOf rules output, ?_, ?_⟩
    · show ((List.range c.outputs.length).map _)[output]? = _
      rw [List.getElem?_map, List.getElem?_range hlt, Option.map_some]
      exact congrArg some (if_neg hstyle)
    · unfold sumOf
      rw [conclusionsAbout_of_silent hc hfit hsilent]
      rfl

variable (hsound : d.Sound) (hd : d.IsExact) (hfit : d.choices.Fit) (hunsaid : d.Unsaid output)

include hsound hd hfit hunsaid

/-- **The curve of an output that nothing is said about** is zero at every
number. -/
theorem curve?_eq_zero (hstyle : d.style = .mamdani) (hlt : output < d.outputs.length) (x : ℝ) :
    d.curve? output (.number x) = some 0 := by
  obtain ⟨hlower, hupper, -⟩ := hsound.outputs _ (List.getElem_mem hlt)
  unfold curve?
  rw [List.getElem?_eq_getElem hlt]
  generalize d.outputs[output] = v at hlower hupper
  obtain ⟨lower, upper, value⟩ := v
  lift lower to ℝ using Exact.isFinite_iff.mp hlower
  lift upper to ℝ using Exact.isFinite_iff.mp hupper
  refine List.foldlM_eq_some_of_fixed ?_
  rintro ⟨slot, activation⟩ hmem
  cases slot with
  | none => rfl
  | some t =>
    by_cases howner : t.owner = output
    · obtain ⟨slot, hslot⟩ := List.mem_iff_getElem?.mp hmem
      obtain ⟨hslot, hactivation⟩ := List.getElem?_zip_eq_some.mp hslot
      have ht : d.term? .output slot = some t := congrArg Option.join hslot
      cases hactivation.symm.trans (hunsaid.activations ht howner)
      obtain ⟨y, hy⟩ := Term.exists_degree?_number (hsound.terms ht).wellFormed (.inr hstyle)
        (hd.profiles ht) x lower upper
      have hmu : Scalar.IsDegree (Scalar.clampUnit (Exact.number y)) := Scalar.isDegree_clampUnit y
      have himplication : d.norms.implication.isTNorm = true :=
        Norm.isTNorm_iff.mpr hfit.norms.implication
      have haggregation : d.norms.aggregation.isSNorm = true :=
        Norm.isSNorm_iff.mpr hfit.norms.aggregation
      unfold unite?
      refine (if_neg (not_not_intro howner)).trans
        (Option.bind_eq_some_iff.mpr ⟨_, hy, congrArg some ?_⟩)
      rw [Norm.apply_zero_left himplication hmu, Norm.apply_zero_left himplication hmu.one_sub,
        Norm.apply_zero_zero haggregation, Norm.apply_zero_zero haggregation]
    · exact if_pos howner

/-- **All samples of it are zero.** -/
theorem eq_zero_of_samples? (hstyle : d.style = .mamdani) {v : Variable Exact}
    (hv : d.outputs[output]? = some v) {s : Samples Exact} (hs : d.samples? output v = some s) :
    ∀ y ∈ s.ys, y = 0 := by
  obtain ⟨hlt, -⟩ := List.getElem?_eq_some_iff.mp hv
  obtain ⟨hlower, hupper, -⟩ := hsound.outputs v (List.mem_of_getElem? hv)
  obtain ⟨lower, upper, value⟩ := v
  lift lower to ℝ using Exact.isFinite_iff.mp hlower
  lift upper to ℝ using Exact.isFinite_iff.mp hupper
  have hpoints : (d.evalPoints : ℝ) ≠ 0 :=
    Nat.cast_ne_zero.mpr (Nat.ne_zero_of_lt hfit.evalPoints)
  have hresolution : d.resolution ⟨.number lower, .number upper, value⟩
      = .number ((upper - lower) / d.evalPoints) := Exact.number_div _ hpoints
  obtain ⟨ys, hys, hs⟩ := Option.bind_eq_some_iff.mp hs
  cases hs
  intro y hy
  have hmem := List.mem_map_of_mem (f := some) hy
  rw [← List.mapM_eq_some_iff.mp hys] at hmem
  obtain ⟨k, -, hk⟩ := List.mem_map.mp hmem
  rw [hresolution] at hk
  exact Option.some.inj (hk.symm.trans
    (curve?_eq_zero hsound hd hfit hunsaid hstyle hlt _))

/-- **It has no crisp value.** -/
theorem crisp?_of_unsaid {v : Variable Exact} (hv : d.outputs[output]? = some v) {x : Exact}
    (hx : d.crisp? output v = some x) : x = .notANumber := by
  have hsum (hstyle : d.style ≠ .mamdani) {x : Exact} (hx : (do
      let sum ← d.cycle.sums[output]?
      return d.defuzzifier.ofWeighted sum.weighted sum.weight) = some x) : x = .notANumber := by
    obtain ⟨sum, hsum, hweight⟩ := hunsaid.sums hstyle
    rw [hsum] at hx
    cases hx
    unfold Defuzzifier.ofWeighted
    rw [hweight]
    exact if_pos (le_refl (0 : ℝ))
  unfold crisp? at hx
  cases hstyle : d.style with
  | mamdani =>
    rw [hstyle] at hx
    obtain ⟨s, hs, hx⟩ := Option.bind_eq_some_iff.mp hx
    rw [d.defuzzifier.ofSamples?_of_zero
      (eq_zero_of_samples? hsound hd hfit hunsaid hstyle hv hs)] at hx
    exact (Option.some.inj hx).symm
  | sugeno =>
    rw [hstyle] at hx
    exact hsum (by rw [hstyle]; decide) hx
  | tsukamoto =>
    rw [hstyle] at hx
    exact hsum (by rw [hstyle]; decide) hx

/-- **Defuzzifying gives it no value.** -/
theorem value_of_unsaid (hlt : output < d.outputs.length) {e : Controller Exact}
    (he : d.defuzzify = .ok e) : e.value .output output = .ok .notANumber := by
  have hv := List.getElem?_eq_getElem hlt
  obtain ⟨x, hx⟩ := exists_crisp? hsound hlt d.outputs[output]
  cases crisp?_of_unsaid hsound hd hfit hunsaid hv hx
  have hkept : d.outputs[output].saturateFinite? .notANumber = some .notANumber :=
    if_neg (Exact.isFinite_iff.not.mpr Exact.isNaN_notANumber)
  exact value_of_crisp? he hv hx hkept

end Findings

/-- **An output that nothing is said about has no value.** A controller is set
up with numbers, in any style, and then anything is done with it, as long as it
is given no functions but exact ones. It infers from a stream in which no rule
that has some strength says anything about an output. When it is defuzzified,
then this output is not a number, and asking for it is answered by a fault. -/
theorem noActivation_of_silent {style : Style} {inputs outputs : List (Variable Exact)}
    {inputSlots outputSlots : Nat} {history : List (Command Exact)} {w : Width} {s : RuleStream w}
    {n : Nat}
    (hsetup : setup style inputs outputs inputSlots outputSlots = .ok c)
    (hinputs : ∀ v ∈ inputs, ¬ Scalar.IsNaN v.value)
    (hhistory : ∀ command ∈ history, command.IsExact)
    (hinfer : (c.after history).infer s.tokens = (.ok n, d))
    (hrules : Stream.Begins (c.after history).bounds rules s.table)
    (hlt : output < d.outputs.length) (hsilent : Silent d.cycle.strengths rules output) :
    ∃ e, d.defuzzify = .ok e ∧ e.value .output output = .ok .notANumber ∧
      e.output output = .error (.noActivation output) := by
  have hreachable : (c.after history).Reachable := (Reachable.setup hsetup).after history
  have hexact : (c.after history).IsExact :=
    exact_after (.setup hsetup) (exact_setup hsetup hinputs) hhistory
  obtain ⟨rules', hrules', htakes, -, rfl⟩ := exists_rules_of_infer hreachable.sound hinfer
  cases Stream.begins_unique hrules hrules'
  have hfit : (c.after history).choices.Fit := hreachable.fit
  have hunsaid := unsaid_of_silent hexact hfit htakes hsilent hlt
  have hsound := congrArg Prod.snd hinfer ▸ sound_infer hreachable.sound s.tokens
  have hnumbers := congrArg Prod.snd hinfer ▸ exact_infer hexact s.tokens
  obtain ⟨e, he⟩ := exists_defuzzify hsound rfl
  have hvalue := value_of_unsaid hsound hnumbers hfit hunsaid hlt he
  refine ⟨e, he, hvalue, ?_⟩
  unfold Controller.output
  rw [hvalue]
  exact if_pos Exact.isNaN_notANumber

/-! ## A rule without weight -/

/-- A Mamdani controller of one input and one output, with a place for a term
of either. -/
noncomputable def untold : Controller Exact where
  style := .mamdani
  inputs := [⟨.number 0, .number 1, .number 0⟩]
  outputs := [⟨.number 0, .number 1, .number 0⟩]
  inputTerms := [none]
  outputTerms := [none]
  norms := .initial
  evalPoints := Setting.defaultEvalPoints
  defuzzifier := .centroid
  weights := none
  cycle := ⟨[.number 0], [0], [⟨0, 0⟩], [⟨0, 0⟩], [], false, false⟩

theorem saturate?_number_zero :
    Variable.saturate? (⟨.number 0, .number 1, .number 0⟩ : Variable Exact) (.number 0)
      = some (.number 0) := by
  simp [Variable.saturate?, Scalar.clamp]

/-- A term of the input that every value has. -/
def always : Binding Exact := ⟨.input, 0, 0, .builtin .constant, [.number 1], .number 1⟩

/-- A term of the output. -/
def ascending : Binding Exact :=
  ⟨.output, 0, 0, .builtin .linearS, [.number 0, .number 1], .number 1⟩

/-- The terms are bound, and the rule gets the weight zero. -/
def muting : List (Command Exact) :=
  [.bindTerm always, .bindTerm ascending, .setWeights [.number 0]]

/-- What is left of the controller. -/
noncomputable def muted : Controller Exact :=
  { (untold.store always).store ascending with weights := some [.number 0] }

theorem setup_blank (style : Style) :
    setup style [⟨.number 0, .number 1, .number 0⟩] [⟨.number 0, .number 1, .number 0⟩] 1 1
      = .ok { untold with style := style, defuzzifier := .initial style } := by
  have hproper : Variable.IsProperRange (Exact.number 0) (.number 1) :=
    ⟨Exact.isFinite_iff.mpr (le_refl (0 : ℝ)), Exact.isFinite_iff.mpr (le_refl (1 : ℝ)),
      zero_lt_one (α := ℝ)⟩
  have hcheck : ([⟨.number 0, .number 1, .number 0⟩, ⟨.number 0, .number 1, .number 0⟩] :
      List (Variable Exact)).forM Variable.check = .ok () :=
    List.forM_eq_ok_iff.mpr (by simp [Variable.check, hproper])
  unfold setup
  simp only [List.cons_append, List.nil_append]
  rw [hcheck]
  simp [saturate?_number_zero, Fault.found, untold]

theorem setup_untold :
    setup .mamdani [⟨.number 0, .number 1, .number 0⟩] [⟨.number 0, .number 1, .number 0⟩] 1 1
      = .ok untold := setup_blank .mamdani

theorem after_muting : untold.after muting = muted := by
  have hzero : Scalar.IsFinite (Exact.number 0) := Exact.isFinite_iff.mpr (le_refl (0 : ℝ))
  have hone : Scalar.IsFinite (Exact.number 1) := Exact.isFinite_iff.mpr (le_refl (1 : ℝ))
  have halways : untold.bindTerm always = .ok (untold.store always) :=
    bindTerm_of_admissible ⟨Nat.one_pos, Nat.one_pos, rfl,
      fun shape h => by cases h; exact Nat.le_refl 1, hone,
      List.forall_mem_singleton.mpr hone, fun shape h => by cases h; rfl⟩
  have hrising : (untold.store always).bindTerm ascending
      = .ok ((untold.store always).store ascending) :=
    bindTerm_of_admissible ⟨Nat.one_pos, Nat.one_pos, rfl,
      fun shape h => by cases h; exact Nat.le_refl 2, hone,
      List.forall_mem_cons.mpr ⟨hzero, List.forall_mem_singleton.mpr hone⟩,
      fun shape h => by cases h; simp [Shape.zeroWidth?]⟩
  have hweights : ((untold.store always).store ascending).setWeights [.number 0] = .ok muted := by
    simp [setWeights, muted]
  simp only [after, muting, List.foldl_cons, List.foldl_nil, perform, halways, hrising, hweights,
    settle]

theorem reachable_muted : muted.Reachable :=
  after_muting ▸ (Reachable.setup setup_untold).after muting

theorem begins_muted (h : muted.fuzzify = .ok c) :
    Stream.Begins c.bounds slopeRule slopeStream.table := by
  rw [bounds_congr (keeps_fuzzify h).frame]
  exact begins_slope

/-- Once it has been fuzzified, the controller infers from a stream of one
rule. -/
theorem infer_muted (h : muted.fuzzify = .ok c) :
    c.infer slopeStream.tokens = (.ok 1, { c with cycle := c.meaning slopeRule }) := by
  have hsound := sound_fuzzify reachable_muted.sound h
  have haccept : c.accept slopeStream.tokens = .ok () := by
    rw [accept_congr (keeps_fuzzify h)]
    exact accept_slope rfl ⟨_, rfl, rfl⟩ ⟨_, rfl, rfl⟩
  obtain ⟨hfuzzified, hbound⟩ :=
    ready_of_fuzzify (by simp [muted, store, always, ascending, untold]) h
  obtain ⟨n, d, hinfer, -⟩ := exists_infer hsound hfuzzified hbound haccept
  obtain ⟨rules, hrules, -, rfl, rfl⟩ := exists_rules_of_infer hsound hinfer
  cases Stream.begins_unique (begins_muted h) hrules
  exact hinfer

/-- The rule has no strength. -/
theorem strengthsFrom_muted (h : muted.fuzzify = .ok c) (hexact : c.IsExact) :
    c.strengthsFrom 0 slopeRule = [0] := by
  have hnumeric : c.Numeric := hexact.numeric (choices_fuzzify h ▸ reachable_muted.fit)
  obtain ⟨strength, hstrength⟩ :
      ∃ strength, c.premiseStrength ⟨⟨0, .is 0⟩, []⟩ = .number strength :=
    (isDegree_premiseStrength hnumeric _).imp fun _ => And.right
  have hweights : c.weights = some [.number 0] := congrArg Choices.weights (choices_fuzzify h)
  have hweight : c.weight 0 = .number 0 := by
    unfold weight
    rw [hweights]
    show Scalar.clampUnit (Exact.number 0) = _
    rw [Exact.number_clampUnit, Real.clampUnit_of_isDegree .zero]
  show [c.premiseStrength _ * c.weight 0] = [0]
  rw [hstrength, hweight, Exact.number_mul, mul_zero]
  rfl

/-- **A rule without strength** says something about the output, and the output
has no value. -/
theorem noActivation_of_silent_muted :
    ∃ d e, (untold.after (muting ++ [.fuzzify])).infer slopeStream.tokens = (.ok 1, d) ∧
      d.defuzzify = .ok e ∧ e.output 0 = .error (.noActivation 0) := by
  have hnumbers : ∀ v ∈ [(⟨.number 0, .number 1, .number 0⟩ : Variable Exact)],
      ¬ Scalar.IsNaN v.value := List.forall_mem_singleton.mpr (not_not_intro (le_refl (0 : ℝ)))
  have hexact : ∀ command ∈ muting ++ [.fuzzify], command.IsExact := by
    simp [muting, Command.IsExact, always, ascending, Profile.IsExact]
  obtain ⟨c, hc⟩ := exists_fuzzify reachable_muted.sound
    (by simp [muted, store, always, ascending, untold])
  have hafter : untold.after (muting ++ [.fuzzify]) = c := by
    rw [after, List.foldl_append]
    show (Controller.perform (untold.after muting) .fuzzify).2 = c
    rw [after_muting, perform, hc]
    rfl
  have hsilent : Silent (c.strengthsFrom 0 slopeRule) slopeRule 0 := by
    rw [strengthsFrom_muted hc
      (hafter ▸ exact_after (.setup setup_untold) (exact_setup setup_untold hnumbers) hexact)]
    intro i r strength _ hstrength hpos
    cases List.mem_singleton.mp (List.mem_of_getElem? hstrength)
    exact absurd hpos (lt_irrefl (0 : ℝ))
  have houtputs : c.outputs.length = 1 :=
    congrArg Bounds.outputs (bounds_congr (keeps_fuzzify hc).frame)
  have hinfer : (untold.after (muting ++ [.fuzzify])).infer slopeStream.tokens
      = (.ok 1, { c with cycle := c.meaning slopeRule }) := by
    rw [hafter]
    exact infer_muted hc
  obtain ⟨e, he, -, houtput⟩ := noActivation_of_silent setup_untold hnumbers hexact hinfer
    (hafter.symm ▸ begins_muted hc) (Nat.lt_of_lt_of_eq Nat.one_pos houtputs.symm) hsilent
  exact ⟨_, e, hinfer, he, houtput⟩

end Controller

end FuzzyInference
