import Mathlib.Analysis.SpecialFunctions.Pow.Real
import FuzzyInference.Proofs.Controller.Silent
import FuzzyInference.Proofs.Defuzzify.Average

/-!
# Averages of conclusions

In the styles without curves inference adds up what the rules conclude about an
output, each conclusion weighted by the strength of its rule, and adds up these
strengths. In exact arithmetic, and as long as the conclusions are finite, the two
sums average between any two bounds of the conclusions
(`Controller.exists_sumOf_eq`), however many rules there are and however often one of
them speaks of the output: one conclusion more keeps this.

A Tsukamoto conclusion is saturated in the universe of its output before it is added
(`Controller.conclusion_mem`). So the average of such conclusions lies in the universe,
and the saturation after the division has nothing left to do. A Sugeno conclusion is
not saturated, and its bounds are the least and the greatest of the conclusions that
have been added.
-/

namespace FuzzyInference

open Exact (number)

/-- **The average of the conclusions** that have been added up. -/
def WeightedSum.average {α : Type} [Scalar α] (s : WeightedSum α) : α :=
  Defuzzifier.weightedAverage.ofWeighted s.weighted s.weight

/-- It is a quotient of numbers when there is any weight. -/
theorem WeightedSum.average_number (weighted : ℝ) {weight : ℝ} (hweight : 0 < weight) :
    (⟨number weighted, number weight⟩ : WeightedSum Exact).average = number (weighted / weight) :=
  (if_neg (not_le_of_gt hweight)).trans (Exact.number_div _ hweight.ne')

namespace Controller

/-! ## One conclusion -/

/-- **A Tsukamoto conclusion** lies in the universe of its output if it is finite. -/
theorem conclusion_mem {α : Type} [Scalar α] [Scalar.IsLinear α] {c : Controller α}
    (hc : c.Sound) (hstyle : c.style = .tsukamoto) {a : Atom} (ha : c.Resolves .output a)
    {v : Variable α} (hv : c.outputs[a.subject]? = some v) {inputs : List α} {strength : α}
    (hfinite : Scalar.IsFinite (c.conclusion inputs a strength)) :
    v.lower ≤ c.conclusion inputs a strength ∧ c.conclusion inputs a strength ≤ v.upper := by
  have hproper := hc.outputs v (List.mem_of_getElem? hv)
  have hvalue := conclusion?_eq hc ha (by rw [hstyle]; decide) inputs strength
  obtain ⟨t, ht, -⟩ := ha
  unfold conclusion? at hvalue
  rw [ht, hv, hstyle] at hvalue
  have hvalue : (t.tsukamoto? strength inputs v.lower v.upper).bind v.saturateFinite?
    = some (c.conclusion inputs a strength) := hvalue
  obtain ⟨point, -, hvalue⟩ := Option.bind_eq_some_iff.mp hvalue
  rw [Variable.saturateFinite?_of_isProperRange hproper] at hvalue
  rw [← Option.some.inj hvalue] at hfinite ⊢
  split
  · next hpoint =>
    exact Scalar.clamp_mem (Scalar.IsOrdered.le_of_lt hproper.2.2)
      (Scalar.IsLinear.number_of_isFinite hpoint)
  · next hpoint =>
    -- a point that is not finite would be kept as it is
    rw [if_neg hpoint] at hfinite
    exact absurd hfinite hpoint

/-! ## The sums of an output -/

variable {c d : Controller Exact} {rules : List Rule} {output : Nat}

/-- The value of a conclusion of some strength. -/
abbrev valueOf {α : Type} [Scalar α] (c : Controller α) (p : Atom × α) : α :=
  c.conclusion c.cycle.inputs p.1 p.2

/-- What is added to the sums of an output is about this output, and has some
strength. -/
theorem resolves_of_mem_conclusionsAbout (htakes : ∀ e ∈ Rule.script rules, c.Takes e)
    {p : Atom × Exact} (hp : p ∈ c.conclusionsAbout rules output) :
    p.1.subject = output ∧ 0 < p.2 ∧ c.Resolves .output p.1 := by
  obtain ⟨hmem, habout⟩ := List.mem_filter.mp hp
  obtain ⟨hsubject, hpos⟩ := of_decide_eq_true habout
  obtain ⟨r, hr, hconclusion⟩ := exists_of_mem_conclusionsFrom hmem
  obtain ⟨closes, hevent⟩ := Rule.conclusion_mem_script_iff.mpr ⟨r, hr, hconclusion⟩
  exact ⟨hsubject, hpos, (htakes _ hevent).2⟩

theorem weight_sumOf :
    (c.sumOf rules output).weight =
      Scalar.sum ((c.conclusionsAbout rules output).map Prod.snd) := by
  rw [Scalar.sum, List.foldl_map]
  rfl

/-- **The sums of an output** average between any two bounds of its conclusions. -/
theorem exists_sumOf_eq {z : Atom × Exact → ℝ} {lower upper : ℝ}
    (hz : ∀ p ∈ c.conclusionsAbout rules output,
      c.valueOf p = number (z p) ∧ z p ∈ Set.Icc lower upper) :
    ∃ weighted weight, c.sumOf rules output = ⟨number weighted, number weight⟩ ∧
      AveragesIn lower upper weighted weight := by
  have hsum : c.sumOf rules output = (c.conclusionsAbout rules output).foldl (fun sum p =>
      WeightedSum.add sum (c.valueOf p) p.2) ⟨0, 0⟩ := by
    rw [foldl_add]
    rfl
  rw [hsum]
  refine List.foldlRecOn (motive := fun sum : WeightedSum Exact => ∃ weighted weight,
    sum = ⟨number weighted, number weight⟩ ∧ AveragesIn lower upper weighted weight) _ _
    ⟨0, 0, rfl, .zero⟩ ?_
  rintro _ ⟨weighted, weight, rfl, haverages⟩ ⟨a, strength⟩ hp
  obtain ⟨hvalue, hmem⟩ := hz _ hp
  have hpos : 0 < strength := (of_decide_eq_true (List.mem_filter.mp hp).2).2
  cases strength with
  | notANumber => cases hpos
  | number strength =>
    refine ⟨_, _, ?_, haverages.add_mul (le_of_lt hpos) fun _ => hmem⟩
    rw [hvalue]
    rfl

/-- Finite conclusions are numbers. -/
theorem exists_values (hfinite : ∀ p ∈ c.conclusionsAbout rules output,
      Scalar.IsFinite (c.valueOf p)) :
    ∃ z : Atom × Exact → ℝ, ∀ p ∈ c.conclusionsAbout rules output,
      c.valueOf p = number (z p) := by
  have hnumber : ∀ p ∈ c.conclusionsAbout rules output, ∃ x : ℝ,
      c.valueOf p = number x := by
    intro p hp
    have hle := Exact.isFinite_iff.mp (hfinite p hp)
    lift c.valueOf p to ℝ using hle with x
    exact ⟨x, rfl⟩
  choose! z hz using hnumber
  exact ⟨z, hz⟩

/-! ## The average -/

/-- **An average in the universe** is the value of its output, in a Tsukamoto
system. -/
theorem value_of_average_mem (hsound : d.Sound) (hfit : d.choices.Fit)
    (hstyle : d.style = .tsukamoto) {v : Variable Exact} (hv : d.outputs[output]? = some v)
    {sum : WeightedSum Exact} (hsum : d.cycle.sums[output]? = some sum)
    (hlower : v.lower ≤ sum.average) (hupper : sum.average ≤ v.upper) {e : Controller Exact}
    (he : d.defuzzify = .ok e) : e.value .output output = .ok sum.average := by
  have hmethod : d.defuzzifier = .weightedAverage := by
    have hsuits : d.defuzzifier.suits d.style = true := hfit.defuzzifier
    rw [hstyle] at hsuits
    exact of_decide_eq_true hsuits
  have hcrisp : d.crisp? output v = some sum.average := by
    unfold crisp?
    rw [hstyle, hsum, hmethod]
    rfl
  have hfinite : Scalar.IsFinite sum.average :=
    Exact.isFinite_iff.mpr (Scalar.IsLinear.number_of_le hupper).1
  refine value_of_crisp? he hv hcrisp ?_
  rw [Variable.saturateFinite?_of_isProperRange (hsound.outputs v (List.mem_of_getElem? hv)),
    if_pos hfinite, Scalar.clamp_of_mem hlower hupper]

/-- **Tsukamoto conclusions average in the universe** of their output. -/
theorem averages_of_tsukamoto (hsound : c.Sound) (hstyle : c.style = .tsukamoto)
    (htakes : ∀ e ∈ Rule.script rules, c.Takes e) {v : Variable Exact}
    (hv : c.outputs[output]? = some v)
    (hfinite : ∀ p ∈ c.conclusionsAbout rules output,
      Scalar.IsFinite (c.valueOf p)) :
    ∃ lower upper weighted weight, v.lower = number lower ∧ v.upper = number upper ∧
      c.sumOf rules output = ⟨number weighted, number weight⟩ ∧
        AveragesIn lower upper weighted weight := by
  obtain ⟨z, hz⟩ := exists_values hfinite
  have hmem : ∀ p ∈ c.conclusionsAbout rules output,
      v.lower ≤ number (z p) ∧ number (z p) ≤ v.upper := by
    intro p hp
    obtain ⟨hsubject, -, hresolves⟩ := resolves_of_mem_conclusionsAbout htakes hp
    rw [← hz p hp]
    exact conclusion_mem hsound hstyle hresolves (hsubject ▸ hv) (hfinite p hp)
  obtain ⟨hlower, hupper, -⟩ := hsound.outputs v (List.mem_of_getElem? hv)
  obtain ⟨lower, upper, value⟩ := v
  lift lower to ℝ using Exact.isFinite_iff.mp hlower
  lift upper to ℝ using Exact.isFinite_iff.mp hupper
  obtain ⟨weighted, weight, hsum, haverages⟩ :=
    exists_sumOf_eq fun p hp => ⟨hz p hp, hmem p hp⟩
  exact ⟨lower, upper, weighted, weight, rfl, rfl, hsum, haverages⟩

/-- **Conclusions average between the least and the greatest of them**, if there is
any weight. -/
theorem exists_extremes (hfinite : ∀ p ∈ c.conclusionsAbout rules output,
      Scalar.IsFinite (c.valueOf p))
    (hweight : 0 < (c.sumOf rules output).weight) :
    ∃ p ∈ c.conclusionsAbout rules output, ∃ q ∈ c.conclusionsAbout rules output,
      (∀ r ∈ c.conclusionsAbout rules output,
        c.valueOf p ≤ c.valueOf r ∧
          c.valueOf r ≤ c.valueOf q) ∧
      c.valueOf p ≤ (c.sumOf rules output).average ∧
        (c.sumOf rules output).average ≤ c.valueOf q := by
  obtain ⟨z, hz⟩ := exists_values hfinite
  have hsome : {p | p ∈ c.conclusionsAbout rules output}.Nonempty := by
    refine List.exists_mem_of_ne_nil _ fun hnil => ?_
    rw [weight_sumOf, hnil] at hweight
    exact lt_irrefl (0 : ℝ) hweight
  obtain ⟨p, hp, hleast⟩ := Set.exists_min_image _ z (List.finite_toSet _) hsome
  obtain ⟨q, hq, hgreatest⟩ := Set.exists_max_image _ z (List.finite_toSet _) hsome
  obtain ⟨weighted, weight, hsum, haverages⟩ :=
    exists_sumOf_eq fun r hr => ⟨hz r hr, hleast r hr, hgreatest r hr⟩
  rw [hsum] at hweight ⊢
  obtain ⟨hlower, hupper⟩ := haverages.div_mem hweight
  refine ⟨p, hp, q, hq, fun r hr => ?_, ?_⟩
  · rw [hz p hp, hz q hq, hz r hr]
    exact ⟨hleast r hr, hgreatest r hr⟩
  · rw [hz p hp, hz q hq, WeightedSum.average_number weighted hweight]
    exact ⟨hlower, hupper⟩

/-- **Averages stay between what they are made of.** A controller infers from a stream
that it accepts. For each output about which only finite conclusions are drawn, the
weight is the sum of the strengths, as far as they are above zero. In a Tsukamoto
system the weighted sum lies between the ends of the universe times the weight; so if
there is any weight, then the average lies in the universe, and is the value of the
output when the controller is defuzzified. In a Sugeno system the average lies between
the least and the greatest conclusion of a strength above zero. -/
theorem averages_of_infer {w : Width} {s : RuleStream w} {n : Nat} (hc : c.Reachable)
    (hstyle : c.style ≠ .mamdani) (hinfer : c.infer s.tokens = (.ok n, d)) :
    ∃ rules, Stream.Begins c.bounds rules s.table ∧
      ∀ output v, d.outputs[output]? = some v →
        (∀ p ∈ c.conclusionsAbout rules output, Scalar.IsFinite (c.valueOf p)) →
        ∃ sum, d.cycle.sums[output]? = some sum ∧
          sum.weight = Scalar.sum ((c.conclusionsAbout rules output).map Prod.snd) ∧
          (c.style = .tsukamoto →
            v.lower * sum.weight ≤ sum.weighted ∧ sum.weighted ≤ v.upper * sum.weight ∧
            (0 < sum.weight → v.lower ≤ sum.average ∧ sum.average ≤ v.upper ∧
              ∃ e, d.defuzzify = .ok e ∧ e.value .output output = .ok sum.average)) ∧
          (c.style = .sugeno → 0 < sum.weight →
            ∃ p ∈ c.conclusionsAbout rules output, ∃ q ∈ c.conclusionsAbout rules output,
              (∀ r ∈ c.conclusionsAbout rules output,
                c.valueOf p ≤ c.valueOf r ∧ c.valueOf r ≤ c.valueOf q) ∧
              c.valueOf p ≤ sum.average ∧ sum.average ≤ c.valueOf q) := by
  have hsound := congrArg Prod.snd hinfer ▸ sound_infer hc.sound s.tokens
  obtain ⟨rules, hrules, htakes, -, rfl⟩ := exists_rules_of_infer hc.sound hinfer
  refine ⟨rules, hrules, fun output v hv hfinite => ?_⟩
  have hlt : output < c.outputs.length := (List.getElem?_eq_some_iff.mp hv).1
  have hsum : (c.meaning rules).sums[output]? = some (c.sumOf rules output) := by
    show ((List.range c.outputs.length).map _)[output]? = _
    rw [List.getElem?_map, List.getElem?_range hlt, Option.map_some, if_neg hstyle]
  refine ⟨_, hsum, weight_sumOf, fun htsukamoto => ?_, fun _ => exists_extremes hfinite⟩
  obtain ⟨lower, upper, weighted, weight, hlower, hupper, heq, haverages⟩ :=
    averages_of_tsukamoto hc.sound htsukamoto htakes hv hfinite
  rw [heq] at hsum ⊢
  rw [hlower, hupper]
  refine ⟨haverages.lower_mul_le, haverages.le_upper_mul, fun hweight => ?_⟩
  have hmem := haverages.div_mem hweight
  have haverage := WeightedSum.average_number weighted hweight
  have habove : number lower ≤ WeightedSum.average ⟨number weighted, number weight⟩ := by
    rw [haverage]
    exact hmem.1
  have hbelow : WeightedSum.average ⟨number weighted, number weight⟩ ≤ number upper := by
    rw [haverage]
    exact hmem.2
  obtain ⟨e, he⟩ := exists_defuzzify hsound rfl
  exact ⟨habove, hbelow, e, he, value_of_average_mem hsound hc.fit htsukamoto hv hsum
    (hlower ▸ habove) (hupper ▸ hbelow) he⟩

/-! ## A conclusion beyond the universe -/

/-- A term of the output that concludes forty at every strength. -/
def beyond : Binding Exact :=
  ⟨.output, 0, 0, .custom ⟨"beyond", fun _ _ => .number 40⟩, [], .number 1⟩

/-- A controller of one input and one output. -/
noncomputable def unbound (style : Style) : Controller Exact :=
  { untold with style := style, defuzzifier := .initial style }

/-- The controller when its terms have been bound and its input has been fuzzified. -/
noncomputable def overreaching (style : Style) : Controller Exact :=
  { unbound style with
    inputTerms := [some (Binding.term always)]
    outputTerms := [some (Binding.term beyond)]
    cycle := { untold.cycle with degrees := [.number 1], fuzzified := true } }

theorem clampUnit_number_one : Scalar.clampUnit (number 1) = number 1 := by
  rw [Exact.number_clampUnit, Real.clampUnit_of_isDegree .one]

theorem fuzzify_unbound (style : Style) :
    (((unbound style).store always).store beyond).fuzzify = .ok (overreaching style) := by
  have hdegree : inputDegree? [(⟨number 0, number 1, number 0⟩ : Variable Exact)]
      (Binding.term always) = some (number 1) := by
    simp [inputDegree?, Term.degree?, Shape.eval?, always, Binding.term, clampUnit_number_one]
  have hvalues : [(⟨number 0, number 1, number 0⟩ : Variable Exact)].mapM
      (fun v => v.saturate? v.value) = some [number 0] :=
    List.mapM_eq_some_iff.mpr (congrArg ([·]) saturate?_number_zero)
  have hdegrees : [Binding.term always].mapM
      (inputDegree? [(⟨number 0, number 1, number 0⟩ : Variable Exact)]) = some [number 1] :=
    List.mapM_eq_some_iff.mpr (congrArg ([·]) hdegree)
  exact fuzzify_of_mapM (c := ((unbound style).store always).store beyond)
    (by simp [store, always, beyond, unbound, untold]) hvalues hdegrees

theorem reachable_overreaching {style : Style} : (overreaching style).Reachable := by
  have hone : Scalar.IsFinite (number 1) := Exact.isFinite_iff.mpr (le_refl (1 : ℝ))
  have hinput : (unbound style).bindTerm always = .ok ((unbound style).store always) :=
    bindTerm_of_admissible ⟨Nat.one_pos, Nat.one_pos, rfl,
      fun shape h => by cases h; exact Nat.le_refl 1, hone,
      List.forall_mem_singleton.mpr hone, fun shape h => by cases h; rfl⟩
  have houtput : ((unbound style).store always).bindTerm beyond
      = .ok (((unbound style).store always).store beyond) :=
    bindTerm_of_admissible ⟨Nat.one_pos, Nat.one_pos, rfl, fun shape h => (by cases h), hone,
      List.forall_mem_nil _, fun shape h => (by cases h)⟩
  have hafter : (unbound style).after [.bindTerm always, .bindTerm beyond, .fuzzify]
      = overreaching style := by
    simp only [after, List.foldl_cons, List.foldl_nil, perform, hinput, houtput,
      fuzzify_unbound, settle]
  rw [← hafter]
  exact (Reachable.setup (setup_blank style)).after _

/-- There is one conclusion, of the strength one. -/
theorem conclusionsAbout_overreaching (style : Style) :
    (overreaching style).conclusionsAbout slopeRule 0 = [(⟨0, .is 0⟩, number 1)] := by
  have hstrength : Scalar.clampUnit (0 + (overreaching style).cycle.degreeOf (.is 0))
      * (overreaching style).weight 0 = number 1 := by
    show Scalar.clampUnit (number 0 + Scalar.clampUnit (number 1)) * number 1 = number 1
    simp [clampUnit_number_one]
  have hconclusions : (overreaching style).conclusionsFrom 0 slopeRule
      = [(⟨0, .is 0⟩, number 1)] :=
    congrArg (fun strength : Exact => [((⟨0, .is 0⟩ : Atom), strength)]) hstrength
  have hpos : number 0 < number 1 := (Exact.number_lt_iff 0 1).mpr one_pos
  rw [conclusionsAbout, hconclusions]
  exact List.filter_eq_self.mpr (List.forall_mem_singleton.mpr (decide_eq_true ⟨rfl, hpos⟩))

theorem infer_overreaching (style : Style) :
    (overreaching style).infer slopeStream.tokens
      = (.ok 1, { overreaching style with cycle := (overreaching style).meaning slopeRule }) := by
  have hsound : (overreaching style).Sound := reachable_overreaching.sound
  have haccept : (overreaching style).accept slopeStream.tokens = .ok () :=
    accept_slope rfl ⟨_, rfl, rfl⟩ ⟨_, rfl, rfl⟩
  obtain ⟨n, d, hinfer, -⟩ := exists_infer hsound rfl rfl haccept
  obtain ⟨rules, hrules, -, rfl, rfl⟩ := exists_rules_of_infer hsound hinfer
  cases Stream.begins_unique begins_slope hrules
  exact hinfer

/-- The value of the conclusion is saturated in one style, and not in the other. -/
theorem valueOf_overreaching :
    (overreaching .tsukamoto).valueOf (⟨0, .is 0⟩, number 1) = number 1 ∧
      (overreaching .sugeno).valueOf (⟨0, .is 0⟩, number 1) = number 40 := by
  have hsaturated : Variable.saturateFinite? (⟨number 0, number 1, number 0⟩ : Variable Exact)
      (number 40) = some (number 1) := by
    have hfinite : Scalar.IsFinite (number 40) := Exact.isFinite_iff.mpr (le_refl (40 : ℝ))
    rw [Variable.saturateFinite?, if_pos hfinite, Variable.saturate?, Exact.number_clamp]
    norm_num [Scalar.clamp]
  constructor
  · show (Variable.saturateFinite? (⟨number 0, number 1, number 0⟩ : Variable Exact)
      (number 40)).getD 0 = number 1
    rw [hsaturated]
    rfl
  · rfl

/-- **The term concludes forty.** In a Tsukamoto system this is saturated in the
universe, and the output has a value there. In a Sugeno system it is not, and it is
the average. -/
theorem averages_of_infer_beyond :
    (∃ n d e x, (overreaching .tsukamoto).infer slopeStream.tokens = (.ok n, d) ∧
      d.defuzzify = .ok e ∧ e.value .output 0 = .ok x ∧ number 0 ≤ x ∧ x ≤ number 1) ∧
    ∃ n d sum, (overreaching .sugeno).infer slopeStream.tokens = (.ok n, d) ∧
      d.cycle.sums[0]? = some sum ∧ number 40 ≤ sum.average ∧ sum.average ≤ number 40 := by
  have hweight (style : Style) : (0 : Exact)
      < Scalar.sum (((overreaching style).conclusionsAbout slopeRule 0).map Prod.snd) := by
    rw [conclusionsAbout_overreaching]
    show number 0 < number (0 + 1)
    rw [Exact.number_lt_iff]
    norm_num
  obtain ⟨htsukamoto, hsugeno⟩ := valueOf_overreaching
  constructor
  · obtain ⟨rules, hrules, haverages⟩ := averages_of_infer reachable_overreaching
      (by decide) (infer_overreaching .tsukamoto)
    cases Stream.begins_unique begins_slope hrules
    obtain ⟨sum, -, hsum, hmem, -⟩ := haverages 0 _ rfl (by
      rw [conclusionsAbout_overreaching, List.forall_mem_singleton, htsukamoto]
      exact Exact.isFinite_iff.mpr (le_refl (1 : ℝ)))
    obtain ⟨-, -, hmem⟩ := hmem rfl
    obtain ⟨hlower, hupper, e, he, hvalue⟩ := hmem (hsum ▸ hweight .tsukamoto)
    exact ⟨_, _, e, _, infer_overreaching .tsukamoto, he, hvalue, hlower, hupper⟩
  · obtain ⟨rules, hrules, haverages⟩ := averages_of_infer reachable_overreaching
      (by decide) (infer_overreaching .sugeno)
    cases Stream.begins_unique begins_slope hrules
    obtain ⟨sum, hplace, hsum, -, hmem⟩ := haverages 0 _ rfl (by
      rw [conclusionsAbout_overreaching, List.forall_mem_singleton, hsugeno]
      exact Exact.isFinite_iff.mpr (le_refl (40 : ℝ)))
    obtain ⟨p, hp, q, hq, -, hlower, hupper⟩ := hmem rfl (hsum ▸ hweight .sugeno)
    rw [conclusionsAbout_overreaching] at hp hq
    cases List.mem_singleton.mp hp
    cases List.mem_singleton.mp hq
    rw [hsugeno] at hlower hupper
    exact ⟨_, _, sum, infer_overreaching .sugeno, hplace, hlower, hupper⟩

end Controller

end FuzzyInference
