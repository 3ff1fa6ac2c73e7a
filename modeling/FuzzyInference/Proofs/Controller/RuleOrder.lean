import FuzzyInference.Proofs.Controller.Division
import FuzzyInference.Proofs.Controller.Isolation
import FuzzyInference.Proofs.Controller.Strength

/-!
# The order of the rules

A rule base is a list of rules, but where no rule has a weight of its own it
might as well be a collection: in exact arithmetic, the order of the rules is
of no concern to the outputs. Whether a stream is accepted depends on its
events and not on where they stand (`Controller.accept_of_perm`), and then the
strength of a rule comes from its premise alone, so that another order of the
rules brings the same conclusions in another order. An activation combines
them by an s-norm, which may be done in any order because the strengths are
degrees (`Norm.foldl_apply_of_perm`), and a sum adds them up.

Weights are given to places, so the order matters to them, and in rounded
arithmetic it matters to the sums.
-/

namespace FuzzyInference

namespace Controller

variable {α : Type} [Scalar α] {c : Controller α} {rules rules' : List Rule}

/-! ## Acceptance -/

omit [Scalar α] in
/-- **Whether a rule base is accepted** does not depend on the order of the
rules. -/
theorem accept_of_perm (hperm : rules.Perm rules') {w w' : Width} {s : RuleStream w}
    {s' : RuleStream w'} (hs : RuleStream.encode w rules = .ok s)
    (hs' : RuleStream.encode w' rules' = .ok s') (haccept : c.accept s.tokens = .ok ()) :
    c.accept s'.tokens = .ok () := by
  have hread : (rules.map Rule.reread).Perm (rules'.map Rule.reread) := hperm.map _
  obtain ⟨hbegins, htakes⟩ := takes_of_accept hs haccept
  have hscript : (Rule.script (rules.map Rule.reread)).Perm
      (Rule.script (rules'.map Rule.reread)) := (hread.flatMap_right _).append_right _
  refine accept_eq_ok_iff.mpr ⟨_, Stream.begins_reread_of_fits hs' fun r hr => ?_,
    fun e he => htakes e (hscript.mem_iff.mpr he)⟩
  exact hbegins.fits r (hread.mem_iff.mpr hr)

/-- **A rule base that is accepted** is inferred, as it is read. -/
theorem infer_of_accept [Scalar.IsOrdered α] (hc : c.Sound) (hfuzzified : c.cycle.fuzzified = true)
    (hbound : ∀ slot ∈ c.outputTerms, slot ≠ none) {w : Width} {s : RuleStream w}
    (hs : RuleStream.encode w rules = .ok s) (haccept : c.accept s.tokens = .ok ()) :
    c.infer s.tokens
      = (.ok rules.length, { c with cycle := c.meaning (rules.map Rule.reread) }) := by
  obtain ⟨hbegins, htakes⟩ := takes_of_accept hs haccept
  rw [infer_eq_fireStream hfuzzified (List.any_isNone_eq_false hbound) haccept,
    fireStream_eq_meaning hc hbegins htakes, List.length_map]

/-! ## Rules without weights -/

section Unweighted

variable (hweights : c.weights = none)

include hweights

/-- The strength of a rule is the same in all places. -/
theorem ruleStrength_of_unweighted (i : Nat) (r : Rule) :
    c.ruleStrength i r = c.ruleStrength 0 r := by
  have hweight (i : Nat) : c.weight i = 1 := by
    unfold weight
    rw [hweights]
    rfl
  unfold ruleStrength
  rw [hweight, hweight]

/-- **The strengths of the rules**, one by one. -/
theorem strengthsFrom_of_unweighted (rules : List Rule) :
    c.strengthsFrom 0 rules = rules.map (c.ruleStrength 0) := by
  have hplaces : rules.map (c.ruleStrength 0)
      = (rules.zipIdx 0).map (c.ruleStrength 0 ∘ Prod.fst) := by
    rw [← List.map_map, List.zipIdx_map_fst]
  rw [hplaces]
  exact List.map_congr_left fun p _ => ruleStrength_of_unweighted hweights p.2 p.1

/-- **The conclusions**, rule by rule. -/
theorem conclusionsFrom_of_unweighted (rules : List Rule) :
    c.conclusionsFrom 0 rules
      = rules.flatMap fun r => r.conclusions.map (·, c.ruleStrength 0 r) := by
  conv_rhs => rw [← List.zipIdx_map_fst 0 rules, List.flatMap_map]
  unfold conclusionsFrom
  simp only [ruleStrength_of_unweighted hweights]

/-- Another order of the rules brings the same conclusions. -/
theorem conclusionsFrom_perm (hperm : rules.Perm rules') :
    (c.conclusionsFrom 0 rules).Perm (c.conclusionsFrom 0 rules') := by
  rw [conclusionsFrom_of_unweighted hweights, conclusionsFrom_of_unweighted hweights]
  exact hperm.flatMap_right _

end Unweighted

/-! ## Another order -/

section Exact

variable {c : Controller ℝ}

section Order

variable (hweights : c.weights = none) (hperm : rules.Perm rules')

include hweights hperm

/-- **The activation of a term** is united in any order. -/
theorem activationOf_of_perm (hnorm : c.norms.aggregation.isSNorm = true) (t : TermRef) :
    c.activationOf rules t = c.activationOf rules' t :=
  Norm.foldl_apply_of_perm (f := Prod.snd) hnorm ((conclusionsFrom_perm hweights hperm).filter _)
    fun _ hp => Scalar.isDegree_iff.mp
      (isDegree_of_mem_conclusionsFrom (numeric_real c) (List.mem_filter.mp hp).1)

/-- **The sum of an output** is added up in any order. -/
theorem sumOf_of_perm (output : Nat) : c.sumOf rules output = c.sumOf rules' output := by
  have habout : (c.conclusionsAbout rules output).Perm (c.conclusionsAbout rules' output) :=
    (conclusionsFrom_perm hweights hperm).filter _
  have hsum (f : Atom × ℝ → ℝ) : (c.conclusionsAbout rules output).foldl (fun x p => x + f p) 0
      = (c.conclusionsAbout rules' output).foldl (fun x p => x + f p) 0 :=
    habout.foldl_eq' (fun p _ q _ x => add_right_comm x (f p) (f q)) 0
  exact congrArg₂ WeightedSum.mk (hsum fun p => c.conclusion c.cycle.inputs p.1 p.2 * p.2)
    (hsum Prod.snd)

/-- **Another order of the rules** means the same but for the order of their
strengths. -/
theorem meaning_of_perm (hnorm : c.norms.aggregation.isSNorm = true) :
    c.meaning rules' = { c.meaning rules with strengths := c.strengthsFrom 0 rules' } := by
  unfold meaning
  simp only [activationOf_of_perm hweights hperm hnorm, sumOf_of_perm hweights hperm]

end Order

/-! ## What is read off the findings -/

/-- **The outputs** come from the activations and the sums. -/
theorem outputs_of_defuzzify {x y : Cycle ℝ} (hactivations : x.activations = y.activations)
    (hsums : x.sums = y.sums) {d e : Controller ℝ}
    (hd : ({ c with cycle := x } : Controller ℝ).defuzzify = .ok d)
    (he : ({ c with cycle := y } : Controller ℝ).defuzzify = .ok e) : d.outputs = e.outputs := by
  refine List.ext_getElem? fun output => Option.map_injective (fun _ _ => Option.some.inj) ?_
  have hcurve (z : ℝ) : ({ c with cycle := x } : Controller ℝ).curve? output z
      = ({ c with cycle := y } : Controller ℝ).curve? output z :=
    curve?_congr (congrArg List.length hactivations)
      (fun slot _ _ _ => congrArg (·[slot]?) hactivations) z
  rw [getElem?_of_defuzzify hd, getElem?_of_defuzzify he]
  exact Option.map_congr fun v _ => defuzzified?_congr hcurve (congrArg (·[output]?) hsums) v

/-- **The order of the rules does not matter.** In exact arithmetic, a rule base
without weights that is accepted by a controller is accepted in any order,
and inferred. Every rule has the same strength wherever it stands, the
activations and the sums are the same, and so are the outputs when they have
been defuzzified, which they can be. -/
theorem infer_of_perm (hc : c.Reachable) (hfuzzified : c.cycle.fuzzified = true)
    (hbound : ∀ slot ∈ c.outputTerms, slot ≠ none) (hweights : c.weights = none)
    (hperm : rules.Perm rules') {w w' : Width} {s : RuleStream w} {s' : RuleStream w'}
    (hs : RuleStream.encode w rules = .ok s) (hs' : RuleStream.encode w' rules' = .ok s')
    (haccept : c.accept s.tokens = .ok ()) :
    ∃ d d', c.infer s.tokens = (.ok rules.length, d) ∧
      c.infer s'.tokens = (.ok rules.length, d') ∧
      d.cycle.strengths.length = rules.length ∧ d'.cycle.strengths.length = rules.length ∧
      (∀ i j : Nat, rules[i]? = rules'[j]? → d.cycle.strengths[i]? = d'.cycle.strengths[j]?) ∧
      d.cycle.activations = d'.cycle.activations ∧ d.cycle.sums = d'.cycle.sums ∧
      ∃ e e', d.defuzzify = .ok e ∧ d'.defuzzify = .ok e' ∧ e.outputs = e'.outputs := by
  have hnorm : c.norms.aggregation.isSNorm = true :=
    Norm.isSNorm_iff.mpr hc.fit.norms.aggregation
  have hread : (rules.map Rule.reread).Perm (rules'.map Rule.reread) := hperm.map _
  have hinfer := infer_of_accept hc.sound hfuzzified hbound hs haccept
  have hinfer' := infer_of_accept hc.sound hfuzzified hbound hs'
    (accept_of_perm hperm hs hs' haccept)
  have hmeaning := meaning_of_perm hweights hread hnorm
  have hstrengths (rules : List Rule) : (c.meaning (rules.map Rule.reread)).strengths
      = rules.map (c.ruleStrength 0 ∘ Rule.reread) := by
    rw [← List.map_map]
    exact strengthsFrom_of_unweighted hweights _
  have hsound := sound_infer hc.sound s.tokens
  rw [hinfer] at hsound
  have hsound' := sound_infer hc.sound s'.tokens
  rw [hinfer'] at hsound'
  obtain ⟨e, he⟩ := exists_defuzzify hsound rfl
  obtain ⟨e', he'⟩ := exists_defuzzify hsound' rfl
  have hactivations : (c.meaning (rules.map Rule.reread)).activations
      = (c.meaning (rules'.map Rule.reread)).activations :=
    (congrArg Cycle.activations hmeaning).symm
  have hsums : (c.meaning (rules.map Rule.reread)).sums
      = (c.meaning (rules'.map Rule.reread)).sums := (congrArg Cycle.sums hmeaning).symm
  refine ⟨_, _, hinfer, hperm.length_eq ▸ hinfer', ?_, ?_, ?_, hactivations, hsums, e, e', he, he',
    outputs_of_defuzzify hactivations hsums he he'⟩
  · rw [hstrengths, List.length_map]
  · rw [hstrengths, List.length_map, hperm.length_eq]
  · intro i j hij
    rw [hstrengths, hstrengths, List.getElem?_map, List.getElem?_map, hij]

/-- A controller that joins statements by the product. -/
noncomputable def multiplying : Controller ℝ :=
  { sloping 1 with norms := { Norms.initial with and := .product } }

theorem reachable_multiplying : multiplying.Reachable :=
  (reachable_sloping 1).perform (.choose (.and .product))

/-- A rule of one statement. -/
def single : Rule := ⟨some ⟨⟨0, .is 0⟩, []⟩, [⟨0, .is 0⟩]⟩

/-- A rule of two statements. -/
def double : Rule := ⟨some ⟨⟨0, .is 0⟩, [(.and, ⟨0, .isNot 0⟩)]⟩, [⟨0, .is 0⟩]⟩

theorem ruleStrength_multiplying :
    multiplying.ruleStrength 0 single = 2⁻¹ ∧ multiplying.ruleStrength 0 double = 4⁻¹ := by
  simp [ruleStrength, single, double, premiseStrength, multiplying, sloping, unsloped,
    Cycle.degreeOf, weight, Norms.joining, Norm.apply, Norm.combine, Scalar.clampUnit,
    Scalar.clamp, TermRef.is, TermRef.isNot]
  norm_num

/-- The two rules at eight bits. -/
def singleDouble : RuleStream .bits8 :=
  (RuleStream.encode .bits8 [single, double]).toOption.getD ⟨[]⟩

/-- The other way round, at sixteen. -/
def doubleSingle : RuleStream .bits16 :=
  (RuleStream.encode .bits16 [double, single]).toOption.getD ⟨[]⟩

theorem infer_of_perm_multiplying :
    ∃ d d', multiplying.infer singleDouble.tokens = (.ok 2, d) ∧
      multiplying.infer doubleSingle.tokens = (.ok 2, d') ∧
      d.cycle.strengths = [2⁻¹, 4⁻¹] ∧ d'.cycle.strengths = [4⁻¹, 2⁻¹] ∧
      d.cycle.sums = d'.cycle.sums ∧
      ∃ e e', d.defuzzify = .ok e ∧ d'.defuzzify = .ok e' ∧ e.outputs = e'.outputs := by
  have hs : RuleStream.encode .bits8 [single, double] = .ok singleDouble := rfl
  have hs' : RuleStream.encode .bits16 [double, single] = .ok doubleSingle := rfl
  have haccept : multiplying.accept singleDouble.tokens = .ok () :=
    Except.eq_ok_of_toOption (by decide +kernel)
  have hbound : ∀ slot ∈ multiplying.outputTerms, slot ≠ none :=
    List.forall_mem_singleton.mpr (Option.some_ne_none _)
  obtain ⟨d, d', h, h', -, hlength', hplaces, -, hsums, hdefuzzify⟩ :=
    infer_of_perm reachable_multiplying rfl hbound rfl (.swap double single []) hs hs' haccept
  have hstrengths : d.cycle.strengths = [2⁻¹, 4⁻¹] := by
    have hinfer := infer_of_accept reachable_multiplying.sound rfl hbound hs haccept
    rw [h] at hinfer
    rw [(Prod.mk.inj hinfer).2]
    show multiplying.strengthsFrom 0 [single, double] = _
    rw [strengthsFrom_of_unweighted rfl, List.map_cons, List.map_singleton,
      ruleStrength_multiplying.1, ruleStrength_multiplying.2]
  refine ⟨d, d', h, h', hstrengths, ?_, hsums, hdefuzzify⟩
  have hfirst := hplaces 1 0 rfl
  have hsecond := hplaces 0 1 rfl
  rw [hstrengths] at hfirst hsecond
  match d'.cycle.strengths, hlength', hfirst, hsecond with
  | [x, y], _, hfirst, hsecond =>
    cases hfirst
    cases hsecond
    rfl

end Exact

end Controller

end FuzzyInference
