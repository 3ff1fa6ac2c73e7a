import Mathlib.Data.List.Forall2
import Mathlib.Data.Option.Basic
import FuzzyInference.Proofs.Controller.Cycle
import FuzzyInference.Proofs.Controller.Meaning

/-!
# Outputs do not see each other

What a rule base says about one output is of no concern to the others. Two
rule bases with the same premises that agree, rule by rule, on what they
conclude about an output lead to the same findings about it and to the same
crisp value, whatever they conclude about the other outputs, in all styles
and with all norms and weights (`Controller.isolated_of_agreeOn`).

Their streams have little in common, since every conclusion moves what comes
behind it. So the two runs are not compared step by step. Each of them
leaves behind what its rule base means (`Controller.meaning`), and two
meanings are compared place by place: the strengths of the rules come from
the premises alone; a sum takes the conclusions about its own output; and an
activation takes the conclusions that name its term, all of which are about
the output the term is one of, because the controller has accepted them.
-/

namespace FuzzyInference

/-! ## Rules that agree on an output -/

namespace Rule

/-- The conclusions of a rule about an output. -/
def about (output : Nat) (r : Rule) : List Atom := r.conclusions.filter fun a => a.subject = output

/-- **Rules that agree on an output** have the same premise and draw the same
conclusions about the output. -/
structure AgreeOn (output : Nat) (r s : Rule) : Prop where
  /-- The premise. -/
  premise : r.premise = s.premise
  /-- The conclusions about the output. -/
  about : r.about output = s.about output

theorem about_reread (output : Nat) (r : Rule) :
    r.reread.about output = (r.about output).map Atom.reread := List.filter_map

/-- They still agree when they have been written and read. -/
theorem AgreeOn.reread {output : Nat} {r s : Rule} (h : AgreeOn output r s) :
    AgreeOn output r.reread s.reread where
  premise := congrArg (Option.map Premise.reread) h.premise
  about := by rw [about_reread, about_reread, h.about]

end Rule

namespace Controller

variable {α : Type} [Scalar α] {c : Controller α} {output : Nat} {rules rules' : List Rule}

/-! ## Meanings, place by place -/

section Meaning

variable (h : List.Forall₂ (Rule.AgreeOn output) rules rules')

include h

/-- **The strengths of the rules** come from their premises. -/
theorem strengthsFrom_congr (k : Nat) : c.strengthsFrom k rules = c.strengthsFrom k rules' := by
  induction h generalizing k with
  | nil => rfl
  | @cons r s rules rules' hrule _ ih =>
    show c.ruleStrength k r :: c.strengthsFrom (k + 1) rules
      = c.ruleStrength k s :: c.strengthsFrom (k + 1) rules'
    rw [ih, ruleStrength, ruleStrength, hrule.premise]

/-- **The conclusions about the output**, with their strengths. -/
theorem filter_conclusionsFrom_congr (k : Nat) :
    ((c.conclusionsFrom k rules).filter fun p => p.1.subject = output)
      = (c.conclusionsFrom k rules').filter fun p => p.1.subject = output := by
  induction h generalizing k with
  | nil => rfl
  | @cons r s rules rules' hrule _ ih =>
    have hconclusions (r : Rule) (strength : α) :
        (r.conclusions.map (·, strength)).filter (fun p => p.1.subject = output)
          = (r.about output).map (·, strength) := List.filter_map
    show ((r.conclusions.map (·, c.ruleStrength k r)) ++ c.conclusionsFrom (k + 1) rules).filter _
      = ((s.conclusions.map (·, c.ruleStrength k s)) ++ c.conclusionsFrom (k + 1) rules').filter _
    rw [List.filter_append, List.filter_append, hconclusions, hconclusions, hrule.about, ih,
      ruleStrength, ruleStrength, hrule.premise]

/-- **What they add up to.** -/
theorem sumOf_congr : c.sumOf rules output = c.sumOf rules' output := by
  have habout (rules : List Rule) : c.conclusionsAbout rules output
      = ((c.conclusionsFrom 0 rules).filter fun p => p.1.subject = output).filter
          fun p => 0 < p.2 := by
    rw [List.filter_filter]
    refine List.filter_congr fun p _ => ?_
    show decide (p.1.subject = output ∧ 0 < p.2) = _
    rw [Bool.decide_and, Bool.and_comm]
  unfold sumOf
  rw [habout, habout, filter_conclusionsFrom_congr h]

omit h in
/-- Where a term is only named in conclusions about the output, the others
make no difference to its activation. -/
theorem filter_term_eq (t : TermRef)
    (hname : ∀ r ∈ rules, ∀ a ∈ r.conclusions, a.term = t → a.subject = output) :
    ((c.conclusionsFrom 0 rules).filter fun p => p.1.term = t)
      = ((c.conclusionsFrom 0 rules).filter fun p => p.1.subject = output).filter
          fun p => p.1.term = t := by
  rw [List.filter_filter]
  refine List.filter_congr fun p hp => ?_
  obtain ⟨r, hr, ha⟩ := exists_of_mem_conclusionsFrom hp
  by_cases ht : p.1.term = t
  · rw [decide_eq_true ht, decide_eq_true (hname r hr p.1 ha ht)]
    rfl
  · rw [decide_eq_false ht]
    rfl

/-- **The activation of a term** that is one of the output. -/
theorem activationOf_congr {t : TermRef}
    (hname : ∀ r ∈ rules, ∀ a ∈ r.conclusions, a.term = t → a.subject = output)
    (hname' : ∀ r ∈ rules', ∀ a ∈ r.conclusions, a.term = t → a.subject = output) :
    c.activationOf rules t = c.activationOf rules' t := by
  unfold activationOf
  rw [filter_term_eq t hname, filter_term_eq t hname', filter_conclusionsFrom_congr h]

/-- **A term of the output** has the same activation in both meanings, if
their conclusions are all about the outputs their terms are of. -/
theorem getElem?_activations_congr
    (hresolves : ∀ r ∈ rules, ∀ a ∈ r.conclusions, c.Resolves .output a)
    (hresolves' : ∀ r ∈ rules', ∀ a ∈ r.conclusions, c.Resolves .output a) {slot : Nat}
    {t : Term α} (ht : c.term? .output slot = some t) (howner : t.owner = output) :
    (c.meaning rules).activations[slot]? = (c.meaning rules').activations[slot]? := by
  have hsubject {a : Atom} (ha : c.Resolves .output a) (hslot : a.term.index = slot) :
      a.subject = output := by
    obtain ⟨u, hu, hsubject⟩ := ha
    rw [hslot, ht] at hu
    cases hu
    exact hsubject.symm.trans howner
  have hactivation (negated : Bool) :
      c.activationOf rules ⟨slot, negated⟩ = c.activationOf rules' ⟨slot, negated⟩ :=
    activationOf_congr h
      (fun r hr a ha hterm => hsubject (hresolves r hr a ha) (congrArg TermRef.index hterm))
      (fun r hr a ha hterm => hsubject (hresolves' r hr a ha) (congrArg TermRef.index hterm))
  have hslot : (List.range c.outputTerms.length)[slot]? = some slot :=
    List.getElem?_range (lt_of_term? ht)
  show (List.map _ _)[slot]? = (List.map _ _)[slot]?
  rw [List.getElem?_map, List.getElem?_map, hslot]
  simp only [Option.map_some, TermRef.is, TermRef.isNot, hactivation]

/-- **The output** has the same sum in both meanings. -/
theorem getElem?_sums_congr :
    (c.meaning rules).sums[output]? = (c.meaning rules').sums[output]? := by
  show (List.map _ _)[output]? = (List.map _ _)[output]?
  rw [List.getElem?_map, List.getElem?_map]
  refine Option.map_congr fun k hk => ?_
  obtain ⟨hlt, rfl⟩ := List.getElem?_eq_some_iff.mp hk
  rw [List.getElem_range, sumOf_congr h]

end Meaning

/-! ## What is read off the findings -/

/-- The outputs that have been given their crisp values, one by one. -/
theorem getElem?_of_defuzzify {d e : Controller α} (h : d.defuzzify = .ok e) (output : Nat) :
    e.outputs[output]?.map some
      = d.outputs[output]?.map fun v => d.defuzzified? (v, output) := by
  obtain ⟨-, outputs, houtputs, rfl⟩ := defuzzify_eq_ok h
  have hplace := congrArg (·[output]?) (List.mapM_eq_some_iff.mp houtputs)
  simp only [List.getElem?_map, List.getElem?_zipIdx, Option.map_map, Nat.zero_add] at hplace
  exact hplace.symm

/-- **The value of an output** that has been given its crisp value. -/
theorem value_of_crisp? {d e : Controller α} (h : d.defuzzify = .ok e) {output : Nat}
    {v : Variable α} (hv : d.outputs[output]? = some v) {x y : α}
    (hx : d.crisp? output v = some x) (hy : v.saturateFinite? x = some y) :
    e.value .output output = .ok y := by
  have hplace := getElem?_of_defuzzify h output
  rw [hv, Option.map_some, defuzzified?, hx, Option.bind_eq_bind, Option.bind_some, hy] at hplace
  obtain ⟨w, hw, hvalue⟩ := Option.map_eq_some_iff.mp hplace
  cases hvalue
  unfold value
  rw [show (e.variablesOf .output)[output]? = _ from hw]

section Findings

variable {x y : Cycle α}

/-- **The curve of an output** is made of the activations of its own
terms. -/
theorem curve?_congr (hlength : x.activations.length = y.activations.length)
    (hterms : ∀ slot t, c.term? .output slot = some t → t.owner = output →
      x.activations[slot]? = y.activations[slot]?) (z : α) :
    ({ c with cycle := x } : Controller α).curve? output z
      = ({ c with cycle := y } : Controller α).curve? output z := by
  refine bind_congr fun v => List.foldlM_zip_congr hlength ?_ 0
  intro slot o a b ho ha hb degree
  cases o with
  | none => rfl
  | some t =>
    by_cases howner : t.owner = output
    · have hterm : c.term? .output slot = some t := congrArg Option.join ho
      have heq := hterms slot t hterm howner
      rw [ha, hb] at heq
      rw [Option.some.inj heq]
    · exact (if_pos howner).trans (if_pos howner).symm

variable (hcurve : ∀ z, ({ c with cycle := x } : Controller α).curve? output z
    = ({ c with cycle := y } : Controller α).curve? output z)

include hcurve

theorem curve_congr (z : α) :
    ({ c with cycle := x } : Controller α).curve output z
      = ({ c with cycle := y } : Controller α).curve output z := by
  unfold curve
  rw [hcurve]
  rfl

theorem region_congr :
    ({ c with cycle := x } : Controller α).region output
      = ({ c with cycle := y } : Controller α).region output := by
  unfold region
  simp only [hcurve]
  rfl

/-- **The crisp value of an output** comes from its curve, or from its sum. -/
theorem defuzzified?_congr (hsum : x.sums[output]? = y.sums[output]?) (v : Variable α) :
    ({ c with cycle := x } : Controller α).defuzzified? (v, output)
      = ({ c with cycle := y } : Controller α).defuzzified? (v, output) := by
  have hsamples : ({ c with cycle := x } : Controller α).samples? output v
      = ({ c with cycle := y } : Controller α).samples? output v := by
    unfold samples?
    simp only [hcurve]
    rfl
  have hcrisp : ({ c with cycle := x } : Controller α).crisp? output v
      = ({ c with cycle := y } : Controller α).crisp? output v := by
    unfold crisp?
    rw [hsamples]
    cases c.style with
    | mamdani => rfl
    | sugeno =>
      show x.sums[output]? >>= _ = y.sums[output]? >>= _
      rw [hsum]
    | tsukamoto =>
      show x.sums[output]? >>= _ = y.sums[output]? >>= _
      rw [hsum]
  show Controller.crisp? _ output v >>= _ = Controller.crisp? _ output v >>= _
  rw [hcrisp]

/-- **The value of the output**, when both have been defuzzified. -/
theorem value_of_defuzzify (hsum : x.sums[output]? = y.sums[output]?) {d e : Controller α}
    (hd : ({ c with cycle := x } : Controller α).defuzzify = .ok d)
    (he : ({ c with cycle := y } : Controller α).defuzzify = .ok e) :
    d.value .output output = e.value .output output := by
  have houtput : (d.variablesOf .output)[output]? = (e.variablesOf .output)[output]? := by
    refine Option.map_injective (fun _ _ => Option.some.inj) ?_
    show d.outputs[output]?.map some = e.outputs[output]?.map some
    rw [getElem?_of_defuzzify hd, getElem?_of_defuzzify he]
    exact Option.map_congr fun v _ => defuzzified?_congr hcurve hsum v
  unfold value
  rw [houtput]

end Findings

/-! ## Two inferences -/

omit [Scalar α] in
/-- **An encoded rule base that is accepted** is what its stream begins with, as
it is read, and the controller takes its events. -/
theorem takes_of_accept {w : Width} {s : RuleStream w} (hs : RuleStream.encode w rules = .ok s)
    (haccept : c.accept s.tokens = .ok ()) :
    Stream.Begins c.bounds (rules.map Rule.reread) s.table ∧
      ∀ e ∈ Rule.script (rules.map Rule.reread), c.Takes e := by
  have hbegins := Stream.begins_reread hs (accepts_of_accept haccept)
  obtain ⟨rules', hbegins', htakes⟩ := accept_eq_ok_iff.mp haccept
  rw [Stream.begins_unique hbegins hbegins'] at htakes
  exact ⟨hbegins, htakes⟩

variable [Scalar.IsOrdered α]

/-- **An inference that succeeds** leaves behind what its rule base means, as
it has been read, and all its conclusions are about the outputs their terms
are of. -/
theorem infer_eq_meaning (hc : c.Sound) {w : Width} {s : RuleStream w}
    (hs : RuleStream.encode w rules = .ok s) {n : Nat} {d : Controller α}
    (h : c.infer s.tokens = (.ok n, d)) :
    (∀ r ∈ rules.map Rule.reread, ∀ a ∈ r.conclusions, c.Resolves .output a) ∧
      d = { c with cycle := c.meaning (rules.map Rule.reread) } := by
  rcases infer_cases c s.tokens with ⟨u, hinfer⟩ | ⟨f, -, hinfer⟩ | ⟨haccept, hinfer⟩
  · rw [hinfer] at h
    cases h
  · rw [hinfer] at h
    cases h
  obtain ⟨hbegins, htakes⟩ := takes_of_accept hs haccept
  constructor
  · intro r hr a ha
    obtain ⟨closes, he⟩ := Rule.conclusion_mem_script_iff.mpr ⟨r, hr, ha⟩
    exact (htakes _ he).2
  · rw [hinfer, fireStream_eq_meaning hc hbegins htakes] at h
    exact (Prod.mk.inj h).2.symm

/-- **Outputs do not see each other.** When two rule bases with the same
premises that agree on an output, rule by rule, are both inferred with
success, the strengths of the rules, the activations of the terms of the
output, its sum, its curve and its region are the same, and so is its value
when the outputs have been defuzzified, which they can be. -/
theorem isolated_of_agreeOn (hc : c.Reachable)
    (hagree : List.Forall₂ (Rule.AgreeOn output) rules rules') {w w' : Width} {s : RuleStream w}
    {s' : RuleStream w'} (hs : RuleStream.encode w rules = .ok s)
    (hs' : RuleStream.encode w' rules' = .ok s') {n n' : Nat} {d d' : Controller α}
    (h : c.infer s.tokens = (.ok n, d)) (h' : c.infer s'.tokens = (.ok n', d')) :
    d.cycle.strengths = d'.cycle.strengths ∧
    (∀ slot t, c.term? .output slot = some t → t.owner = output →
      d.cycle.activations[slot]? = d'.cycle.activations[slot]?) ∧
    d.cycle.sums[output]? = d'.cycle.sums[output]? ∧
    (∀ x, d.curve output x = d'.curve output x) ∧
    d.region output = d'.region output ∧
    ∃ e e', d.defuzzify = .ok e ∧ d'.defuzzify = .ok e' ∧
      e.value .output output = e'.value .output output ∧ e.output output = e'.output output := by
  obtain ⟨hresolves, rfl⟩ := infer_eq_meaning hc.sound hs h
  obtain ⟨hresolves', rfl⟩ := infer_eq_meaning hc.sound hs' h'
  have hreread : List.Forall₂ (Rule.AgreeOn output) (rules.map Rule.reread)
      (rules'.map Rule.reread) := by
    rw [List.forall₂_map_left_iff, List.forall₂_map_right_iff]
    exact hagree.imp fun _ _ hrule => hrule.reread
  have hactivations (slot : Nat) (t : Term α) (ht : c.term? .output slot = some t)
      (howner : t.owner = output) :=
    getElem?_activations_congr hreread hresolves hresolves' ht howner
  have hsum := getElem?_sums_congr (c := c) hreread
  have hlength : (c.meaning (rules.map Rule.reread)).activations.length
      = (c.meaning (rules'.map Rule.reread)).activations.length := by
    show (List.map _ _).length = (List.map _ _).length
    rw [List.length_map, List.length_map]
  have hcurve := curve?_congr hlength hactivations
  refine ⟨strengthsFrom_congr hreread 0, hactivations, hsum, curve_congr hcurve,
    region_congr hcurve, ?_⟩
  -- defuzzifying succeeds for both, and does the same to the output
  have hsound := sound_infer hc.sound s.tokens
  rw [h] at hsound
  have hsound' := sound_infer hc.sound s'.tokens
  rw [h'] at hsound'
  obtain ⟨e, he⟩ := exists_defuzzify hsound rfl
  obtain ⟨e', he'⟩ := exists_defuzzify hsound' rfl
  have hvalue := value_of_defuzzify hcurve hsum he he'
  refine ⟨e, e', he, he', hvalue, ?_⟩
  unfold Controller.output
  rw [hvalue]

/-- A Mamdani controller of two outputs with a term each, whose input has been
fuzzified. -/
def paired : Controller Float32 :=
  Controller.after
    { bare with
      outputs := [⟨0, 1, 0⟩, ⟨0, 1, 0⟩]
      cycle := ⟨[0], [0], [⟨0, 0⟩, ⟨0, 0⟩], [⟨0, 0⟩, ⟨0, 0⟩], [], false, false⟩ }
    [.bindTerm ⟨.input, 0, 0, .builtin .constant, [1], 1⟩,
      .bindTerm ⟨.output, 0, 0, .builtin .linearS, [0, 1], 1⟩,
      .bindTerm ⟨.output, 1, 1, .builtin .linearZ, [0, 1], 1⟩, .fuzzify]

theorem reachable_paired : paired.Reachable := by
  have hsetup : setup .mamdani [⟨0, 1, 0⟩] [⟨0, 1, 0⟩, ⟨0, 1, 0⟩] 1 2 = .ok { bare with
      outputs := [⟨0, 1, 0⟩, ⟨0, 1, 0⟩]
      cycle := ⟨[0], [0], [⟨0, 0⟩, ⟨0, 0⟩], [⟨0, 0⟩, ⟨0, 0⟩], [], false, false⟩ } := rfl
  exact (Reachable.setup hsetup).after _

/-- A rule that says nothing of the second output. -/
def sparing : Rule := ⟨some ⟨⟨0, .is 0⟩, []⟩, [⟨0, .is 0⟩]⟩

/-- A rule that says the same of the first output, and something of the
second. -/
def lavish : Rule := ⟨some ⟨⟨0, .is 0⟩, []⟩, [⟨1, .isNot 1⟩, ⟨0, .is 0⟩]⟩

/-- The one rule at thirty-two bits. -/
def sparingStream : RuleStream .bits32 where
  table := [Mark.opening.raw _, ⟨0, by decide⟩, ⟨1, by decide⟩, Mark.consequence.raw _,
    ⟨0, by decide⟩, ⟨1, by decide⟩, Mark.closing.raw _]

/-- The other at sixteen. -/
def lavishStream : RuleStream .bits16 where
  table := [Mark.opening.raw _, ⟨0, by decide⟩, ⟨1, by decide⟩, Mark.consequence.raw _,
    ⟨1, by decide⟩, ⟨-2, by decide⟩, Mark.conjunction.raw _, ⟨0, by decide⟩, ⟨1, by decide⟩,
    Mark.closing.raw _]

theorem isolated_of_agreeOn_lavish :
    ∃ d d', paired.infer sparingStream.tokens = (.ok 1, d) ∧
      paired.infer lavishStream.tokens = (.ok 1, d') ∧ d.region 0 = d'.region 0 ∧
      d.cycle.activations.length = 2 ∧
      d.cycle.activations.map Activation.negated ≠ d'.cycle.activations.map Activation.negated := by
  have hagree : List.Forall₂ (Rule.AgreeOn 0) [sparing] [lavish] := .cons ⟨rfl, rfl⟩ .nil
  have hs : RuleStream.encode .bits32 [sparing] = .ok sparingStream := rfl
  have hs' : RuleStream.encode .bits16 [lavish] = .ok lavishStream := rfl
  have h : paired.infer sparingStream.tokens
      = (.ok 1, (paired.infer sparingStream.tokens).2) :=
    Prod.ext (Except.eq_ok_of_toOption (by decide +kernel)) rfl
  have h' : paired.infer lavishStream.tokens = (.ok 1, (paired.infer lavishStream.tokens).2) :=
    Prod.ext (Except.eq_ok_of_toOption (by decide +kernel)) rfl
  obtain ⟨-, -, -, -, hregion, -⟩ := isolated_of_agreeOn reachable_paired hagree hs hs' h h'
  exact ⟨_, _, h, h', hregion, by decide +kernel, by decide +kernel⟩

end Controller

end FuzzyInference
