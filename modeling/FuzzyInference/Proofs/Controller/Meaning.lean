import FuzzyInference.Proofs.Controller.Firing
import FuzzyInference.Proofs.Stream.Reread

/-!
# What a rule base means to a controller

Inference runs through a stream event by event and keeps a strength that
is raised, weighted, used for some conclusions and forgotten. What it
computes can be said without any stream: every rule has a strength, every
conclusion of the rule base has the strength of its rule, a term is
activated by the conclusions that name it, and the conclusions about an
output are added up. `Controller.meaning` says so, rule by rule and place
by place, and `Controller.infer_of_encode` that this is what inference
leaves behind.

In between stand the findings as they are in the middle of a stream,
`Controller.findings`, of which only three tables ever change. A rule
appends its strength to one of them and draws its conclusions on the other
two (`Controller.foldl_fired_events`), and the tables that the rules of a
rule base leave behind are changes of places, one after the other, which
come apart place by place (`List.foldl_modify_replicate`).
-/

namespace FuzzyInference

namespace Controller

variable {α : Type} [Scalar α] {c : Controller α}

/-! ## The meaning of a rule base -/

/-- **The strength of a premise**: its statements from left to right, joined
by the norms of the connectives with no regard to which binds more
tightly. -/
def premiseStrength (c : Controller α) (p : Premise) : α :=
  p.rest.foldl (fun strength (k, a) =>
      (c.norms.joining k).apply strength (c.cycle.degreeOf a.term))
    (Scalar.clampUnit (0 + c.cycle.degreeOf p.first.term))

/-- **The strength of a rule** in a place of a rule base: that of its premise,
weighted. -/
def ruleStrength (c : Controller α) (i : Nat) (r : Rule) : α :=
  match r.premise with
  | some p => c.premiseStrength p * c.weight i
  | none => 0

/-- The strengths of the rules of a rule base, the first of which is in the
`k`-th place. -/
def strengthsFrom (c : Controller α) (k : Nat) (rules : List Rule) : List α :=
  (rules.zipIdx k).map fun (r, i) => c.ruleStrength i r

/-- The conclusions of a rule base, each with the strength of its rule. -/
def conclusionsFrom (c : Controller α) (k : Nat) (rules : List Rule) : List (Atom × α) :=
  (rules.zipIdx k).flatMap fun (r, i) => r.conclusions.map (·, c.ruleStrength i r)

/-- They are conclusions of its rules. -/
theorem exists_of_mem_conclusionsFrom {k : Nat} {rules : List Rule} {a : Atom} {strength : α}
    (h : (a, strength) ∈ c.conclusionsFrom k rules) : ∃ r ∈ rules, a ∈ r.conclusions := by
  obtain ⟨⟨r, i⟩, hr, h⟩ := List.mem_flatMap.mp h
  obtain ⟨b, hb, heq⟩ := List.mem_map.mp h
  cases heq
  exact ⟨r, List.fst_mem_of_mem_zipIdx hr, hb⟩

/-- **The activation of a term** by the conclusions that assert it, or that
deny it. -/
def activationOf (c : Controller α) (rules : List Rule) (t : TermRef) : α :=
  ((c.conclusionsFrom 0 rules).filter fun (a, _) => a.term = t).foldl
    (fun x (_, strength) => c.norms.aggregation.apply x strength) 0

/-- The conclusions about an output whose rules have some strength. -/
def conclusionsAbout (c : Controller α) (rules : List Rule) (output : Nat) : List (Atom × α) :=
  (c.conclusionsFrom 0 rules).filter fun (a, strength) => a.subject = output ∧ 0 < strength

/-- **What the conclusions about an output add up to.** -/
def sumOf (c : Controller α) (rules : List Rule) (output : Nat) : WeightedSum α where
  weighted := (c.conclusionsAbout rules output).foldl
    (fun x (a, strength) => x + c.conclusion c.cycle.inputs a strength * strength) 0
  weight := (c.conclusionsAbout rules output).foldl (fun x (_, strength) => x + strength) 0

/-- **What a rule base means**: the findings of a controller after the
inference. In a Mamdani system the output terms are activated, in the other
styles the conclusions about the outputs are added up. -/
def meaning (c : Controller α) (rules : List Rule) : Cycle α :=
  { c.cycle with
    activations := (List.range c.outputTerms.length).map fun slot =>
      if c.style = .mamdani then
        ⟨c.activationOf rules (.is slot), c.activationOf rules (.isNot slot)⟩
      else ⟨0, 0⟩
    sums := (List.range c.outputs.length).map fun output =>
      if c.style = .mamdani then ⟨0, 0⟩ else c.sumOf rules output
    strengths := c.strengthsFrom 0 rules
    inferred := true }

/-! ## One rule -/

/-- The findings in the middle of a stream. -/
def findings (c : Controller α) (activations : List (Activation α)) (sums : List (WeightedSum α))
    (strengths : List α) : Cycle α :=
  { c.cycle with activations := activations, sums := sums, strengths := strengths }

/-- The activations after a conclusion of a strength. -/
def raised (c : Controller α) (activations : List (Activation α)) (p : Atom × α) :
    List (Activation α) :=
  if c.style = .mamdani then
    activations.modify p.1.term.index fun activation =>
      Activation.raise activation c.norms.aggregation p.1.term.negated p.2
  else activations

/-- The sums after a conclusion of a strength. -/
def added (c : Controller α) (sums : List (WeightedSum α)) (p : Atom × α) :
    List (WeightedSum α) :=
  if ¬ c.style = .mamdani ∧ 0 < p.2 then
    sums.modify p.1.subject fun sum =>
      WeightedSum.add sum (c.conclusion c.cycle.inputs p.1 p.2) p.2
  else sums

variable {activations : List (Activation α)} {sums : List (WeightedSum α)} {strengths : List α}

theorem concluded_findings (a : Atom) (strength : α) :
    c.concluded (c.findings activations sums strengths) a strength
      = c.findings (c.raised activations (a, strength)) (c.added sums (a, strength)) strengths := by
  unfold raised added
  by_cases hstyle : c.style = .mamdani
  · have hadded : ¬ (¬ c.style = .mamdani ∧ 0 < strength) := fun h => h.1 hstyle
    rw [if_pos hstyle, if_neg hadded, concluded, hstyle]
    rfl
  · rw [concluded_of_ne_mamdani hstyle, if_neg hstyle]
    by_cases hpos : 0 < strength
    · rw [if_pos hpos, if_pos ⟨hstyle, hpos⟩]
      rfl
    · have hadded : ¬ (¬ c.style = .mamdani ∧ 0 < strength) := fun h => hpos h.2
      rw [if_neg hpos, if_neg hadded]

/-- **The statements of a premise** raise a strength one after the other, and
the last one has it weighted and noted. -/
theorem foldl_fired_clauses {clauses : List (Option Connective × Atom)} (h : clauses ≠ [])
    (strength : α) (closed : Nat) :
    ((markLast clauses).map Event.ofClause).foldl c.fired
        ⟨c.findings activations sums strengths, strength, closed⟩
      = ⟨c.findings activations sums (strengths ++ [clauses.foldl (fun strength (k, a) =>
            joinDegree c.norms k strength (c.cycle.degreeOf a.term)) strength
          * c.weight strengths.length]),
        clauses.foldl (fun strength (k, a) =>
            joinDegree c.norms k strength (c.cycle.degreeOf a.term)) strength
          * c.weight strengths.length, closed⟩ := by
  induction clauses generalizing strength with
  | nil => exact absurd rfl h
  | cons q clauses ih =>
    cases clauses with
    | nil => rfl
    | cons q' clauses => exact ih (List.cons_ne_nil q' clauses) _

/-- **The conclusions of a rule** are drawn with its strength, which is
forgotten with the last of them. -/
theorem foldl_fired_conclusions {l : List Atom} (h : l ≠ []) (strength : α) (closed : Nat) :
    ((markLast l).map Event.ofConclusion).foldl c.fired
        ⟨c.findings activations sums strengths, strength, closed⟩
      = ⟨c.findings ((l.map (·, strength)).foldl c.raised activations)
          ((l.map (·, strength)).foldl c.added sums) strengths, 0, closed + 1⟩ := by
  induction l generalizing activations sums with
  | nil => exact absurd rfl h
  | cons a l ih =>
    have hfired (closes : Bool) :
        c.fired ⟨c.findings activations sums strengths, strength, closed⟩ (.conclusion a closes)
          = ⟨c.findings (c.raised activations (a, strength)) (c.added sums (a, strength))
              strengths, if closes then 0 else strength,
              if closes then closed + 1 else closed⟩ := by
      rw [← concluded_findings]
      cases closes <;> rfl
    cases l with
    | nil => exact hfired true
    | cons b l =>
      rw [markLast, List.map_cons, List.foldl_cons]
      show List.foldl c.fired (c.fired _ (.conclusion a false)) _ = _
      rw [hfired false]
      exact ih (List.cons_ne_nil b l)

/-- The statements of a premise make up its strength, whatever was before
them. -/
theorem foldl_joinDegree (p : Premise) (strength : α) :
    p.clauses.foldl (fun strength (k, a) =>
        joinDegree c.norms k strength (c.cycle.degreeOf a.term)) strength
      = c.premiseStrength p := by
  unfold Premise.clauses
  rw [List.foldl_cons, List.foldl_map]
  rfl

/-- **A rule** appends its strength and draws its conclusions. -/
theorem foldl_fired_events {r : Rule} (hr : r.IsComplete) (closed : Nat) :
    r.events.foldl c.fired ⟨c.findings activations sums strengths, 0, closed⟩
      = ⟨c.findings
          ((r.conclusions.map (·, c.ruleStrength strengths.length r)).foldl c.raised activations)
          ((r.conclusions.map (·, c.ruleStrength strengths.length r)).foldl c.added sums)
          (strengths ++ [c.ruleStrength strengths.length r]), 0, closed + 1⟩ := by
  have hstrength (strength : α) :
      r.clauses.foldl (fun strength (k, a) =>
          joinDegree c.norms k strength (c.cycle.degreeOf a.term)) strength
        * c.weight strengths.length = c.ruleStrength strengths.length r := by
    obtain ⟨premise, conclusions⟩ := r
    cases premise with
    | none => cases hr.1
    | some p => exact congrArg (· * c.weight strengths.length) (foldl_joinDegree p strength)
  rw [Rule.events, List.foldl_append, foldl_fired_clauses (Rule.clauses_ne_nil hr), hstrength,
    foldl_fired_conclusions hr.2]

/-! ## All rules -/

/-- **The rules of a rule base** append their strengths and draw their
conclusions. By induction on the rules; the place of a rule is the number
of the strengths that have been noted before. -/
theorem foldl_fired_rules {rules : List Rule} (h : ∀ r ∈ rules, r.IsComplete) (closed : Nat) :
    (rules.flatMap Rule.events).foldl c.fired
        ⟨c.findings activations sums strengths, 0, closed⟩
      = ⟨c.findings ((c.conclusionsFrom strengths.length rules).foldl c.raised activations)
          ((c.conclusionsFrom strengths.length rules).foldl c.added sums)
          (strengths ++ c.strengthsFrom strengths.length rules), 0, closed + rules.length⟩ := by
  induction rules generalizing activations sums strengths closed with
  | nil =>
    rw [strengthsFrom, List.zipIdx_nil, List.map_nil, List.append_nil]
    rfl
  | cons r rules ih =>
    obtain ⟨hr, hrules⟩ := List.forall_mem_cons.mp h
    -- the strength of `r` has been noted when the others are fired, so they count from one more
    rw [List.flatMap_cons, List.foldl_append, foldl_fired_events hr, ih hrules, strengthsFrom,
      strengthsFrom, conclusionsFrom, conclusionsFrom, List.zipIdx_cons, List.map_cons,
      List.flatMap_cons, List.foldl_append, List.foldl_append, List.length_append,
      List.append_assoc, Nat.add_assoc, Nat.add_comm 1]
    rfl

/-! ## Place by place -/

/-- The activation of a term comes apart into what asserts it and what
denies it. -/
theorem foldl_raise (l : List (Atom × α)) (slot : Nat) (x : Activation α) :
    (l.filter fun p => p.1.term.index = slot).foldl (fun activation p =>
        Activation.raise activation c.norms.aggregation p.1.term.negated p.2) x
      = ⟨(l.filter fun p => p.1.term = .is slot).foldl
            (fun x p => c.norms.aggregation.apply x p.2) x.direct,
          (l.filter fun p => p.1.term = .isNot slot).foldl
            (fun x p => c.norms.aggregation.apply x p.2) x.negated⟩ := by
  induction l generalizing x with
  | nil => rfl
  | cons p l ih =>
    obtain ⟨⟨subject, ⟨index, negated⟩⟩, strength⟩ := p
    by_cases hindex : index = slot
    · subst hindex
      cases negated with
      | true =>
        have hne : TermRef.mk index true ≠ .is index := fun h => by cases h
        rw [List.filter_cons_of_pos (by exact decide_eq_true rfl),
          List.filter_cons_of_neg (by simpa using hne),
          List.filter_cons_of_pos (by exact decide_eq_true rfl)]
        exact ih _
      | false =>
        have hne : TermRef.mk index false ≠ .isNot index := fun h => by cases h
        rw [List.filter_cons_of_pos (by exact decide_eq_true rfl),
          List.filter_cons_of_pos (by exact decide_eq_true rfl),
          List.filter_cons_of_neg (by simpa using hne)]
        exact ih _
    · have his : TermRef.mk index negated ≠ .is slot := fun h => hindex (congrArg TermRef.index h)
      have hisNot : TermRef.mk index negated ≠ .isNot slot :=
        fun h => hindex (congrArg TermRef.index h)
      rw [List.filter_cons_of_neg (by simpa using hindex),
        List.filter_cons_of_neg (by simpa using his),
        List.filter_cons_of_neg (by simpa using hisNot)]
      exact ih x

/-- A sum comes apart into the conclusions and their strengths. -/
theorem foldl_add (l : List (Atom × α)) (s : WeightedSum α) :
    l.foldl (fun sum p => WeightedSum.add sum (c.conclusion c.cycle.inputs p.1 p.2) p.2) s
      = ⟨l.foldl (fun x p => x + c.conclusion c.cycle.inputs p.1 p.2 * p.2) s.weighted,
          l.foldl (fun x p => x + p.2) s.weight⟩ := by
  induction l generalizing s with
  | nil => rfl
  | cons p l ih => exact ih _

/-- **The activations after a rule base**, place by place. -/
theorem foldl_raised (rules : List Rule) (n : Nat) :
    (c.conclusionsFrom 0 rules).foldl c.raised (List.replicate n ⟨0, 0⟩)
      = (List.range n).map fun slot =>
          if c.style = .mamdani then
            ⟨c.activationOf rules (.is slot), c.activationOf rules (.isNot slot)⟩
          else ⟨0, 0⟩ := by
  by_cases hstyle : c.style = .mamdani
  · have hraised : c.raised = fun activations p =>
        activations.modify p.1.term.index fun activation =>
          Activation.raise activation c.norms.aggregation p.1.term.negated p.2 := by
      funext activations p
      exact if_pos hstyle
    rw [hraised, List.foldl_modify_replicate]
    refine List.map_congr_left fun slot _ => ?_
    rw [if_pos hstyle, foldl_raise]
    rfl
  · have hraised (activations : List (Activation α)) (p : Atom × α) :
        c.raised activations p = activations := if_neg hstyle
    rw [List.foldl_eq_self hraised]
    simp only [if_neg hstyle, List.map_const', List.length_range]

/-- **The sums after a rule base**, output by output. -/
theorem foldl_added (rules : List Rule) (n : Nat) :
    (c.conclusionsFrom 0 rules).foldl c.added (List.replicate n ⟨0, 0⟩)
      = (List.range n).map fun output =>
          if c.style = .mamdani then ⟨0, 0⟩ else c.sumOf rules output := by
  by_cases hstyle : c.style = .mamdani
  · have hadded (sums : List (WeightedSum α)) (p : Atom × α) : c.added sums p = sums :=
      if_neg fun h => h.1 hstyle
    rw [List.foldl_eq_self hadded]
    simp only [if_pos hstyle, List.map_const', List.length_range]
  · have hadded : c.added = fun sums p =>
        if decide (0 < p.2) = true then
          sums.modify p.1.subject fun sum =>
            WeightedSum.add sum (c.conclusion c.cycle.inputs p.1 p.2) p.2
        else sums := by
      funext sums p
      unfold added
      by_cases hpos : 0 < p.2
      · rw [if_pos ⟨hstyle, hpos⟩, if_pos (decide_eq_true hpos)]
      · have hnot : ¬ (¬ c.style = .mamdani ∧ 0 < p.2) := fun h => hpos h.2
        rw [if_neg hnot, if_neg (by simpa using hpos)]
    -- leaving out first what has no strength and then what is about other outputs
    rw [hadded, ← List.foldl_filter, List.foldl_modify_replicate]
    refine List.map_congr_left fun output _ => ?_
    rw [if_neg hstyle, foldl_add, List.filter_filter]
    unfold sumOf conclusionsAbout
    simp only [Bool.decide_and]

/-! ## The whole inference -/

/-- The findings that have been taken back are the same everywhere. -/
theorem cycle_cleared (hc : c.Sound) :
    c.cleared.cycle = c.cleared.findings (List.replicate c.outputTerms.length ⟨0, 0⟩)
      (List.replicate c.outputs.length ⟨0, 0⟩) [] := by
  unfold cleared Cycle.cleared
  rw [List.map_const', List.map_const', hc.fits.activations, hc.fits.sums]
  rfl

variable [Scalar.IsOrdered α]

/-- **The second reading finds what the rule base means.** -/
theorem fireStream_eq_meaning (hc : c.Sound) {w : Width} {s : RuleStream w} {rules : List Rule}
    (hbegins : Stream.Begins c.bounds rules s.table)
    (htakes : ∀ e ∈ Rule.script rules, c.Takes e) :
    c.cleared.fireStream s.tokens = (.ok rules.length, { c with cycle := c.meaning rules }) := by
  have hfired := fireStream_of_begins (sound_cleared hc) hbegins htakes
  rw [cycle_cleared hc, foldl_fired_rules fun r hr => (hbegins.fits r hr).complete, List.length_nil,
    foldl_raised, foldl_added, Nat.zero_add] at hfired
  exact hfired

end Controller

end FuzzyInference
