import FuzzyInference.Proofs.Controller.Meaning

/-!
# How many rules there are

The number of the rules of a stream is found in three ways. Inference counts
a rule when its conclusions have come to their end, it notes a strength when
a premise has, and anybody can count the marks of consequence without any
grammar at all. On a stream that is accepted the three agree
(`Controller.count_of_infer`), since such a stream begins with the tokens of
a rule base, and a rule has the mark of consequence in it once
(`Rule.count_tokens`) and the closing mark nowhere (`Rule.closing_notMem_tokens`).

More than the numbers agree. What stands in front of the mark of number `k`
are the rules of the numbers below `k` and the premise of rule `k`
(`RuleStream.exists_premise_of_split`), so this is the premise that the
strength of number `k` is the strength of, and the one that is weighted by
the weight of number `k`.
-/

/-- **Where an element is found** behind a list that it is not in. -/
theorem List.exists_append_of_notMem {α : Type} {l l' front back : List α} {a : α} (ha : a ∉ l)
    (h : l ++ l' = front ++ a :: back) :
    ∃ front', front = l ++ front' ∧ l' = front' ++ a :: back := by
  rcases List.append_eq_append_iff.mp h with ⟨front', hfront, hl'⟩ | ⟨between, hl, hback⟩
  · exact ⟨front', hfront, hl'⟩
  · cases between with
    | nil => exact ⟨[], by rw [hl, List.append_nil, List.append_nil], hback.symm⟩
    | cons b between =>
      cases (List.cons.inj hback).1
      exact absurd (hl ▸ List.mem_append_right front List.mem_cons_self) ha

/-- **Where an element is found first** is one place only. -/
theorem List.append_cons_inj_of_first {α : Type} {l l' front back : List α} {a : α} (ha : a ∉ l)
    (ha' : a ∉ front) (h : l ++ a :: l' = front ++ a :: back) : l = front ∧ l' = back := by
  obtain ⟨between, rfl, hback⟩ := List.exists_append_of_notMem ha h
  cases between with
  | nil => exact ⟨(List.append_nil l).symm, (List.cons.inj hback).2⟩
  | cons b between =>
    cases (List.cons.inj hback).1
    exact absurd (List.mem_append_right l List.mem_cons_self) ha'

namespace FuzzyInference

/-! ## The marks of a rule base -/

section Marks

/-- Statements are written without the mark of consequence and without the
closing mark. -/
theorem Atom.mark_notMem_linkedTokens {m : Mark} (hm : ∀ k, m ≠ .ofConnective k)
    (linked : List (Connective × Atom)) : Token.mark m ∉ linkedTokens linked := by
  intro h
  obtain ⟨⟨k, a⟩, -, h⟩ := List.mem_flatMap.mp h
  rcases List.mem_cons.mp h with h | h
  · exact hm k (Token.mark.inj h)
  · simp [Atom.tokens] at h

/-- **The tokens of a premise.** -/
def Premise.tokens (p : Premise) : List Token := p.first.tokens ++ Atom.linkedTokens p.rest

theorem Premise.mark_notMem_tokens {m : Mark} (hm : ∀ k, m ≠ .ofConnective k) (p : Premise) :
    Token.mark m ∉ p.tokens := by
  intro h
  rcases List.mem_append.mp h with h | h
  · simp [Atom.tokens] at h
  · exact Atom.mark_notMem_linkedTokens hm p.rest h

theorem Mark.consequence_ne_ofConnective (k : Connective) : consequence ≠ .ofConnective k := by
  cases k <;> decide

theorem Mark.closing_ne_ofConnective (k : Connective) : closing ≠ .ofConnective k := by
  cases k <;> decide

namespace Rule

/-- **The tokens of a complete rule** are those of its premise, the mark of
consequence, and others with neither this mark nor the closing one. -/
theorem exists_tokens_eq {r : Rule} (hr : r.IsComplete) :
    ∃ p conclusions, r.premise = some p ∧
      r.tokens = p.tokens ++ .mark .consequence :: conclusions ∧
      .mark .consequence ∉ conclusions ∧ .mark .closing ∉ conclusions := by
  obtain ⟨premise, conclusions⟩ := r
  cases premise with
  | none => cases hr.1
  | some p =>
    cases conclusions with
    | nil => exact absurd rfl hr.2
    | cons a more =>
      have hnotMem {m : Mark} (hm : ∀ k, m ≠ .ofConnective k) :
          Token.mark m ∉ a.tokens ++ Atom.linkedTokens (more.map (Connective.and, ·)) := by
        intro h
        rcases List.mem_append.mp h with h | h
        · simp [Atom.tokens] at h
        · exact Atom.mark_notMem_linkedTokens hm _ h
      refine ⟨p, _, rfl, ?_, hnotMem Mark.consequence_ne_ofConnective,
        hnotMem Mark.closing_ne_ofConnective⟩
      simp only [tokens, Premise.tokens, List.append_assoc, List.cons_append]

/-- **A rule has the mark of consequence in it once.** -/
theorem count_tokens {r : Rule} (hr : r.IsComplete) :
    r.tokens.count (.mark .consequence) = 1 := by
  obtain ⟨p, conclusions, -, htokens, hconsequence, -⟩ := exists_tokens_eq hr
  rw [htokens, List.count_append, List.count_cons_self,
    List.count_eq_zero.mpr (p.mark_notMem_tokens Mark.consequence_ne_ofConnective),
    List.count_eq_zero.mpr hconsequence]

/-- A rule does not have the closing mark in it. -/
theorem closing_notMem_tokens {r : Rule} (hr : r.IsComplete) : .mark .closing ∉ r.tokens := by
  obtain ⟨p, conclusions, -, htokens, -, hclosing⟩ := exists_tokens_eq hr
  rw [htokens]
  intro h
  rcases List.mem_append.mp h with h | h
  · exact p.mark_notMem_tokens Mark.closing_ne_ofConnective h
  · rcases List.mem_cons.mp h with h | h
    · cases h
    · exact hclosing h

end Rule

variable {rules : List Rule}

/-- Rules have the mark of consequence in them as often as there are rules. -/
theorem Rule.count_flatMap_tokens (h : ∀ r ∈ rules, r.IsComplete) :
    (rules.flatMap Rule.tokens).count (.mark .consequence) = rules.length := by
  induction rules with
  | nil => rfl
  | cons r rules ih =>
    obtain ⟨hr, hrules⟩ := List.forall_mem_cons.mp h
    rw [List.flatMap_cons, List.count_append, Rule.count_tokens hr, ih hrules, List.length_cons,
      Nat.add_comm]

theorem Rule.closing_notMem_flatMap_tokens (h : ∀ r ∈ rules, r.IsComplete) :
    .mark .closing ∉ rules.flatMap Rule.tokens := by
  intro hmem
  obtain ⟨r, hr, hmem⟩ := List.mem_flatMap.mp hmem
  exact Rule.closing_notMem_tokens (h r hr) hmem

/-- **What stands in front of a mark of consequence** are some rules, and the
premise of the next one. By induction on the rules: the mark is that of the
first rule, or it stands behind the first rule. -/
theorem Rule.exists_premise_of_split (h : ∀ r ∈ rules, r.IsComplete)
    {before after more : List Token}
    (hsplit : rules.flatMap Rule.tokens ++ .mark .closing :: more
      = before ++ .mark .consequence :: after)
    (hbefore : .mark .closing ∉ before) :
    ∃ r p, rules[before.count (.mark .consequence)]? = some r ∧ r.premise = some p ∧
      before = (rules.take (before.count (.mark .consequence))).flatMap Rule.tokens
        ++ p.tokens := by
  induction rules generalizing before with
  | nil =>
    cases before with
    | nil => cases hsplit
    | cons t before =>
      cases (List.cons.inj hsplit).1
      exact absurd List.mem_cons_self hbefore
  | cons r rules ih =>
    obtain ⟨hr, hrules⟩ := List.forall_mem_cons.mp h
    obtain ⟨p, conclusions, hp, htokens, hconsequence, -⟩ := Rule.exists_tokens_eq hr
    have hpremise := p.mark_notMem_tokens Mark.consequence_ne_ofConnective
    rw [List.flatMap_cons, htokens, List.append_assoc, List.append_assoc, List.cons_append] at hsplit
    by_cases hmem : .mark .consequence ∈ before
    · -- the first mark in front is that of `r`, and the others are those of `rules`
      obtain ⟨front, behind, rfl, hfront⟩ := List.eq_append_cons_of_mem hmem
      rw [List.append_assoc, List.cons_append] at hsplit
      obtain ⟨rfl, hbehind⟩ := List.append_cons_inj_of_first hpremise hfront hsplit
      obtain ⟨front', rfl, hrest⟩ := List.exists_append_of_notMem hconsequence hbehind
      have hclosing : .mark .closing ∉ front' := fun h =>
        hbefore (List.mem_append_right _ (List.mem_cons_of_mem _ (List.mem_append_right _ h)))
      obtain ⟨r', p', hr', hp', hfront'⟩ := ih hrules hrest hclosing
      have hcount : (p.tokens ++ .mark .consequence :: (conclusions ++ front')).count
          (.mark .consequence) = front'.count (.mark .consequence) + 1 := by
        rw [List.count_append, List.count_cons_self, List.count_append,
          List.count_eq_zero.mpr hpremise, List.count_eq_zero.mpr hconsequence, Nat.zero_add,
          Nat.zero_add]
      refine ⟨r', p', ?_, hp', ?_⟩
      · rw [hcount, List.getElem?_cons_succ]
        exact hr'
      · rw [hcount, List.take_succ_cons, List.flatMap_cons, htokens, List.append_assoc,
          List.append_assoc, List.cons_append, ← hfront']
    · obtain ⟨rfl, -⟩ := List.append_cons_inj_of_first hpremise hmem hsplit
      refine ⟨r, p, ?_, hp, ?_⟩
      · rw [List.count_eq_zero.mpr hpremise]
        rfl
      · rw [List.count_eq_zero.mpr hpremise]
        rfl

end Marks

namespace RuleStream

variable {rules : List Rule}

/-- **The rules of a stream that begins with a rule base** are counted by
their marks of consequence, in front of the first closing mark. -/
theorem count_of_prefix (h : ∀ r ∈ rules, r.IsComplete) {front more : List Token}
    (hfront : .mark .closing ∉ front)
    (hbegin : tokensOf rules <+: front ++ .mark .closing :: more) :
    front.count (.mark .consequence) = rules.length := by
  obtain ⟨behind, hbehind⟩ := hbegin
  have hclosing : .mark .closing ∉ Token.mark .opening :: rules.flatMap Rule.tokens := by
    intro hmem
    rcases List.mem_cons.mp hmem with hmem | hmem
    · cases hmem
    · exact Rule.closing_notMem_flatMap_tokens h hmem
  rw [tokensOf, List.append_assoc] at hbehind
  obtain ⟨rfl, -⟩ := List.append_cons_inj_of_first hclosing hfront hbehind
  rw [List.count_cons_of_ne (by decide), Rule.count_flatMap_tokens h]

/-- It has a closing mark. -/
theorem closing_mem_of_prefix {tokens : List Token} (hbegin : tokensOf rules <+: tokens) :
    .mark .closing ∈ tokens :=
  hbegin.subset (List.mem_append_right _ List.mem_cons_self)

/-- **What stands in front of a mark of consequence** of such a stream is the
opening mark, some rules, and the premise of the next one. -/
theorem exists_premise_of_split (h : ∀ r ∈ rules, r.IsComplete) {before after : List Token}
    (hbefore : .mark .closing ∉ before)
    (hbegin : tokensOf rules <+: before ++ .mark .consequence :: after) :
    ∃ r p, rules[before.count (.mark .consequence)]? = some r ∧ r.premise = some p ∧
      before = .mark .opening ::
        (rules.take (before.count (.mark .consequence))).flatMap Rule.tokens ++ p.tokens := by
  obtain ⟨behind, hbehind⟩ := hbegin
  rw [tokensOf, List.cons_append, List.cons_append, List.append_assoc] at hbehind
  cases before with
  | nil => cases (List.cons.inj hbehind).1
  | cons t before =>
    obtain ⟨rfl, hsplit⟩ := List.cons.inj hbehind
    obtain ⟨r, p, hr, hp, heq⟩ := Rule.exists_premise_of_split h hsplit
      fun hmem => hbefore (List.mem_cons_of_mem _ hmem)
    rw [List.count_cons_of_ne (by decide)]
    exact ⟨r, p, hr, hp, congrArg (List.cons _) heq⟩

end RuleStream

namespace Controller

variable {α : Type} [Scalar α] {c d : Controller α} {w : Width} {s : RuleStream w}

/-- The strength of the rule in a place. -/
theorem getElem?_strengthsFrom (c : Controller α) {rules : List Rule} {k : Nat} {r : Rule}
    {p : Premise} (hr : rules[k]? = some r) (hp : r.premise = some p) :
    (c.strengthsFrom 0 rules)[k]? = some (c.premiseStrength p * c.weight k) := by
  rw [strengthsFrom, List.getElem?_map, List.getElem?_zipIdx, hr]
  simp only [Option.map_some, Nat.zero_add, ruleStrength, hp]

/-- There is a strength for each rule. -/
theorem length_strengthsFrom (c : Controller α) (k : Nat) (rules : List Rule) :
    (c.strengthsFrom k rules).length = rules.length := by
  rw [strengthsFrom, List.length_map, List.length_zipIdx]

/-- **An inference that succeeds** is that of the rule base its stream begins
with. -/
theorem exists_rules_of_infer [Scalar.IsOrdered α] (hc : c.Sound) {n : Nat}
    (h : c.infer s.tokens = (.ok n, d)) :
    ∃ rules, Stream.Begins c.bounds rules s.table ∧ (∀ e ∈ Rule.script rules, c.Takes e) ∧
      rules.length = n ∧ d = { c with cycle := c.meaning rules } := by
  rcases infer_cases c s.tokens with ⟨u, hinfer⟩ | ⟨f, -, hinfer⟩ | ⟨haccept, hinfer⟩
  · rw [hinfer] at h
    cases h
  · rw [hinfer] at h
    cases h
  · obtain ⟨rules, hbegins, htakes⟩ := accept_eq_ok_iff.mp haccept
    rw [hinfer, fireStream_eq_meaning hc hbegins htakes] at h
    obtain ⟨hn, rfl⟩ := Prod.mk.inj h
    exact ⟨rules, hbegins, htakes, Except.ok.inj hn, rfl⟩

/-- **The rules are counted alike in every way.** When an inference answers a
number, this is the number of the marks of consequence in front of the first
closing mark, which there is, the number of rules the stream says it has,
and the number of the strengths. The strength of number `k` is that of the
premise in front of the mark of number `k`, with the weight of number
`k`. -/
theorem count_of_infer [Scalar.IsOrdered α] (hc : c.Reachable) {n : Nat}
    (h : c.infer s.tokens = (.ok n, d)) :
    .mark .closing ∈ s.tokens ∧
    (∀ front more, s.tokens = front ++ .mark .closing :: more → .mark .closing ∉ front →
      front.count (.mark .consequence) = n) ∧
    s.ruleCount = n ∧
    d.cycle.strengths.length = n ∧
    ∃ rules, Stream.Begins c.bounds rules s.table ∧ rules.length = n ∧
      ∀ before after, s.tokens = before ++ .mark .consequence :: after →
        .mark .closing ∉ before →
        ∃ r p, rules[before.count (.mark .consequence)]? = some r ∧ r.premise = some p ∧
          before = .mark .opening ::
            (rules.take (before.count (.mark .consequence))).flatMap Rule.tokens ++ p.tokens ∧
          d.cycle.strengths[before.count (.mark .consequence)]?
            = some (c.premiseStrength p * c.weight (before.count (.mark .consequence))) := by
  obtain ⟨rules, hbegins, -, rfl, rfl⟩ := exists_rules_of_infer hc.sound h
  obtain ⟨hfits, hmap⟩ := Stream.begins_iff.mp hbegins
  have hbegin : RuleStream.tokensOf rules <+: s.tokens := hmap
  have hcomplete : ∀ r ∈ rules, r.IsComplete := fun r hr => (hfits r hr).complete
  have hclosing : .mark .closing ∈ s.tokens := RuleStream.closing_mem_of_prefix hbegin
  have hcount (front more : List Token) (hsplit : s.tokens = front ++ .mark .closing :: more)
      (hfront : .mark .closing ∉ front) :
      front.count (.mark .consequence) = rules.length :=
    RuleStream.count_of_prefix hcomplete hfront (hsplit ▸ hbegin)
  refine ⟨hclosing, hcount, ?_, c.length_strengthsFrom 0 rules, rules, hbegins, rfl, ?_⟩
  · -- what is taken up to the closing mark is what stands in front of the first one
    obtain ⟨front, more, hsplit, hfront⟩ := List.eq_append_cons_of_mem hclosing
    have htakeWhile : s.tokens.takeWhile (· ≠ .mark .closing) = front := by
      rw [hsplit, List.takeWhile_append_of_pos, List.takeWhile_cons_of_neg (by simp),
        List.append_nil]
      exact fun t ht => decide_eq_true fun heq => hfront (heq ▸ ht)
    rw [RuleStream.ruleCount, htakeWhile, hcount front more hsplit hfront]
  · intro before after hsplit hbefore
    obtain ⟨r, p, hr, hp, heq⟩ :=
      RuleStream.exists_premise_of_split hcomplete hbefore (hsplit ▸ hbegin)
    exact ⟨r, p, hr, hp, heq, c.getElem?_strengthsFrom hr hp⟩

/-- An inference by eight bits, of one rule. -/
theorem count_of_infer_single :
    ready.infer Stream.singleStream.tokens
        = (.ok 1, (ready.infer Stream.singleStream.tokens).2) ∧
      Stream.singleStream.ruleCount = 1 ∧
      (ready.infer Stream.singleStream.tokens).2.cycle.strengths.length = 1 := by
  have hinfer : ready.infer Stream.singleStream.tokens
      = (.ok 1, (ready.infer Stream.singleStream.tokens).2) :=
    Prod.ext (Except.eq_ok_of_toOption (by decide +kernel)) rfl
  obtain ⟨-, -, hcount, hlength, -⟩ := count_of_infer reachable_ready hinfer
  exact ⟨hinfer, hcount, hlength⟩

end Controller

end FuzzyInference
