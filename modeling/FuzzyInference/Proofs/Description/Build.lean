import FuzzyInference.Description.Build
import FuzzyInference.Proofs.Controller.Reachable
import FuzzyInference.Proofs.Description.Names

/-!
# What is built

Building a system goes through several stages, and the controller at each
of them is one that has been set up and operated on. What they have in
common is that the controller is of the described style, that it has the
described variables and places for the described terms, and that no place
is taken by a term of another variable than the description puts there
(`Description.Describes`). At the end all places are taken
(`Description.describes_of_build`).
-/

namespace FuzzyInference

namespace Controller

variable {α : Type} [Scalar α] {c d : Controller α}

/-- An operation that succeeds leads from reachable to reachable
controllers. -/
theorem Reachable.of_settle (hc : c.Reachable) (command : Command α)
    {r : Except (Fault α) (Controller α)} (hcommand : c.perform command = c.settle r)
    (h : r = .ok d) : d.Reachable := by
  have hafter := hc.perform command
  rw [hcommand, h] at hafter
  exact hafter

/-- A place that is taken stays taken when more terms are bound. -/
theorem term?_store_ne_none {side : Side} {slot : Nat} (h : c.term? side slot ≠ none)
    (b : Binding α) : (c.store b).term? side slot ≠ none := by
  rw [term?_store]
  split
  · exact Option.some_ne_none _
  · exact h

/-- **Bindings, one after the other**, take the places that they name, and
leave none free that was taken. -/
theorem taken_of_foldlM_bindTerm {bs : List (Binding α)} (h : bs.foldlM bindTerm c = .ok d) :
    (∀ {side slot}, c.term? side slot ≠ none → d.term? side slot ≠ none) ∧
      ∀ b ∈ bs, d.term? b.side b.slot ≠ none := by
  induction bs generalizing c with
  | nil =>
    cases h
    exact ⟨id, fun b hb => absurd hb List.not_mem_nil⟩
  | cons b bs ih =>
    obtain ⟨c', hbind, h⟩ := Except.bind_eq_ok_iff.mp h
    obtain ⟨hcheck, rfl⟩ := bindTerm_eq_ok hbind
    obtain ⟨hkept, htaken⟩ := ih h
    refine ⟨fun hfree => hkept (term?_store_ne_none hfree b), fun b' hb => ?_⟩
    rcases List.mem_cons.mp hb with rfl | hb
    · refine hkept ?_
      rw [term?_store, if_pos ⟨rfl, rfl, (admissible_of_checkBinding hcheck).slot_lt⟩]
      exact Option.some_ne_none _
    · exact htaken b' hb

end Controller

namespace Description

variable {α : Type} [Scalar α] {d : Description α} {c e : Controller α}

/-! ## The stages -/

/-- **A controller that is described**, though it may lack some of the
terms. -/
structure Describes (d : Description α) (c : Controller α) : Prop where
  /-- It has been set up and operated on. -/
  reachable : c.Reachable
  /-- It is of the described style. -/
  style : c.style = d.style
  /-- It has the described variables. -/
  counts : ∀ side, (c.variablesOf side).length = (d.variablesOf side).length
  /-- It has places for the described terms. -/
  places : ∀ side, (c.termsOf side).length = termCount (d.variablesOf side)
  /-- Every place is for a term of the variable the description says. -/
  owners : ∀ {side slot t}, c.term? side slot = some t →
    ∃ p ∈ placed (d.variablesOf side), p.slot = slot ∧ p.owner = t.owner

theorem describes_of_setup (h : d.setup = .ok c) : d.Describes c := by
  simp only [setup, Except.bind_eq_ok_iff] at h
  obtain ⟨inputs, hinputs, outputs, houtputs, h⟩ := h
  have hreachable := Controller.Reachable.setup h
  have hinputs := List.length_of_mapM_eq_ok hinputs
  have houtputs := List.length_of_mapM_eq_ok houtputs
  simp only [Controller.setup, Fault.guard_eq_ok_iff] at h
  obtain ⟨-, -, h⟩ := h
  split at h
  · cases h
  simp only [Except.bind_eq_ok_iff] at h
  obtain ⟨values, -, h⟩ := h
  cases h
  refine ⟨hreachable, rfl, ?_, ?_, ?_⟩
  · intro side
    cases side
    · exact hinputs
    · exact houtputs
  · intro side
    cases side <;> exact List.length_replicate
  · -- no term has been bound yet
    intro side slot t ht
    have hempty : ∀ n, ((List.replicate n (none : Option (Term α)))[slot]?).join = none := by
      intro n
      rw [List.getElem?_replicate]
      split <;> rfl
    cases side with
    | input => exact absurd (ht.symm.trans (hempty _)) (Option.some_ne_none t)
    | output => exact absurd (ht.symm.trans (hempty _)) (Option.some_ne_none t)

namespace Describes

/-- What goes on with a controller that is described is described. -/
theorem of_keeps (hc : d.Describes c) (h : c.Keeps e) (he : e.Reachable) : d.Describes e where
  reachable := he
  style := (congrArg Frame.style h.frame).trans hc.style
  counts side := (Controller.length_variablesOf_congr h.frame side).trans (hc.counts side)
  places side := (Controller.length_termsOf_congr h.frame side).trans (hc.places side)
  owners ht := hc.owners ((h.term? _ _).symm.trans ht)

theorem configure (hc : d.Describes c) (h : d.configure c = .ok e) : d.Describes e := by
  obtain ⟨chosen, hchosen, h⟩ := Except.bind_eq_ok_iff.mp h
  have hchosen : d.Describes chosen := by
    refine List.foldlM_eq_ok_induction hchosen hc fun s _ c c' hc hs => ?_
    exact hc.of_keeps (Controller.keeps_choose hs)
      (hc.reachable.of_settle (.choose s) rfl hs)
  cases hmethod : d.defuzzifier with
  | none =>
    rw [hmethod] at h
    cases h
    exact hchosen
  | some m =>
    rw [hmethod] at h
    exact hchosen.of_keeps (Controller.keeps_chooseMethod h)
      (hchosen.reachable.of_settle (.chooseMethod m) rfl h)

/-- **A described term is bound** where it has been placed. -/
theorem bindTerm (hc : d.Describes c) {side : Side} {b : Binding α} (hb : b ∈ d.bindings side)
    (h : c.bindTerm b = .ok e) : d.Describes e := by
  have hreachable := hc.reachable.of_settle (.bindTerm b) rfl h
  obtain ⟨-, rfl⟩ := Controller.bindTerm_eq_ok h
  have hframe := Controller.frame_store c b
  obtain ⟨p, hp, rfl⟩ := List.mem_map.mp hb
  refine ⟨hreachable, (congrArg Frame.style hframe).trans hc.style, ?_, ?_, ?_⟩
  · exact fun s => (Controller.length_variablesOf_congr hframe s).trans (hc.counts s)
  · exact fun s => (Controller.length_termsOf_congr hframe s).trans (hc.places s)
  · intro side' slot t ht
    rw [Controller.term?_store] at ht
    split at ht
    · next hplace =>
      obtain ⟨rfl, rfl, -⟩ := hplace
      cases ht
      exact ⟨p, hp, rfl, rfl⟩
    · exact hc.owners ht

/-- **All described terms are bound**, and no place is left over. -/
theorem bindAll (hc : d.Describes c) (h : d.bindAll c = .ok e) :
    d.Describes e ∧ ∀ side, ∀ slot ∈ e.termsOf side, slot ≠ none := by
  obtain ⟨c', hinputs, houtputs⟩ := Except.bind_eq_ok_iff.mp h
  have hc' : d.Describes c' :=
    List.foldlM_eq_ok_induction hinputs hc fun b hb _ _ hc hbind => hc.bindTerm hb hbind
  have he : d.Describes e :=
    List.foldlM_eq_ok_induction houtputs hc' fun b hb _ _ hc hbind => hc.bindTerm hb hbind
  obtain ⟨-, htakenInputs⟩ := Controller.taken_of_foldlM_bindTerm hinputs
  obtain ⟨hkept, htakenOutputs⟩ := Controller.taken_of_foldlM_bindTerm houtputs
  have htaken : ∀ side, ∀ b ∈ d.bindings side, e.term? b.side b.slot ≠ none := by
    intro side b hb
    cases side with
    | input => exact hkept (htakenInputs b hb)
    | output => exact htakenOutputs b hb
  refine ⟨he, fun side slot hslot => ?_⟩
  -- a place that was free would be the place of some described term
  obtain ⟨i, hi⟩ := List.mem_iff_getElem?.mp hslot
  have hlt := (List.getElem?_eq_some_iff.mp hi).1
  rw [he.places side] at hlt
  obtain ⟨p, hp, rfl⟩ := exists_placed hlt
  have hbound := htaken side _ (List.mem_map_of_mem hp)
  rintro rfl
  refine hbound ?_
  show ((e.termsOf side)[p.slot]?).join = none
  rw [hi]
  rfl

end Describes

/-! ## The end -/

/-- **What is known of a built system.** -/
structure Built (d : Description α) (n : NamedController α) : Prop where
  /-- Its controller is described. -/
  describes : d.Describes n.controller
  /-- All of its places are taken. -/
  bound : ∀ side, ∀ slot ∈ n.controller.termsOf side, slot ≠ none
  /-- Its rule base is the one that the text of the rules is read as. -/
  rules : ∃ rules, readRules d.names.resolver d.ruleText = .ok rules ∧
    RuleStream.encode .bits16 rules = .ok n.rules
  /-- It knows its inputs by the described names. -/
  inputNames : n.inputNames = d.inputs.map (·.name)
  /-- It knows its outputs by the described names. -/
  outputNames : n.outputNames = d.outputs.map (·.name)

omit [Scalar α] in
theorem exists_of_ruleBase {s : RuleStream .bits16} (h : d.ruleBase = .ok s) :
    ∃ rules, readRules d.names.resolver d.ruleText = .ok rules ∧
      RuleStream.encode .bits16 rules = .ok s := by
  unfold ruleBase at h
  cases hrules : readRules d.names.resolver d.ruleText with
  | error f =>
    rw [hrules] at h
    cases h
  | ok rules =>
    simp only [hrules] at h
    cases hencode : RuleStream.encode .bits16 rules with
    | error f =>
      rw [hencode] at h
      cases h
    | ok stream =>
      rw [hencode] at h
      cases h
      exact ⟨rules, rfl, hencode⟩

/-- The controller with the weights of a description. -/
def Weighs (d : Description α) (c e : Controller α) : Prop :=
  match d.weights with
  | some ws => c.setWeights ws = .ok e
  | none => e = c

/-- **The stages of a building** that has succeeded. -/
theorem build_eq_ok {n : NamedController α} (h : d.build = .ok n) :
    d.checkAllNames = .ok () ∧
      (∃ fresh chosen bound, d.setup = .ok fresh ∧ d.configure fresh = .ok chosen ∧
        d.bindAll chosen = .ok bound ∧ d.Weighs bound n.controller) ∧
      d.ruleBase = .ok n.rules ∧ n.names = d.names ∧
      n.inputNames = d.inputs.map (·.name) ∧ n.outputNames = d.outputs.map (·.name) := by
  simp only [build, Except.bind_eq_ok_iff] at h
  obtain ⟨u, hnames, fresh, hsetup, chosen, hconfigure, bound, hbind, s, hrules, h⟩ := h
  unfold Weighs
  cases hweights : d.weights with
  | none =>
    rw [hweights] at h
    cases h
    exact ⟨hnames, ⟨fresh, chosen, _, hsetup, hconfigure, hbind, rfl⟩, hrules, rfl, rfl, rfl⟩
  | some ws =>
    rw [hweights] at h
    obtain ⟨weighted, hset, h⟩ := Except.bind_eq_ok_iff.mp h
    cases h
    exact ⟨hnames, ⟨fresh, chosen, bound, hsetup, hconfigure, hbind, hset⟩, hrules, rfl, rfl, rfl⟩

/-- Weights change nothing else. -/
theorem Weighs.keeps (h : d.Weighs c e) : c.Keeps e := by
  unfold Weighs at h
  split at h
  · exact Controller.keeps_setWeights h
  · rw [h]
    exact .refl c

theorem Weighs.reachable (h : d.Weighs c e) (hc : c.Reachable) : e.Reachable := by
  unfold Weighs at h
  split at h
  · next ws _ => exact hc.of_settle (.setWeights ws) rfl h
  · exact h ▸ hc

/-- **A system that has been built** is the one that is described. -/
theorem built_of_build {n : NamedController α} (h : d.build = .ok n) : d.Built n := by
  obtain ⟨-, ⟨fresh, chosen, c, hsetup, hconfigure, hbind, hweighs⟩, hrules, -, hinputs,
    houtputs⟩ := build_eq_ok h
  obtain ⟨hc, hbound⟩ := ((describes_of_setup hsetup).configure hconfigure).bindAll hbind
  refine ⟨hc.of_keeps hweighs.keeps (hweighs.reachable hc.reachable), fun side => ?_,
    exists_of_ruleBase hrules, hinputs, houtputs⟩
  rw [hweighs.keeps.termsOf]
  exact hbound side

end Description

end FuzzyInference
