import Mathlib.Logic.ExistsUnique
import FuzzyInference.Proofs.Controller.Configured
import FuzzyInference.Proofs.Description.Build
import FuzzyInference.Proofs.Description.Slots
import FuzzyInference.Scalar.Single

/-!
# Names and places agree

A rule base knows terms by their places, its text by their names, and the
two meet nowhere but in the system that is built: the table of names comes
from one walk through the description, the table of terms from another, and
the size of the latter from a count. If they were out of step by one place,
a rule would silently mean the term next to the one it names.

`Description.tabulated_of_build` says that they are not: in a system that
has been built a name stands for the place that holds the very term that has
it. Along with it goes what the system has been configured to be, and that
its rule base is the text of the rules, read with these names.
-/

namespace FuzzyInference

/-! ## What bindings leave behind -/

namespace Controller

variable {α : Type} [Scalar α] {c d : Controller α}

/-- **A term that is found after some bindings** is the term of one of them, or
has been there before. -/
theorem term?_of_foldlM_bindTerm {bs : List (Binding α)} (h : bs.foldlM bindTerm c = .ok d)
    {side : Side} {slot : Nat} {t : Term α} (ht : d.term? side slot = some t) :
    c.term? side slot = some t ∨ ∃ b ∈ bs, b.slot = slot ∧ b.side = side ∧ Binding.term b = t := by
  refine List.foldlM_eq_ok_induction (P := fun d => d.term? side slot = some t →
    c.term? side slot = some t ∨ ∃ b ∈ bs, b.slot = slot ∧ b.side = side ∧ Binding.term b = t) h .inl
    ?_ ht
  intro b hb e e' he hbind ht
  obtain ⟨-, rfl⟩ := bindTerm_eq_ok hbind
  rw [term?_store] at ht
  split at ht
  · next hplace => exact .inr ⟨b, hb, hplace.2.1, hplace.1, Option.some.inj ht⟩
  · exact he ht

/-- Bindings are no choices. -/
theorem choices_foldlM_bindTerm {bs : List (Binding α)} (h : bs.foldlM bindTerm c = .ok d) :
    d.choices = c.choices :=
  List.foldlM_eq_ok_induction (P := fun d => d.choices = c.choices) h rfl
    fun _ _ _ _ he hbind => (choices_bindTerm hbind).trans he

omit [Scalar α] in
/-- **Settings, one after the other**, are choices one after the other. -/
theorem choices_foldlM_choose {settings : List Setting} (h : settings.foldlM choose c = .ok d) :
    d.choices = settings.foldl Choices.after c.choices := by
  induction settings generalizing c with
  | nil =>
    cases h
    rfl
  | cons s settings ih =>
    obtain ⟨c', hchoose, h⟩ := Except.bind_eq_ok_iff.mp h
    rw [ih h, choices_choose hchoose]
    rfl

end Controller

namespace Description

variable {α : Type}

/-- **The choices of a description**: those it makes, and otherwise those a
system has to begin with. -/
def choices (d : Description α) : Choices α where
  style := d.style
  norms := {
    and := d.and.getD Norms.initial.and
    or := d.or.getD Norms.initial.or
    implication := d.implication.getD Norms.initial.implication
    aggregation := d.aggregation.getD Norms.initial.aggregation }
  evalPoints := d.evalPoints.getD Setting.defaultEvalPoints
  defuzzifier := d.defuzzifier.getD (.initial d.style)
  weights := d.weights

variable {d : Description α}

/-- The settings of a description are its choices of norms and of the number
of points. -/
theorem foldl_settings (d : Description α) (x : Choices α) :
    d.settings.foldl Choices.after x = { x with
      norms := ⟨d.and.getD x.norms.and, d.or.getD x.norms.or,
        d.implication.getD x.norms.implication, d.aggregation.getD x.norms.aggregation⟩
      evalPoints := d.evalPoints.getD x.evalPoints } := by
  unfold settings
  cases d.and <;> cases d.or <;> cases d.implication <;> cases d.aggregation <;>
    cases d.evalPoints <;> rfl

variable [Scalar α] {c e : Controller α} {n : NamedController α}

/-! ## The choices -/

theorem exists_of_setup (h : d.setup = .ok c) : ∃ inputs outputs,
    Controller.setup d.style inputs outputs (termCount d.inputs) (termCount d.outputs) = .ok c := by
  obtain ⟨inputs, -, h⟩ := Except.bind_eq_ok_iff.mp h
  obtain ⟨outputs, -, h⟩ := Except.bind_eq_ok_iff.mp h
  exact ⟨inputs, outputs, h⟩

omit [Scalar α] in
/-- Configuring makes all the choices of the description but the weights. -/
theorem choices_configure (hfresh : c.choices
      = ⟨d.style, .initial, Setting.defaultEvalPoints, .initial d.style, none⟩)
    (h : d.configure c = .ok e) : e.choices = { d.choices with weights := none } := by
  obtain ⟨chosen, hsettings, h⟩ := Except.bind_eq_ok_iff.mp h
  have hchosen := Controller.choices_foldlM_choose hsettings
  rw [foldl_settings, hfresh] at hchosen
  unfold choices
  cases hmethod : d.defuzzifier with
  | none =>
    rw [hmethod] at h
    cases h
    exact hchosen
  | some m =>
    rw [hmethod] at h
    obtain ⟨-, rfl⟩ := Controller.chooseMethod_eq_ok h
    show { chosen.choices with defuzzifier := m } = _
    rw [hchosen]
    rfl

/-- **The choices of a system that has been built** are those of the
description. -/
theorem choices_of_build (h : d.build = .ok n) : n.controller.choices = d.choices := by
  obtain ⟨-, ⟨fresh, chosen, bound, hsetup, hconfigure, hbind, hweighs⟩, -⟩ := build_eq_ok h
  obtain ⟨inputs, outputs, hsetup⟩ := exists_of_setup hsetup
  have hchosen := choices_configure (Controller.setup_eq_ok hsetup).2 hconfigure
  obtain ⟨c, hinputs, houtputs⟩ := Except.bind_eq_ok_iff.mp hbind
  have hbound : bound.choices = { d.choices with weights := none } := by
    rw [Controller.choices_foldlM_bindTerm houtputs, Controller.choices_foldlM_bindTerm hinputs,
      hchosen]
  unfold Weighs at hweighs
  cases hweights : d.weights with
  | none =>
    rw [hweights] at hweighs
    rw [hweighs, hbound, ← hweights]
    rfl
  | some ws =>
    rw [hweights] at hweighs
    obtain ⟨-, hweighs⟩ := Controller.setWeights_eq_ok hweighs
    rw [hweighs]
    show { bound.choices with weights := some ws } = _
    rw [hbound, ← hweights]
    rfl

/-! ## The terms -/

omit [Scalar α] in
/-- Configuring binds no term. -/
theorem keeps_configure (h : d.configure c = .ok e) : c.Keeps e := by
  obtain ⟨chosen, hsettings, h⟩ := Except.bind_eq_ok_iff.mp h
  have hchosen : c.Keeps chosen :=
    List.foldlM_eq_ok_induction hsettings (.refl c) fun _ _ _ _ hkeeps hs =>
      hkeeps.trans (Controller.keeps_choose hs)
  cases hmethod : d.defuzzifier with
  | none =>
    rw [hmethod] at h
    cases h
    exact hchosen
  | some m =>
    rw [hmethod] at h
    exact hchosen.trans (Controller.keeps_chooseMethod h)

/-- The term that a description puts in a place. -/
def Placed.bound (p : Placed α) : Term α :=
  ⟨.builtin p.term.shape, p.term.coefficients, Scalar.clampUnit p.term.height, p.owner⟩

/-- **Every term of a system that has been built** is the one that the
description puts in its place. -/
theorem exists_of_term? (h : d.build = .ok n) {side : Side} {slot : Nat} {t : Term α}
    (ht : n.controller.term? side slot = some t) :
    ∃ p ∈ placed (d.variablesOf side), p.slot = slot ∧ p.bound = t := by
  obtain ⟨-, ⟨fresh, chosen, bound, hsetup, hconfigure, hbind, hweighs⟩, -⟩ := build_eq_ok h
  rw [hweighs.keeps.term?] at ht
  obtain ⟨c, hinputs, houtputs⟩ := Except.bind_eq_ok_iff.mp hbind
  obtain ⟨inputs, outputs, hsetup⟩ := exists_of_setup hsetup
  have hfree : chosen.term? side slot = none := by
    rw [(keeps_configure hconfigure).term?]
    exact Controller.term?_of_setup hsetup side slot
  have hplaced {side' : Side} (hb : ∃ b ∈ d.bindings side', b.slot = slot ∧ b.side = side ∧
      Controller.Binding.term b = t) :
      ∃ p ∈ placed (d.variablesOf side), p.slot = slot ∧ p.bound = t := by
    obtain ⟨b, hb, hslot, hside, hterm⟩ := hb
    obtain ⟨p, hp, rfl⟩ := List.mem_map.mp hb
    cases hside
    exact ⟨p, hp, hslot, hterm⟩
  rcases Controller.term?_of_foldlM_bindTerm houtputs ht with ht | hb
  · rcases Controller.term?_of_foldlM_bindTerm hinputs ht with ht | hb
    · exact absurd (ht.symm.trans hfree) (Option.some_ne_none t)
    · exact hplaced hb
  · exact hplaced hb

/-- **The term in a place.** -/
theorem term?_of_build (h : d.build = .ok n) {side : Side} {p : Placed α}
    (hp : p ∈ placed (d.variablesOf side)) : n.controller.term? side p.slot = some p.bound := by
  have hbuilt := built_of_build h
  -- the place is taken, by the term of some place that must be this one
  have hlt : p.slot < (n.controller.termsOf side).length := by
    rw [hbuilt.describes.places]
    exact slot_lt_of_mem_placed hp
  have htaken := hbuilt.bound side _ (List.getElem_mem hlt)
  obtain ⟨t, ht⟩ := Option.ne_none_iff_exists'.mp htaken
  have hterm : n.controller.term? side p.slot = some t := by
    unfold Controller.term?
    rw [List.getElem?_eq_getElem hlt, ht]
    rfl
  obtain ⟨q, hq, hslot, hbound⟩ := exists_of_term? h hterm
  rw [hterm, ← hbound, placed_unique hq hp hslot]

/-! ## Names, places and terms -/

/-- **A side of a system whose names and places agree** with the variables
that are described. -/
structure Tabulated (vs : List (VariableDescription α)) (side : Side) (n : NamedController α) :
    Prop where
  /-- The name of a variable stands for its number. -/
  subject : ∀ {i v}, vs[i]? = some v → n.names.resolver.subject? side v.name = some i
  /-- A name that no variable has stands for nothing. -/
  undeclared : ∀ {name}, (∀ v ∈ vs, v.name ≠ name) → n.names.resolver.subject? side name = none
  /-- The name of a term stands for its place, under its variable. -/
  term : ∀ {i j v t}, vs[i]? = some v → v.terms[j]? = some t →
    n.names.resolver.term? side i t.name = some (slotOf vs i j)
  /-- A name that no term of the variable has stands for nothing under it. -/
  foreign : ∀ {i name}, (∀ v, vs[i]? = some v → ∀ t ∈ v.terms, t.name ≠ name) →
    n.names.resolver.term? side i name = none
  /-- The place of a term holds the term. -/
  bound : ∀ {i j v t}, vs[i]? = some v → v.terms[j]? = some t →
    n.controller.term? side (slotOf vs i j)
      = some ⟨.builtin t.shape, t.coefficients, Scalar.clampUnit t.height, i⟩
  /-- Every place is that of one term, and of no other. -/
  hit : ∀ slot < (n.controller.termsOf side).length, ∃! place : Nat × Nat,
    (∃ v t, vs[place.1]? = some v ∧ v.terms[place.2]? = some t) ∧
      slotOf vs place.1 place.2 = slot

/-- **Names and places agree** on either side of a system that has been
built. -/
theorem tabulated (h : d.build = .ok n) (side : Side) :
    Tabulated (d.variablesOf side) side n := by
  obtain ⟨hcheck, -, -, hnames, -⟩ := build_eq_ok h
  have hdistinct := distinct_of_checkAllNames hcheck side
  have hside : n.names.side side = sideNames (d.variablesOf side) := by
    rw [hnames, side_names]
  constructor
  case subject =>
    intro i v hv
    show (n.names.side side).subjects.lookup v.name = some i
    rw [hside, hdistinct.lookup_subject hv]
  case undeclared =>
    intro name hname
    show (n.names.side side).subjects.lookup name = none
    rw [hside, lookup_subject_eq_none hname]
  case term =>
    intro i j v t hv ht
    show (n.names.side side).terms.lookup (i, t.name) = some _
    rw [hside, hdistinct.lookup_term hv ht]
  case foreign =>
    intro i name hname
    show (n.names.side side).terms.lookup (i, name) = none
    rw [hside, lookup_term_eq_none hname]
  case bound =>
    intro i j v t hv ht
    exact term?_of_build h (mem_placed hv ht)
  case hit =>
    intro slot hslot
    rw [(built_of_build h).describes.places] at hslot
    obtain ⟨i, v, j, t, hv, ht, hplace⟩ := exists_slotOf hslot
    refine ⟨(i, j), ⟨⟨v, t, hv, ht⟩, hplace⟩, ?_⟩
    rintro ⟨i', j'⟩ ⟨⟨v', t', hv', ht'⟩, hplace'⟩
    obtain ⟨howner, hindex⟩ := slotOf_inj hv' ht' hv ht (hplace'.trans hplace.symm)
    exact Prod.ext howner hindex

/-- **In a system that has been built names and places agree.** It has the
choices of its description, and its rule base is the text of the rules,
read with these names and written down. -/
theorem tabulated_of_build (h : d.build = .ok n) :
    (∀ side, Tabulated (d.variablesOf side) side n) ∧ n.controller.choices = d.choices ∧
      ∃ rules, readRules n.names.resolver ("\n".intercalate d.rules) = .ok rules ∧
        RuleStream.encode .bits16 rules = .ok n.rules := by
  refine ⟨tabulated h, choices_of_build h, ?_⟩
  obtain ⟨-, -, -, hnames, -⟩ := build_eq_ok h
  rw [hnames]
  exact (built_of_build h).rules

/-! A Mamdani system in which two variables of a side have a term of the same
name. -/

/-- The description. -/
def fan : Description Float32 where
  style := .mamdani
  inputs := [⟨"heat", 0, 1, [⟨"low", .linearZ, [0, 1], 1⟩, ⟨"high", .linearS, [0, 1], 1⟩]⟩,
    ⟨"damp", 0, 1, [⟨"low", .linearZ, [0, 1], 7⟩]⟩]
  outputs := [⟨"speed", 0, 1, [⟨"fast", .linearS, [0, 1], 1⟩]⟩]
  and := some .product
  or := none
  implication := none
  aggregation := none
  evalPoints := some 50
  defuzzifier := none
  rules := ["IF heat IS high AND damp IS low THEN speed IS fast"]
  weights := none

/-- The damp is low in the third place, and its height is cut off. -/
theorem tabulated_of_build_fan : ∃ n, fan.build = .ok n ∧
    n.names.resolver.term? .input 1 "low" = some 2 ∧
    n.controller.term? .input 2 = some ⟨.builtin .linearZ, [0, 1], 1, 1⟩ ∧
    n.names.resolver.term? .input 1 "high" = none ∧
    n.controller.choices = ⟨.mamdani, { Norms.initial with and := .product }, 50, .centroid, none⟩ ∧
    ∃ rules, readRules n.names.resolver ("\n".intercalate fan.rules) = .ok rules ∧
      RuleStream.encode .bits16 rules = .ok n.rules := by
  have hbuilt : fan.build.toOption.isSome = true := by decide +kernel
  obtain ⟨n, hn⟩ := Option.isSome_iff_exists.mp hbuilt
  have hbuild := Except.eq_ok_of_toOption hn
  obtain ⟨hsides, hchoices, hrules⟩ := tabulated_of_build hbuild
  have hinputs := hsides .input
  refine ⟨n, hbuild, hinputs.term (i := 1) (j := 0) rfl rfl, ?_, hinputs.foreign ?_, hchoices,
    hrules⟩
  · have hheight : Scalar.clampUnit (7 : Float32) = 1 := by decide +kernel
    rw [← hheight]
    exact hinputs.bound (i := 1) (j := 0) rfl rfl
  · rintro v ⟨⟩ t ht
    rw [List.mem_singleton.mp ht]
    decide

end Description

end FuzzyInference
