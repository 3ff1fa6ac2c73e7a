import Mathlib.Algebra.GroupWithZero.Nat
import Mathlib.Data.List.Nodup
import FuzzyInference.Description.Build
import FuzzyInference.Proofs.Description.Names
import FuzzyInference.Proofs.Sequence

/-!
# Which names stand for which places

The terms of a side are numbered through, variable after variable, so the
`j`-th term of the `i`-th variable goes to the place
`Description.slotOf vs i j`, as many places behind the terms of the earlier
variables as there are terms in front of it in its own. No place is left
out and none is given twice (`Description.exists_slotOf`,
`Description.slotOf_inj`).

Names are put into a table one after the other, and a name that is given
twice would stand for what it has been given last. Where no name is given
twice (`Description.Distinct`), a name stands for the variable that has it,
or for the place of the term that has it under its variable, and a name
that nothing has stands for nothing.
-/

namespace FuzzyInference

namespace Description

variable {α : Type} {vs : List (VariableDescription α)} {i j : Nat} {v : VariableDescription α}
  {t : TermDescription α}

/-! ## Places -/

/-- **The place of a term**: behind the terms of the earlier variables and
those in front of it in its own. -/
def slotOf (vs : List (VariableDescription α)) (owner index : Nat) : Nat :=
  ((vs.take owner).map fun v => v.terms.length).sum + index

theorem termCount_cons (u : VariableDescription α) (vs : List (VariableDescription α)) :
    termCount (u :: vs) = u.terms.length + termCount vs := by
  unfold termCount
  rw [List.flatMap_cons, List.length_append]

theorem slotOf_zero (vs : List (VariableDescription α)) (j : Nat) : slotOf vs 0 j = j :=
  Nat.zero_add j

theorem slotOf_succ (u : VariableDescription α) (vs : List (VariableDescription α)) (i j : Nat) :
    slotOf (u :: vs) (i + 1) j = u.terms.length + slotOf vs i j := by
  unfold slotOf
  rw [List.take_succ_cons, List.map_cons, List.sum_cons, Nat.add_assoc]

/-- **The term in a place** among the terms of variables that are numbered from
`k` on. By induction on the variables. -/
theorem getElem?_flatMap_zipIdx (hv : vs[i]? = some v) (ht : v.terms[j]? = some t) (k : Nat) :
    ((vs.zipIdx k).flatMap fun (v, owner) => v.terms.map fun t => (owner, t))[slotOf vs i j]?
      = some (k + i, t) := by
  induction vs generalizing i k with
  | nil => cases hv
  | cons u vs ih =>
    rw [List.zipIdx_cons, List.flatMap_cons]
    cases i with
    | zero =>
      cases hv
      have hlt := (List.getElem?_eq_some_iff.mp ht).1
      rw [slotOf_zero, List.getElem?_append_left (by rwa [List.length_map]), List.getElem?_map, ht]
      rfl
    | succ i =>
      rw [slotOf_succ, List.getElem?_append_right (by rw [List.length_map]; omega),
        List.length_map, Nat.add_sub_cancel_left, ih hv, Nat.add_right_comm]
      rfl

/-- **A term is placed** in its place. -/
theorem mem_placed (hv : vs[i]? = some v) (ht : v.terms[j]? = some t) :
    ⟨i, slotOf vs i j, t⟩ ∈ placed vs := by
  rw [mem_placed_iff, owned, getElem?_flatMap_zipIdx hv ht, Nat.zero_add]

/-- **Every place is the place of a term.** By induction on the variables. -/
theorem exists_slotOf {slot : Nat} (h : slot < termCount vs) :
    ∃ i v j t, vs[i]? = some v ∧ v.terms[j]? = some t ∧ slotOf vs i j = slot := by
  induction vs generalizing slot with
  | nil => cases h
  | cons u vs ih =>
    rw [termCount_cons] at h
    by_cases hlt : slot < u.terms.length
    · exact ⟨0, u, slot, u.terms[slot], rfl, List.getElem?_eq_getElem hlt, slotOf_zero _ _⟩
    · have hrest : slot - u.terms.length < termCount vs := by omega
      obtain ⟨i, v, j, t, hv, ht, hslot⟩ := ih hrest
      refine ⟨i + 1, v, j, t, hv, ht, ?_⟩
      rw [slotOf_succ, hslot]
      omega

/-- **No two terms have the same place.** -/
theorem slotOf_inj {i' j' : Nat} {v' : VariableDescription α} {t' : TermDescription α}
    (hv : vs[i]? = some v) (ht : v.terms[j]? = some t) (hv' : vs[i']? = some v')
    (ht' : v'.terms[j']? = some t') (h : slotOf vs i j = slotOf vs i' j') : i = i' ∧ j = j' := by
  have howner : i = i' :=
    congrArg Placed.owner (placed_unique (mem_placed hv ht) (mem_placed hv' ht') h)
  subst howner
  exact ⟨rfl, Nat.add_left_cancel h⟩

/-- What is placed is a term in its place. -/
theorem exists_of_mem_placed {p : Placed α} (h : p ∈ placed vs) :
    ∃ v j, vs[p.owner]? = some v ∧ v.terms[j]? = some p.term ∧ slotOf vs p.owner j = p.slot := by
  obtain ⟨i, v, j, t, hv, ht, hslot⟩ := exists_slotOf (slot_lt_of_mem_placed h)
  have hp := placed_unique h (mem_placed hv ht) hslot.symm
  rw [hp]
  exact ⟨v, j, hv, ht, rfl⟩

end Description

/-! ## Tables of names -/

namespace SideNames

variable {κ β : Type} [DecidableEq κ] [BEq κ] [LawfulBEq κ] (key : β → κ) (value : β → Nat)
  {es : List β} {k : κ}

/-- Entries with other names make no difference to what a name stands for. -/
theorem lookup_foldl_of_ne (h : ∀ e ∈ es, key e ≠ k) (table : List (κ × Nat)) :
    (es.foldl (fun table e => assign table (key e) (value e)) table).lookup k
      = table.lookup k := by
  induction es generalizing table with
  | nil => rfl
  | cons e es ih =>
    obtain ⟨he, hes⟩ := List.forall_mem_cons.mp h
    rw [List.foldl_cons, ih hes, lookup_assign, if_neg fun hk => he hk.symm]

/-- **A name stands for the value it has been given**, if all entries with this
name give it the same. By induction on the entries: either the name is
given again later, or what it stands for is not touched any more. -/
theorem lookup_foldl_of_mem {n : Nat} (h : ∀ e ∈ es, key e = k → value e = n)
    (hk : ∃ e ∈ es, key e = k) (table : List (κ × Nat)) :
    (es.foldl (fun table e => assign table (key e) (value e)) table).lookup k = some n := by
  induction es generalizing table with
  | nil =>
    obtain ⟨e, he, -⟩ := hk
    exact absurd he List.not_mem_nil
  | cons e es ih =>
    obtain ⟨hvalue, hes⟩ := List.forall_mem_cons.mp h
    rw [List.foldl_cons]
    by_cases hlater : ∃ e' ∈ es, key e' = k
    · exact ih hes hlater _
    · have hother : ∀ e' ∈ es, key e' ≠ k := fun e' he' hkey => hlater ⟨e', he', hkey⟩
      obtain ⟨e', he', hkey⟩ := hk
      rcases List.mem_cons.mp he' with rfl | he'
      · rw [lookup_foldl_of_ne key value hother, lookup_assign, if_pos hkey.symm, hvalue hkey]
      · exact absurd hkey (hother e' he')

end SideNames

namespace Names

/-- Changes of the names of one side, one after the other. -/
theorem side_foldl_onSide {β : Type} (es : List β) (f : β → SideNames → SideNames) (n : Names)
    (s s' : Side) :
    (es.foldl (fun n e => n.onSide s (f e)) n).side s'
      = if s = s' then es.foldl (fun names e => f e names) (n.side s) else n.side s' := by
  induction es generalizing n with
  | nil => cases s <;> cases s' <;> rfl
  | cons e es ih =>
    rw [List.foldl_cons, ih, side_onSide, side_onSide, if_pos rfl, List.foldl_cons]
    by_cases hside : s = s'
    · rw [if_pos hside, if_pos hside]
    · rw [if_neg hside, if_neg hside, if_neg hside]

end Names

namespace Description

variable {α : Type} {vs : List (VariableDescription α)} {i j : Nat} {v : VariableDescription α}
  {t : TermDescription α}

/-- The names of some variables, put into a table one after the other. -/
def sideNames (vs : List (VariableDescription α)) : SideNames :=
  (placed vs).foldl (fun names p => names.addTerm p.owner p.term.name p.slot)
    (vs.zipIdx.foldl (fun names e => names.addVariable e.1.name e.2) .empty)

/-- Naming the variables and the terms of a side changes the names of this
side only. -/
theorem side_addNames (d : Description α) (side side' : Side) (n : Names) :
    (d.addNames side n).side side'
      = if side = side' then
          (placed (d.variablesOf side)).foldl
            (fun names p => names.addTerm p.owner p.term.name p.slot)
            ((d.variablesOf side).zipIdx.foldl
              (fun names e => names.addVariable e.1.name e.2) (n.side side))
        else n.side side' := by
  have hadd : d.addNames side n
      = (placed (d.variablesOf side)).foldl
          (fun n p => n.onSide side fun names => names.addTerm p.owner p.term.name p.slot)
          ((d.variablesOf side).zipIdx.foldl
            (fun n e => n.onSide side fun names => names.addVariable e.1.name e.2) n) := rfl
  rw [hadd, Names.side_foldl_onSide, Names.side_foldl_onSide, Names.side_foldl_onSide, if_pos rfl]
  by_cases hside : side = side'
  · rw [if_pos hside, if_pos hside]
  · rw [if_neg hside, if_neg hside, if_neg hside]

/-- **The names of a description** are those of its inputs and those of its
outputs. -/
theorem side_names (d : Description α) (side : Side) :
    d.names.side side = sideNames (d.variablesOf side) := by
  unfold names
  rw [side_addNames, side_addNames, side_addNames]
  cases side <;> rfl

theorem subjects_sideNames (vs : List (VariableDescription α)) :
    (sideNames vs).subjects
      = vs.zipIdx.foldl (fun table e => SideNames.assign table e.1.name e.2) [] := by
  have hterms (names : SideNames) :
      ((placed vs).foldl (fun names p => names.addTerm p.owner p.term.name p.slot) names).subjects
        = names.subjects :=
    List.foldlRecOn _ _ (motive := fun s : SideNames => s.subjects = names.subjects) rfl fun _ h _ _ => h
  exact (hterms _).trans (List.foldl_hom SideNames.subjects fun _ _ => rfl).symm

theorem terms_sideNames (vs : List (VariableDescription α)) :
    (sideNames vs).terms
      = (placed vs).foldl (fun table p => SideNames.assign table (p.owner, p.term.name) p.slot)
          [] := by
  have hvariables :
      (vs.zipIdx.foldl (fun names e => names.addVariable e.1.name e.2) SideNames.empty).terms
        = [] :=
    List.foldlRecOn _ _ (motive := fun s : SideNames => s.terms = []) rfl fun _ h _ _ => h
  rw [← hvariables]
  exact (List.foldl_hom SideNames.terms fun _ _ => rfl).symm

/-! ## Names that are given once -/

/-- What is found in two places of a list of things with different names is
found in one. -/
theorem index_unique {β : Type} {l : List β} {name : β → String} (h : (l.map name).Nodup)
    {i i' : Nat} {a a' : β} (ha : l[i]? = some a) (ha' : l[i']? = some a')
    (hname : name a = name a') : i = i' := by
  have hlt : i < (l.map name).length := by
    rw [List.length_map]
    exact (List.getElem?_eq_some_iff.mp ha).1
  refine (List.getElem?_inj hlt h).mp ?_
  rw [List.getElem?_map, List.getElem?_map, ha, ha']
  exact congrArg some hname

/-- **Variables whose names differ**, and those of the terms of each of
them. -/
structure Distinct (vs : List (VariableDescription α)) : Prop where
  /-- The names of the variables. -/
  subjects : (vs.map (·.name)).Nodup
  /-- The names of the terms of a variable. -/
  terms : ∀ v ∈ vs, (v.terms.map (·.name)).Nodup

/-- **The name of a variable** stands for the variable. -/
theorem Distinct.lookup_subject (h : Distinct vs) (hv : vs[i]? = some v) :
    (sideNames vs).subjects.lookup v.name = some i := by
  rw [subjects_sideNames]
  refine SideNames.lookup_foldl_of_mem (fun e => e.1.name) Prod.snd (fun e he hname => ?_)
    ⟨(v, i), List.mem_zipIdx_iff_getElem?.mpr hv, rfl⟩ []
  exact index_unique h.subjects (List.mem_zipIdx_iff_getElem?.mp he) hv hname

/-- **The name of a term**, under its variable, stands for its place. -/
theorem Distinct.lookup_term (h : Distinct vs) (hv : vs[i]? = some v) (ht : v.terms[j]? = some t) :
    (sideNames vs).terms.lookup (i, t.name) = some (slotOf vs i j) := by
  rw [terms_sideNames]
  refine SideNames.lookup_foldl_of_mem (fun p => (p.owner, p.term.name)) Placed.slot
    (fun p hp hkey => ?_)
    ⟨⟨i, slotOf vs i j, t⟩, mem_placed hv ht, rfl⟩ []
  obtain ⟨howner, hname⟩ := Prod.mk.inj hkey
  obtain ⟨v', j', hv', ht', hslot⟩ := exists_of_mem_placed hp
  rw [howner, hv] at hv'
  cases hv'
  rw [← hslot, howner, index_unique (h.terms v (List.mem_of_getElem? hv)) ht' ht hname]

/-- A name that no variable has stands for nothing. -/
theorem lookup_subject_eq_none {name : String} (h : ∀ v ∈ vs, v.name ≠ name) :
    (sideNames vs).subjects.lookup name = none := by
  rw [subjects_sideNames]
  exact SideNames.lookup_foldl_of_ne (fun e => e.1.name) Prod.snd
    (fun e he => h e.1 (List.fst_mem_of_mem_zipIdx he)) []

/-- **Nor does a name that no term of the variable has.** -/
theorem lookup_term_eq_none {name : String}
    (h : ∀ v, vs[i]? = some v → ∀ t ∈ v.terms, t.name ≠ name) :
    (sideNames vs).terms.lookup (i, name) = none := by
  rw [terms_sideNames]
  refine SideNames.lookup_foldl_of_ne (fun p => (p.owner, p.term.name)) Placed.slot
    (fun p hp hkey => ?_) []
  obtain ⟨howner, hname⟩ := Prod.mk.inj hkey
  obtain ⟨v, j, hv, ht, -⟩ := exists_of_mem_placed hp
  exact h v (howner ▸ hv) p.term (List.mem_of_getElem? ht) hname

/-! ## The check of the names -/

end Description

/-- **There is no repetition** among names that are all different, and
different from those before them. -/
theorem firstRepeat?_eq_none_iff {seen names : List String} :
    firstRepeat? seen names = none ↔ names.Nodup ∧ ∀ name ∈ names, name ∉ seen := by
  induction names generalizing seen with
  | nil => exact iff_of_true rfl ⟨List.nodup_nil, fun _ h => absurd h List.not_mem_nil⟩
  | cons name names ih =>
    rw [firstRepeat?, List.nodup_cons, List.forall_mem_cons]
    by_cases hseen : name ∈ seen
    · rw [if_pos hseen]
      exact iff_of_false (Option.some_ne_none _) fun h => h.2.1 hseen
    · rw [if_neg hseen, ih]
      simp only [List.mem_cons, not_or]
      constructor
      · rintro ⟨hnodup, hnames⟩
        exact ⟨⟨fun hmem => (hnames name hmem).1 rfl, hnodup⟩, hseen,
          fun other hmem => (hnames other hmem).2⟩
      · rintro ⟨⟨hname, hnodup⟩, -, hnames⟩
        exact ⟨hnodup, fun other hmem =>
          ⟨fun heq => hname (heq ▸ hmem), hnames other hmem⟩⟩

namespace Description

theorem checkNames_eq_ok_iff {kind : NameKind} {names : List String} :
    (checkNames kind names : Except (Fault α) Unit) = .ok () ↔ names.Nodup := by
  have hnodup : firstRepeat? [] names = none ↔ names.Nodup := by
    rw [firstRepeat?_eq_none_iff]
    exact and_iff_left fun _ _ => List.not_mem_nil
  rw [← hnodup]
  unfold checkNames
  cases firstRepeat? [] names with
  | none => exact iff_of_true rfl rfl
  | some name =>
    constructor <;> intro h <;> cases h

/-- **Names that pass the check** differ, on either side. -/
theorem distinct_of_checkAllNames {d : Description α} (h : d.checkAllNames = .ok ())
    (side : Side) : Distinct (d.variablesOf side) := by
  obtain ⟨u, hinputs, h⟩ := Except.bind_eq_ok_iff.mp h
  obtain ⟨u', houtputs, h⟩ := Except.bind_eq_ok_iff.mp h
  have hterms : ∀ v ∈ d.inputs ++ d.outputs, (v.terms.map (·.name)).Nodup := fun v hv =>
    checkNames_eq_ok_iff.mp (List.forM_eq_ok_iff.mp h v hv)
  cases side with
  | input =>
    exact ⟨checkNames_eq_ok_iff.mp hinputs, fun v hv => hterms v (List.mem_append_left _ hv)⟩
  | output =>
    exact ⟨checkNames_eq_ok_iff.mp houtputs, fun v hv => hterms v (List.mem_append_right _ hv)⟩

end Description

end FuzzyInference
