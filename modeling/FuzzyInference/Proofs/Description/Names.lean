import FuzzyInference.Description.Basic
import FuzzyInference.Proofs.Language.Resolution

/-!
# The names of a description

The terms of a side share one table, and `Description.placed` says where
each of them goes: every place of the table is taken
(`Description.exists_placed`), by one term (`Description.placed_unique`).
The names of a description stand for nothing but its variables and its
terms where they have been placed (`Description.declares_names`).
-/

namespace FuzzyInference

namespace Description

variable {α : Type}

/-! ## The table of a side -/

/-- The terms of some variables, each with the number of its variable. -/
def owned (vs : List (VariableDescription α)) : List (Nat × TermDescription α) :=
  vs.zipIdx.flatMap fun (v, owner) => v.terms.map fun t => (owner, t)

theorem length_owned (vs : List (VariableDescription α)) : (owned vs).length = termCount vs := by
  have hterms : (owned vs).map Prod.snd = vs.flatMap fun v => v.terms := by
    conv => rhs; rw [← List.zipIdx_map_fst 0 vs, List.flatMap_map]
    rw [owned, List.map_flatMap]
    refine congrArg vs.zipIdx.flatMap (funext fun p => ?_)
    rw [List.map_map]
    exact List.map_id _
  rw [termCount, ← hterms, List.length_map]

/-- **A term is placed** where it stands among the terms of all
variables. -/
theorem mem_placed_iff {vs : List (VariableDescription α)} {p : Placed α} :
    p ∈ placed vs ↔ (owned vs)[p.slot]? = some (p.owner, p.term) := by
  constructor
  · intro h
    obtain ⟨⟨⟨owner, term⟩, slot⟩, hmem, rfl⟩ := List.mem_map.mp h
    exact List.mem_zipIdx_iff_getElem?.mp hmem
  · intro h
    exact List.mem_map.mpr ⟨((p.owner, p.term), p.slot), List.mem_zipIdx_iff_getElem?.mpr h, rfl⟩

/-- **No two terms are placed in one place.** -/
theorem placed_unique {vs : List (VariableDescription α)} {p q : Placed α} (hp : p ∈ placed vs)
    (hq : q ∈ placed vs) (h : p.slot = q.slot) : p = q := by
  rw [mem_placed_iff] at hp hq
  rw [h, hq] at hp
  cases p
  cases q
  cases h
  cases hp
  rfl

theorem slot_lt_of_mem_placed {vs : List (VariableDescription α)} {p : Placed α}
    (h : p ∈ placed vs) : p.slot < termCount vs := by
  rw [← length_owned]
  exact (List.getElem?_eq_some_iff.mp (mem_placed_iff.mp h)).1

/-- **No place is left over.** -/
theorem exists_placed {vs : List (VariableDescription α)} {slot : Nat} (h : slot < termCount vs) :
    ∃ p ∈ placed vs, p.slot = slot := by
  rw [← length_owned] at h
  refine ⟨⟨(owned vs)[slot].1, slot, (owned vs)[slot].2⟩, ?_, rfl⟩
  exact mem_placed_iff.mpr (List.getElem?_eq_getElem h)

/-! ## What names stand for -/

/-- **Names of some variables**: each stands for one of the variables, or
for a term of it where it is placed. -/
structure Declared (vs : List (VariableDescription α)) (s : SideNames) : Prop where
  /-- The names of the variables. -/
  subjects : ∀ {name tag}, s.subjects.lookup name = some tag → tag < vs.length
  /-- The names of their terms. -/
  terms : ∀ {tag term slot}, s.terms.lookup (tag, term) = some slot →
    ∃ p ∈ placed vs, p.owner = tag ∧ p.slot = slot

theorem Declared.addVariable {vs : List (VariableDescription α)} {s : SideNames}
    (h : Declared vs s) (name : String) {tag : Nat} (htag : tag < vs.length) :
    Declared vs (s.addVariable name tag) := by
  refine ⟨fun {other tag'} hlookup => ?_, h.terms⟩
  have hlookup : (SideNames.assign s.subjects name tag).lookup other = some tag' := hlookup
  rw [SideNames.lookup_assign] at hlookup
  by_cases hname : other = name
  · rw [if_pos hname] at hlookup
    cases hlookup
    exact htag
  · rw [if_neg hname] at hlookup
    exact h.subjects hlookup

theorem Declared.addTerm {vs : List (VariableDescription α)} {s : SideNames}
    (h : Declared vs s) {p : Placed α} (hp : p ∈ placed vs) :
    Declared vs (s.addTerm p.owner p.term.name p.slot) := by
  refine ⟨h.subjects, fun {tag term slot} hlookup => ?_⟩
  have hlookup : (SideNames.assign s.terms (p.owner, p.term.name) p.slot).lookup (tag, term)
    = some slot := hlookup
  rw [SideNames.lookup_assign] at hlookup
  by_cases hkey : (tag, term) = (p.owner, p.term.name)
  · rw [if_pos hkey] at hlookup
    cases hlookup
    exact ⟨p, hp, (congrArg Prod.fst hkey).symm, rfl⟩
  · rw [if_neg hkey] at hlookup
    exact h.terms hlookup

/-- **Names of the variables of a description**, on either side. -/
def Declares (d : Description α) (n : Names) : Prop :=
  ∀ side, Declared (d.variablesOf side) (n.side side)

variable {d : Description α} {n : Names}

theorem declares_empty (d : Description α) : d.Declares .empty := by
  intro side
  have hnone : Declared (d.variablesOf side) .empty := by
    constructor
    · intro name tag h
      cases h
    · intro tag term slot h
      cases h
  cases side <;> exact hnone

theorem Declares.onSide (h : d.Declares n) {side : Side} {f : SideNames → SideNames}
    (hf : ∀ s, Declared (d.variablesOf side) s → Declared (d.variablesOf side) (f s)) :
    d.Declares (n.onSide side f) := by
  intro side'
  rw [Names.side_onSide]
  by_cases hside : side = side'
  · subst hside
    rw [if_pos rfl]
    exact hf _ (h side)
  · rw [if_neg hside]
    exact h side'

/-- The names of a side are names of its variables. -/
theorem Declares.addNames (h : d.Declares n) (side : Side) : d.Declares (d.addNames side n) := by
  unfold Description.addNames
  refine List.foldlRecOn _ _ ?_ fun n h p hp => h.onSide fun s hs => hs.addTerm hp
  refine List.foldlRecOn _ _ h fun n h v hv => h.onSide fun s hs => ?_
  obtain ⟨v, tag⟩ := v
  exact hs.addVariable v.name (List.getElem?_eq_some_iff.mp (List.mem_zipIdx_iff_getElem?.mp hv)).1

/-- **The names of a description** stand for what it describes. -/
theorem declares_names (d : Description α) : d.Declares d.names :=
  ((declares_empty d).addNames .input).addNames .output

/-- A statement in numbers that have names in a description speaks of one of
its variables and of a term of this variable. -/
theorem exists_placed_of_named {side : Side} {a : Atom} (h : a.Named d.names.resolver side) :
    a.subject < (d.variablesOf side).length ∧
      ∃ p ∈ placed (d.variablesOf side), p.owner = a.subject ∧ p.slot = a.term.index := by
  obtain ⟨⟨name, hsubject⟩, term, hterm⟩ := h
  exact ⟨(declares_names d side).subjects hsubject, (declares_names d side).terms hterm⟩

end Description

end FuzzyInference
