import FuzzyInference.Language.Read
import FuzzyInference.Proofs.Sequence

/-!
# The numbers in a text of rules

A statement is resolved as soon as it is complete, so the rules of a text
can only speak of variables and terms that have names: each number in them
is one that the resolver has given (`Rule.Named`). The reader never holds
a rule of another kind (`Reader.State.Named`), whatever it reads.
-/

namespace FuzzyInference

/-- **A statement in numbers that have names**: some name stands for its
variable, and under this variable some name stands for its term. -/
def Atom.Named (names : Resolver) (side : Side) (a : Atom) : Prop :=
  (∃ name, names.subject? side name = some a.subject) ∧
    ∃ term, names.term? side a.subject term = some a.term.index

/-- **A rule in numbers that have names.** -/
structure Rule.Named (names : Resolver) (r : Rule) : Prop where
  /-- Its premise speaks of named inputs. -/
  clauses : ∀ p ∈ r.clauses, p.2.Named names .input
  /-- Its conclusions speak of named outputs. -/
  conclusions : ∀ a ∈ r.conclusions, a.Named names .output

variable {names : Resolver}

/-- Nothing has been said yet. -/
theorem Rule.named_empty : Rule.empty.Named names :=
  ⟨fun _ h => absurd h List.not_mem_nil, fun _ h => absurd h List.not_mem_nil⟩

/-- The statements of a premise that goes on. -/
theorem Rule.mem_clauses_clause {r : Rule} {c : Connective} {a : Atom}
    {p : Option Connective × Atom} (h : p ∈ (r.clause c a).clauses) : p ∈ r.clauses ∨ p.2 = a := by
  cases hpremise : r.premise with
  | none =>
    rw [clause, hpremise] at h
    exact .inr (congrArg Prod.snd (List.mem_singleton.mp h))
  | some q =>
    have hgrown : (r.clause c a).clauses = r.clauses ++ [(some c, a)] := by
      rw [clause, hpremise, clauses, clauses, hpremise]
      show (none, q.first) :: (q.rest ++ [(c, a)]).map _ = _
      rw [List.map_append]
      rfl
    rw [hgrown] at h
    rcases List.mem_append.mp h with h | h
    · exact .inl h
    · exact .inr (congrArg Prod.snd (List.mem_singleton.mp h))

namespace Reader

/-- **One more statement** in numbers that have names. -/
theorem named_extend {r : Rule} (hr : r.Named names) (role : Role) {a : Atom}
    (ha : a.Named names role.side) : (role.extend r a).Named names := by
  cases role with
  | opening =>
    refine ⟨fun p hp => ?_, hr.conclusions⟩
    rw [List.mem_singleton.mp hp]
    exact ha
  | linked c =>
    refine ⟨fun p hp => ?_, ?_⟩
    · rcases Rule.mem_clauses_clause hp with hp | hp
      · exact hr.clauses p hp
      · rw [hp]
        exact ha
    · have hsame : (r.clause c a).conclusions = r.conclusions := by
        unfold Rule.clause
        cases r.premise <;> rfl
      show ∀ b ∈ (r.clause c a).conclusions, _
      rw [hsame]
      exact hr.conclusions
  | conclusion =>
    refine ⟨hr.clauses, fun b hb => ?_⟩
    rcases List.mem_append.mp hb with hb | hb
    · exact hr.conclusions b hb
    · rw [List.mem_singleton.mp hb]
      exact ha

/-- What is resolved has names. -/
theorem named_resolve {side : Side} {line : Nat} {name term : String} {negated : Bool} {a : Atom}
    (h : resolve names side line name negated term = .ok a) : a.Named names side := by
  unfold resolve at h
  cases hsubject : names.subject? side name with
  | none =>
    rw [hsubject] at h
    cases h
  | some tag =>
    cases hterm : names.term? side tag term with
    | none =>
      simp only [hsubject, hterm] at h
      cases h
    | some index =>
      simp only [hsubject, hterm] at h
      cases h
      exact ⟨⟨name, hsubject⟩, term, hterm⟩

namespace State

/-- The rule read so far. -/
def draft : State → Rule
  | .between => .empty
  | .statement draft _ => draft
  | .named draft _ _ _ => draft
  | .joined draft _ _ _ => draft
  | .denied draft _ _ _ => draft
  | .premise draft => draft
  | .conclusion draft => draft

/-- **A state of the reader** whose rule is in numbers that have names. -/
def Named (names : Resolver) (s : State) : Prop := s.draft.Named names

theorem named_complete {draft : Rule} (hdraft : draft.Named names) {role : Role} {line : Nat}
    {name term : String} {negated : Bool} {s : State}
    (h : complete names draft role line name negated term = .ok s) : s.Named names := by
  unfold complete at h
  cases hresolve : resolve names role.side line name negated term with
  | error f =>
    rw [hresolve] at h
    cases h
  | ok a =>
    rw [hresolve] at h
    cases h
    have hextended := named_extend hdraft role (named_resolve hresolve)
    cases role <;> exact hextended

/-- **One lexeme further**, the rule read so far and the rule that has
ended are in numbers that have names. -/
theorem named_advance {s next : State} {l : Located} {finished : Option Rule}
    (hs : s.Named names) (h : s.advance names l = .ok (next, finished)) :
    next.Named names ∧ ∀ r ∈ finished, r.Named names := by
  have hnone : ∀ r ∈ (none : Option Rule), r.Named names := fun r hr => by cases hr
  unfold advance at h
  split at h
  -- the term that completes a statement
  case h_7 | h_8 =>
    obtain ⟨s', hcomplete, h⟩ := Except.map_eq_ok_iff.mp h
    cases h
    exact ⟨named_complete hs hcomplete, hnone⟩
  -- the end of a rule
  case h_13 | h_14 | h_15 =>
    cases h
    exact ⟨Rule.named_empty, fun r hr => by cases hr; exact hs⟩
  -- a lexeme that has no place here
  case h_16 => cases h
  -- in all other cases the rule is the one it was
  all_goals
    cases h
    exact ⟨hs, hnone⟩

/-- **All rules that follow a state** are in numbers that have names. -/
theorem named_read {last : Place} {s : State} {ls : List Located} {rules : List Rule}
    (hs : s.Named names) (h : s.read names last ls = .ok rules) : ∀ r ∈ rules, r.Named names := by
  induction ls generalizing s rules with
  | nil =>
    cases s <;> cases h
    · exact fun r hr => absurd hr List.not_mem_nil
    · intro r hr
      rw [List.mem_singleton.mp hr]
      exact hs
  | cons l ls ih =>
    unfold read at h
    cases hadvance : s.advance names l with
    | error f =>
      rw [hadvance] at h
      cases h
    | ok p =>
      obtain ⟨next, finished⟩ := p
      obtain ⟨hnext, hfinished⟩ := named_advance hs hadvance
      cases hread : next.read names last ls with
      | error f =>
        simp only [hadvance, hread] at h
        cases h
      | ok rest =>
        simp only [hadvance, hread] at h
        cases h
        intro r hr
        rcases List.mem_append.mp hr with hr | hr
        · exact hfinished r (Option.mem_toList.mp hr)
        · exact ih hnext hread r hr

end State

end Reader

/-- **The rules of a text** are in numbers that have names. -/
theorem named_of_readRules {source : String} {rules : List Rule}
    (h : readRules names source = .ok rules) : ∀ r ∈ rules, r.Named names := by
  obtain ⟨ls, -, h⟩ := Except.bind_eq_ok_iff.mp h
  exact Reader.State.named_read (s := .between) Rule.named_empty h

/-! ## Tables of names -/

/-- **A name that is assigned** stands for what it has been given, and every
other name for what it stood for before. -/
theorem SideNames.lookup_assign {κ : Type} [DecidableEq κ] [BEq κ] [LawfulBEq κ]
    (table : List (κ × Nat)) (key k : κ) (value : Nat) :
    (assign table key value).lookup k = if k = key then some value else table.lookup k := by
  have hlast : List.lookup k [(key, value)] = if k = key then some value else none := by
    by_cases hk : k = key
    · rw [if_pos hk, hk, List.lookup_cons_self]
    · rw [if_neg hk, List.lookup_cons, beq_eq_false_iff_ne.mpr hk]
      rfl
  have hothers : (table.filter (·.1 ≠ key)).lookup k
      = if k = key then none else table.lookup k := by
    induction table with
    | nil => exact (ite_self none).symm
    | cons entry table ih =>
      by_cases hentry : entry.1 = key
      · rw [List.filter_cons_of_neg (by simpa using hentry), ih, List.lookup_cons]
        by_cases hk : k = key
        · rw [if_pos hk, if_pos hk]
        · have hne : (k == entry.1) = false := beq_eq_false_iff_ne.mpr (hentry ▸ hk)
          rw [if_neg hk, if_neg hk, hne]
      · rw [List.filter_cons_of_pos (by simpa using hentry), List.lookup_cons, ih,
          List.lookup_cons]
        by_cases hk : k = key
        · have hne : (k == entry.1) = false :=
            beq_eq_false_iff_ne.mpr fun h => hentry (h.symm.trans hk)
          rw [if_pos hk, hne, if_pos hk]
        · rw [if_neg hk, if_neg hk]
  -- the new entry is the last one, and the only one of its key
  rw [assign, List.lookup_append, hothers, hlast]
  by_cases hk : k = key
  · rw [if_pos hk, if_pos hk, if_pos hk]
    rfl
  · rw [if_neg hk, if_neg hk, if_neg hk, Option.or_none]

/-- A change of the names of one side. -/
theorem Names.side_onSide (n : Names) (s s' : Side) (f : SideNames → SideNames) :
    (n.onSide s f).side s' = if s = s' then f (n.side s) else n.side s' := by
  cases s <;> cases s' <;> rfl

end FuzzyInference
