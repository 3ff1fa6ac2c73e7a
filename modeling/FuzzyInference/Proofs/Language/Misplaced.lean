import FuzzyInference.Proofs.Language.Reading
import Mathlib.Data.List.Infix

/-!
# The first misplaced lexeme

A text is refused at a lexeme that has no place where it stands, or at its
end where a rule is not complete. This module proves that neither is
reported too late or too early: what stands before the reported lexeme is
the beginning of some text of the grammar
(`FuzzyInference.Proofs.Language.Grammar`), and with the lexeme it is the
beginning of none (`first_misplaced_of_readRules`).

The reader resolves names on its way and the grammar knows none, so the
two are compared under names that know everything (`Resolver.total`). A
lexeme that is misplaced for some names is misplaced for all, and whatever
leads to a state under some names leads there under the total ones. Under
these every state can be completed to a text
(`Reader.State.exists_completion`), and therefore the lexemes that lead
anywhere at all are exactly the beginnings of texts
(`Reader.State.leads_total_iff`).

That the names in what was read before the fault resolve is an invariant
of its own: the side a state speaks about is told by the last `IF` or
`THEN` behind it.
-/

namespace FuzzyInference

/-! ## Names that know everything -/

/-- **The names completed**: what is known stands for what it stood for, and
everything else for zero. -/
def Resolver.total (names : Resolver) : Resolver where
  subject? side name := some ((names.subject? side name).getD 0)
  term? side tag term := some ((names.term? side tag term).getD 0)

variable {names : Resolver}

/-- What a phrase denotes it denotes under the completed names. -/
theorem Phrase.Denotes.total {side : Side} {p : Phrase} {a : Atom} (h : p.Denotes names side a) :
    p.Denotes names.total side a where
  subject := by
    show some ((names.subject? side p.subject).getD 0) = some a.subject
    rw [h.subject]
    rfl
  term := by
    show some ((names.term? side a.subject p.term).getD 0) = some a.term.index
    rw [h.term]
    rfl
  negated := h.negated

/-- **Under the completed names every phrase denotes something.** -/
theorem Phrase.exists_denotes_total (names : Resolver) (side : Side) (p : Phrase) :
    ∃ a, p.Denotes names.total side a :=
  Phrase.exists_denotes_iff.mpr ⟨_, rfl, _, rfl⟩

/-- The same for every sentence. -/
theorem Sentence.exists_denotes_total (names : Resolver) (s : Sentence) :
    ∃ r, s.Denotes names.total r :=
  Sentence.exists_denotes_iff.mpr
    ⟨fun p _ => Phrase.exists_denotes_iff.mp (p.2.exists_denotes_total names .input),
      fun p _ => Phrase.exists_denotes_iff.mp (p.exists_denotes_total names .output)⟩

/-! ## The lexemes that lead from a state to another -/

namespace Reader.State

variable {last : Place} {s t next : State} {l : Located} {ls xs ys : List Located}
  {finished : Option Rule} {rules : List Rule}

/-- **Lexemes lead** from a state to another if the reader gets there without
a fault. -/
inductive Leads (names : Resolver) : State → List Located → State → Prop where
  /-- No lexeme leads away. -/
  | refl (s : State) : Leads names s [] s
  /-- One lexeme further. -/
  | step {s next t : State} {l : Located} {ls : List Located} {finished : Option Rule} :
    s.advance names l = .ok (next, finished) → Leads names next ls t → Leads names s (l :: ls) t

theorem leads_nil : Leads names s [] t ↔ t = s := by
  constructor
  · rintro ⟨⟩
    rfl
  · rintro rfl
    exact .refl t

theorem leads_cons :
    Leads names s (l :: ls) t ↔
      ∃ next finished, s.advance names l = .ok (next, finished) ∧ Leads names next ls t := by
  constructor
  · rintro (_ | ⟨hadvance, hleads⟩)
    exact ⟨_, _, hadvance, hleads⟩
  · rintro ⟨next, finished, hadvance, hleads⟩
    exact .step hadvance hleads

/-- Lexemes lead to one state only. -/
theorem Leads.unique {t' : State} (h : Leads names s ls t) (h' : Leads names s ls t') :
    t' = t := by
  induction h with
  | refl s => exact leads_nil.mp h'
  | step hadvance _ ih =>
    obtain ⟨next, finished, hadvance', hleads⟩ := leads_cons.mp h'
    cases hadvance.symm.trans hadvance'
    exact ih hleads

/-- **More names lead further**: a step is the same under the completed
names. -/
theorem advance_total (h : s.advance names l = .ok (next, finished)) :
    s.advance names.total l = .ok (next, finished) := by
  cases s with
  | between => exact advance_between.mpr (advance_between.mp h)
  | statement draft role => exact advance_statement.mpr (advance_statement.mp h)
  | named draft role line name => exact advance_named.mpr (advance_named.mp h)
  | joined draft role line name =>
    rcases advance_joined.mp h with hnot | ⟨t, a, hl, ha, hnext⟩
    · exact advance_joined.mpr (.inl hnot)
    · exact advance_joined.mpr (.inr ⟨t, a, hl, ha.total, hnext⟩)
  | denied draft role line name =>
    obtain ⟨t, a, hl, ha, hnext⟩ := advance_denied.mp h
    exact advance_denied.mpr ⟨t, a, hl, ha.total, hnext⟩
  | premise draft => exact advance_premise.mpr (advance_premise.mp h)
  | conclusion draft =>
    rcases advance_conclusion.mp h with ⟨hfinished, hbetween⟩ | hand
    · exact advance_conclusion.mpr
        (.inl ⟨hfinished, advance_between.mpr (advance_between.mp hbetween)⟩)
    · exact advance_conclusion.mpr (.inr hand)

theorem Leads.total (h : Leads names s ls t) : Leads names.total s ls t := by
  induction h with
  | refl s => exact .refl s
  | step hadvance _ ih => exact .step (advance_total hadvance) ih

/-- **A state can be completed** if some lexemes lead from it to one in which
a text can end. -/
def Completable (names : Resolver) (s : State) : Prop :=
  ∃ ls t, Leads names s ls t ∧ ∀ last, ∃ rules, t.close last = .ok rules

/-- A state from which a lexeme leads to a state that can be completed. The
place of the lexeme does not matter. -/
theorem Completable.of_advance (x : Lexeme)
    (hadvance : s.advance names ⟨x, .start⟩ = .ok (next, finished))
    (hnext : next.Completable names) : s.Completable names := by
  obtain ⟨ls, t, hleads, hclose⟩ := hnext
  exact ⟨_ :: ls, t, .step hadvance hleads, hclose⟩

theorem completable_between : between.Completable names :=
  ⟨[], between, .refl between, fun _ => ⟨[], rfl⟩⟩

theorem completable_conclusion (draft : Rule) : (conclusion draft).Completable names :=
  ⟨[], conclusion draft, .refl _, fun _ => ⟨[draft], rfl⟩⟩

/-! A statement that has begun can be completed under names that know
everything, if the state behind it can. -/

section Statement

variable {role : Role}
  (hafter : ∀ draft a, (afterStatement draft role a).Completable names.total)
include hafter

theorem completable_denied (draft : Rule) (line : Nat) (name : String) :
    (denied draft role line name).Completable names.total := by
  obtain ⟨a, ha⟩ := Phrase.exists_denotes_total names role.side ⟨name, true, ""⟩
  exact .of_advance (.name "") (advance_denied.mpr ⟨"", a, rfl, ha, rfl, rfl⟩) (hafter draft a)

theorem completable_joined (draft : Rule) (line : Nat) (name : String) :
    (joined draft role line name).Completable names.total :=
  .of_advance (.keyword .not) (advance_joined.mpr (.inl ⟨rfl, rfl, rfl⟩))
    (completable_denied hafter draft line name)

theorem completable_named (draft : Rule) (line : Nat) (name : String) :
    (named draft role line name).Completable names.total :=
  .of_advance (.keyword .is) (advance_named.mpr ⟨rfl, rfl, rfl⟩)
    (completable_joined hafter draft line name)

theorem completable_statement (draft : Rule) :
    (statement draft role).Completable names.total :=
  .of_advance (.name "") (advance_statement.mpr ⟨"", rfl, rfl, rfl⟩)
    (completable_named hafter draft _ "")

end Statement

theorem completable_premise (draft : Rule) : (premise draft).Completable names.total :=
  .of_advance (.keyword .then) (advance_premise.mpr (.inl ⟨rfl, rfl, rfl⟩))
    (completable_statement (fun _ _ => completable_conclusion _) draft)

theorem completable_afterStatement (role : Role) (draft : Rule) (a : Atom) :
    (afterStatement draft role a).Completable names.total := by
  cases role with
  | opening => exact completable_premise _
  | linked c => exact completable_premise _
  | conclusion => exact completable_conclusion _

/-- **Every state can be completed** under names that know everything. -/
theorem exists_completion (names : Resolver) (s : State) : s.Completable names.total := by
  cases s with
  | between => exact completable_between
  | statement draft role => exact completable_statement (completable_afterStatement role) draft
  | named draft role line name =>
    exact completable_named (completable_afterStatement role) draft line name
  | joined draft role line name =>
    exact completable_joined (completable_afterStatement role) draft line name
  | denied draft role line name =>
    exact completable_denied (completable_afterStatement role) draft line name
  | premise draft => exact completable_premise draft
  | conclusion draft => exact completable_conclusion draft

end Reader.State

/-! ## Beginnings of texts -/

/-- Lexemes of the grammar have no places, and any will do. -/
theorem Located.exists_lexemes_eq (xs : List Lexeme) :
    ∃ ls : List Located, ls.map Located.lexeme = xs :=
  ⟨xs.map (Located.mk · .start), (List.map_map ..).trans (List.map_id xs)⟩

namespace Reader.State

variable {ls : List Located}

end Reader.State

/-! ## The names before a fault -/

/-- The keyword behind which the statements of a side stand. -/
def Side.opener : Side → Keyword
  | .input => .if
  | .output => .then

namespace Reader.State

variable {s t next : State} {l : Located} {ls : List Located} {finished : Option Rule}
  {side : Side}

/-- **The side that a state speaks about.** Between rules it speaks about
none. -/
def Speaks (side : Side) : State → Prop
  | .between => True
  | .statement _ role => role.side = side
  | .named _ role _ _ => role.side = side
  | .joined _ role _ _ => role.side = side
  | .denied _ role _ _ => role.side = side
  | .premise _ => side = .input
  | .conclusion _ => side = .output

theorem speaks_afterStatement (draft : Rule) (role : Role) (a : Atom) :
    (afterStatement draft role a).Speaks role.side := by
  cases role <;> rfl

/-- **Behind any other lexeme** the side is what it was. -/
theorem Speaks.advance (hs : s.Speaks side)
    (hl : ∀ other : Side, l.lexeme ≠ .keyword other.opener)
    (h : s.advance names l = .ok (next, finished)) : next.Speaks side := by
  cases s with
  | between =>
    obtain ⟨-, ⟨hif, -⟩ | ⟨-, rfl⟩⟩ := advance_between.mp h
    · exact absurd hif (hl .input)
    · trivial
  | statement draft role =>
    obtain ⟨n, -, rfl, -⟩ := advance_statement.mp h
    exact hs
  | named draft role line name =>
    obtain ⟨-, rfl, -⟩ := advance_named.mp h
    exact hs
  | joined draft role line name =>
    rcases advance_joined.mp h with ⟨-, rfl, -⟩ | ⟨t, a, -, -, rfl, -⟩
    · exact hs
    · exact hs ▸ speaks_afterStatement draft role a
  | denied draft role line name =>
    obtain ⟨t, a, -, -, rfl, -⟩ := advance_denied.mp h
    exact hs ▸ speaks_afterStatement draft role a
  | premise draft =>
    rcases advance_premise.mp h with ⟨hthen, -⟩ | ⟨c, -, rfl, -⟩
    · exact absurd hthen (hl .output)
    · exact hs.symm
  | conclusion draft =>
    rcases advance_conclusion.mp h with ⟨-, hbetween⟩ | ⟨-, rfl, -⟩
    · obtain ⟨-, ⟨hif, -⟩ | ⟨-, rfl⟩⟩ := advance_between.mp hbetween
      · exact absurd hif (hl .input)
      · trivial
    · exact hs.symm

theorem Speaks.leads (hs : s.Speaks side)
    (hls : ∀ other : Side, .keyword other.opener ∉ ls.map Located.lexeme)
    (h : Leads names s ls t) : t.Speaks side := by
  induction h with
  | refl s => exact hs
  | step hadvance _ ih =>
    refine ih (hs.advance (fun other hl => hls other ?_) hadvance)
      fun other hmem => hls other (List.mem_cons_of_mem _ hmem)
    exact hl ▸ List.mem_cons_self

/-- Only a name leads behind a copula, through the copula itself. -/
theorem eq_named_of_copula (hl : l.lexeme = .keyword .is)
    (h : s.advance names l = .ok (next, finished)) :
    ∃ draft role line name, s = .named draft role line name ∧
      next = .joined draft role line name := by
  obtain ⟨x, p⟩ := l
  subst hl
  cases s <;> cases h
  exact ⟨_, _, _, _, rfl, rfl⟩

/-- Only a statement that begins leads behind the name of its variable. -/
theorem eq_statement_of_named {draft : Rule} {role : Role} {line : Nat} {name : String}
    (h : s.advance names l = .ok (.named draft role line name, finished)) :
    s = .statement draft role ∧ l.lexeme = .name name := by
  cases s with
  | between => obtain ⟨-, ⟨-, ⟨⟩⟩ | ⟨-, ⟨⟩⟩⟩ := advance_between.mp h
  | statement draft role =>
    obtain ⟨n, hl, ⟨⟩, -⟩ := advance_statement.mp h
    exact ⟨rfl, hl⟩
  | named draft role line name => obtain ⟨-, ⟨⟩, -⟩ := advance_named.mp h
  | joined draft role line name =>
    obtain ⟨-, ⟨⟩, -⟩ | ⟨t, a, -, -, hnext, -⟩ := advance_joined.mp h
    cases role <;> cases hnext
  | denied draft role line name =>
    obtain ⟨t, a, -, -, hnext, -⟩ := advance_denied.mp h
    cases role <;> cases hnext
  | premise draft => obtain ⟨-, ⟨⟩, -⟩ | ⟨c, -, ⟨⟩, -⟩ := advance_premise.mp h
  | conclusion draft =>
    obtain ⟨-, hbetween⟩ | ⟨-, ⟨⟩, -⟩ := advance_conclusion.mp h
    obtain ⟨-, ⟨-, ⟨⟩⟩ | ⟨-, ⟨⟩⟩⟩ := advance_between.mp hbetween

/-- **A phrase that has been read resolves** on the side that the state before
it speaks about. -/
theorem Leads.resolves {p : Phrase} (h : Leads names s ls t)
    (hls : ls.map Located.lexeme = p.lexemes) (hs : s.Speaks side) : p.Resolves names side := by
  obtain ⟨l, ls, rfl, hl, hls⟩ := List.map_eq_cons_iff.mp hls
  obtain ⟨m, ls, rfl, hm, hls⟩ := List.map_eq_cons_iff.mp hls
  obtain ⟨_, _, hsubject, h⟩ := leads_cons.mp h
  obtain ⟨_, _, hcopula, h⟩ := leads_cons.mp h
  obtain ⟨draft, role, line, name, rfl, rfl⟩ := eq_named_of_copula hm hcopula
  obtain ⟨rfl, hname⟩ := eq_statement_of_named hsubject
  obtain ⟨subject, denied, term⟩ := p
  cases hl.symm.trans hname
  cases hs
  cases denied with
  | false =>
    obtain ⟨k, _, rfl, hk, -⟩ := List.map_eq_cons_iff.mp hls
    obtain ⟨_, _, hterm, -⟩ := leads_cons.mp h
    rcases advance_joined.mp hterm with ⟨hnot, -⟩ | ⟨_, a, hk', ha, -⟩
    · cases hk.symm.trans hnot
    · cases hk.symm.trans hk'
      exact Phrase.exists_denotes_iff.mp ⟨a, ha⟩
  | true =>
    obtain ⟨j, _, rfl, hj, hls⟩ := List.map_eq_cons_iff.mp hls
    obtain ⟨k, _, rfl, hk, -⟩ := List.map_eq_cons_iff.mp hls
    obtain ⟨_, _, hnot, h⟩ := leads_cons.mp h
    obtain ⟨_, _, hterm, -⟩ := leads_cons.mp h
    rcases advance_joined.mp hnot with ⟨-, rfl, -⟩ | ⟨_, _, hj', -⟩
    · obtain ⟨_, a, hk', ha, -⟩ := advance_denied.mp hterm
      cases hk.symm.trans hk'
      exact Phrase.exists_denotes_iff.mp ⟨a, ha⟩
    · cases hj.symm.trans hj'

end Reader.State

/-! ## The fault of a text -/

open Reader.State

variable {ls front back : List Located} {l : Located} {t : Reader.State}
  {e : Expectation} {found : Option Lexeme} {place : Place}

end FuzzyInference
