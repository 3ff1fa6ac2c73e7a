/-!
# Rules

A **rule** says: if some statements about inputs hold, joined by `and`
and `or`, then some statements about outputs hold. Variables and
linguistic terms are known by their numbers here; the names that people
write are resolved by `FuzzyInference.Language`.

The connectives stand between the statements of a premise, so the first
statement has none: a `Premise` keeps its first statement apart. A rule
under construction may still lack its premise or its conclusions, and
`Rule.IsComplete` says that it lacks neither.
-/

namespace FuzzyInference

/-- What joins a statement of a premise to those before it. -/
inductive Connective where
  /-- Both have to hold. -/
  | and
  /-- Either has to hold. -/
  | or
deriving DecidableEq, Repr

namespace Connective

/-- Both connectives. -/
def all : List Connective := [.and, .or]

/-- The name of a connective. -/
def title : Connective → String
  | .and => "And"
  | .or => "Or"

end Connective

/-- **A reference to a linguistic term**: a place in the table of the
terms of one side, asserted or denied. -/
structure TermRef where
  /-- The place in the table, from zero. -/
  index : Nat
  /-- Whether the term is denied. -/
  negated : Bool
deriving DecidableEq, Repr

namespace TermRef

/-- The assertion of a term. -/
def is (index : Nat) : TermRef := ⟨index, false⟩

/-- The denial of a term. -/
def isNot (index : Nat) : TermRef := ⟨index, true⟩

end TermRef

/-- **A statement** `x is [not] t` about one variable. -/
structure Atom where
  /-- The number of the variable on its side. -/
  subject : Nat
  /-- The term it is said to have, or not to have. -/
  term : TermRef
deriving DecidableEq, Repr

/-- **A premise**: statements about inputs and what joins them. -/
structure Premise where
  /-- The first statement. -/
  first : Atom
  /-- The further statements, each with the connective in front of it. -/
  rest : List (Connective × Atom)
deriving DecidableEq, Repr

namespace Premise

/-- The statements of a premise with the connectives in front of them;
the first has none. -/
def clauses (p : Premise) : List (Option Connective × Atom) :=
  (none, p.first) :: p.rest.map fun (c, a) => (some c, a)

end Premise

/-- **A rule**, perhaps still incomplete. -/
structure Rule where
  /-- What has to hold, when it has been said. -/
  premise : Option Premise
  /-- What then holds, output by output. -/
  conclusions : List Atom
deriving DecidableEq, Repr

namespace Rule

/-- The rule of which nothing has been said. -/
def empty : Rule := ⟨none, []⟩

/-- The rule whose premise is one statement. -/
def opening (a : Atom) : Rule := ⟨some ⟨a, []⟩, []⟩

/-- The rule with one more statement in its premise. A connective in front
of the first statement joins nothing and is dropped. -/
def clause (r : Rule) (c : Connective) (a : Atom) : Rule :=
  match r.premise with
  | none => { r with premise := some ⟨a, []⟩ }
  | some p => { r with premise := some { p with rest := p.rest ++ [(c, a)] } }

/-- The rule with one more conclusion. -/
def concluding (r : Rule) (a : Atom) : Rule :=
  { r with conclusions := r.conclusions ++ [a] }

/-- The statements of the premise with the connectives in front of them;
none when there is no premise. -/
def clauses (r : Rule) : List (Option Connective × Atom) :=
  match r.premise with
  | none => []
  | some p => p.clauses

/-- **A complete rule** has a premise and at least one conclusion. -/
def IsComplete (r : Rule) : Prop := r.premise.isSome ∧ r.conclusions ≠ []

instance (r : Rule) : Decidable r.IsComplete :=
  inferInstanceAs (Decidable (_ ∧ _))

end Rule

end FuzzyInference
