import FuzzyInference.Style

/-!
# Names

Rules speak of variables and terms by name, and a `Resolver` says which
number a name stands for. Inputs and outputs are named independently of
each other, and each variable has names of its own for its terms: what a
term stands for is asked under the number of its variable.

`Names` is the resolver that is a table. Naming something again replaces
what the name stood for.
-/

namespace FuzzyInference

/-- **What the names in a rule stand for.** -/
structure Resolver where
  /-- The number of a variable of a side. -/
  subject? : Side → String → Option Nat
  /-- The place of a term, in the table of its side, under the number of
  its variable. -/
  term? : Side → Nat → String → Option Nat

/-- The names of one side. -/
structure SideNames where
  /-- The variables. -/
  subjects : List (String × Nat)
  /-- The terms, each under the number of its variable. -/
  terms : List ((Nat × String) × Nat)
deriving DecidableEq, Repr

namespace SideNames

/-- No name. -/
def empty : SideNames := ⟨[], []⟩

/-- Let `key` stand for `value` in a table, whatever it stood for. -/
def assign {κ : Type} [DecidableEq κ] (table : List (κ × Nat)) (key : κ) (value : Nat) :
    List (κ × Nat) :=
  table.filter (·.1 ≠ key) ++ [(key, value)]

/-- Name a variable. -/
def addVariable (s : SideNames) (name : String) (tag : Nat) : SideNames :=
  { s with subjects := assign s.subjects name tag }

/-- Name a term of a variable. -/
def addTerm (s : SideNames) (tag : Nat) (term : String) (slot : Nat) : SideNames :=
  { s with terms := assign s.terms (tag, term) slot }

end SideNames

/-- **A table of names.** -/
structure Names where
  /-- The names of the inputs and of their terms. -/
  input : SideNames
  /-- The names of the outputs and of their terms. -/
  output : SideNames
deriving DecidableEq, Repr

namespace Names

/-- The table without a name. -/
def empty : Names := ⟨.empty, .empty⟩

/-- The names of a side. -/
def side (n : Names) : Side → SideNames
  | .input => n.input
  | .output => n.output

/-- The table with the names of one side changed. -/
def onSide (n : Names) (s : Side) (f : SideNames → SideNames) : Names :=
  match s with
  | .input => { n with input := f n.input }
  | .output => { n with output := f n.output }

/-- Name a variable of a side. -/
def addVariable (n : Names) (s : Side) (name : String) (tag : Nat) : Names :=
  n.onSide s (·.addVariable name tag)

/-- Name a term of a variable of a side. -/
def addTerm (n : Names) (s : Side) (tag : Nat) (term : String) (slot : Nat) : Names :=
  n.onSide s (·.addTerm tag term slot)

/-- **What the names of the table stand for.** -/
def resolver (n : Names) : Resolver where
  subject? s name := (n.side s).subjects.lookup name
  term? s tag term := (n.side s).terms.lookup (tag, term)

/-- The named outputs in the order of their numbers, and of their names
where one number has several. -/
def outputs (n : Names) : List (String × Nat) :=
  n.output.subjects.mergeSort fun a b => a.2 < b.2 || (a.2 = b.2 && a.1 ≤ b.1)

end Names

end FuzzyInference
