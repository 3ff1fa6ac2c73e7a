import FuzzyInference.Fault

/-!
# Variables

A **variable** has a crisp value and a universe, the interval its values
are meant to lie in. Nothing keeps the value in the universe but
`Variable.saturate?`, which is asked for where it matters.
-/

namespace FuzzyInference

/-- **A crisp variable.** -/
structure Variable (α : Type) where
  /-- The lower end of the universe. -/
  lower : α
  /-- The upper end of the universe. -/
  upper : α
  /-- The value. -/
  value : α
deriving BEq

namespace Variable

variable {α : Type} [Scalar α]

/-- **A proper range** has finite ends, the lower below the upper. -/
abbrev IsProperRange (lower upper : α) : Prop :=
  Scalar.IsFinite lower ∧ Scalar.IsFinite upper ∧ lower < upper

/-- Whether the universe of a variable is a proper range. -/
def check (v : Variable α) : Except (Rejection α) Unit :=
  if IsProperRange v.lower v.upper then .ok () else .error (.improperRange v.lower v.upper)

/-- **The variable of a universe**, with the lower end for its value. -/
def make (lower upper : α) : Except (Rejection α) (Variable α) := do
  let v : Variable α := ⟨lower, upper, lower⟩
  v.check
  return v

/-- How far the universe extends. -/
def span (v : Variable α) : α := v.upper - v.lower

/-- **A value saturated in the universe**, if that is an interval. -/
def saturate? (v : Variable α) (x : α) : Option α :=
  if v.lower ≤ v.upper then some (Scalar.clamp v.lower v.upper x) else none

/-- A value saturated in the universe if it is finite; any other value is
kept, to be seen for what it is. -/
def saturateFinite? (v : Variable α) (x : α) : Option α :=
  if Scalar.IsFinite x then v.saturate? x else some x

end Variable

end FuzzyInference
