import FuzzyInference.Scalar.Single
import FuzzyInference.Variable

/-!
# The order of scalars

Scalars come without laws, and for most of what is proved about the
library none is needed. What a system finds depends on the order of its
scalars in one place only: a value can be saturated in the universe of a
variable if the lower end is *at most* the upper one, whereas a universe
is checked to have its lower end *below* the upper one.
`Scalar.IsOrdered` asks for the step from the one to the other, and the
single-precision numbers take it, the values that are not numbers
included: those are neither below nor at most anything.
-/

namespace FuzzyInference

/-- **Scalars whose order is one**, as far as the library relies on it. -/
class Scalar.IsOrdered (α : Type) [Scalar α] : Prop where
  /-- What is below a scalar is at most that scalar. -/
  le_of_lt : ∀ {x y : α}, x < y → x ≤ y

/-- The order of the single-precision numbers is read off a comparison
with four answers, one of which is that there is none. -/
instance : Scalar.IsOrdered Float32 where
  le_of_lt {x y} h := by
    have hlt : x.toModel.unpack.compare y.toModel.unpack = some .lt :=
      eq_of_beq (of_decide_eq_true h)
    refine decide_eq_true ?_
    show (x.toModel.unpack.compare y.toModel.unpack).any Ordering.isLE = true
    rw [hlt]
    rfl

namespace Variable

variable {α : Type} [Scalar α] [Scalar.IsOrdered α]

/-- **A value can be saturated** in a universe that is a proper range. -/
theorem saturate?_of_isProperRange {v : Variable α} (h : IsProperRange v.lower v.upper) (x : α) :
    v.saturate? x = some (Scalar.clamp v.lower v.upper x) :=
  if_pos (Scalar.IsOrdered.le_of_lt h.2.2)

/-- A value that is not finite is kept as it is. -/
theorem saturateFinite?_of_isProperRange {v : Variable α}
    (h : IsProperRange v.lower v.upper) (x : α) :
    v.saturateFinite? x
      = some (if Scalar.IsFinite x then Scalar.clamp v.lower v.upper x else x) := by
  unfold saturateFinite?
  rw [saturate?_of_isProperRange h]
  split <;> rfl

end Variable

end FuzzyInference
