import FuzzyInference.Proofs.Scalar.Linear

/-!
# Saturating twice

Saturation leaves what lies in the interval as it is, and so a second
saturation changes nothing. For this the two comparisons must not contradict
each other: a number cannot be at most another and above it. `Scalar.IsStrict`
asks for that, and the single-precision numbers, whose comparisons are two
readings of one answer, have it to give.

What is not a number is below nothing and above nothing. Saturation lets it
through, once as often as twice, and this is the only way out of the interval
(`Scalar.clamp_mem_iff`).
-/

namespace FuzzyInference

/-- **Scalars whose two comparisons agree.** -/
class Scalar.IsStrict (α : Type) [Scalar α] : Prop extends Scalar.IsLinear α where
  /-- What is at most a scalar is not above it. -/
  not_lt_of_le : ∀ {x y : α}, x ≤ y → ¬ y < x

instance : Scalar.IsStrict Float32 where
  not_lt_of_le {x y} h hlt := by
    obtain ⟨o, ho, hne⟩ := Single.le_iff.mp h
    rw [Single.lt_iff, Single.compare_swap, ho] at hlt
    cases o with
    | lt => cases hlt
    | eq => cases hlt
    | gt => exact hne rfl

namespace Scalar

variable {α : Type} [Scalar α] {lower upper x : α}

section Linear

variable [IsLinear α]

/-- What is not a number is let through. -/
theorem clamp_of_isNaN (hx : IsNaN x) : clamp lower upper x = x := by
  have hbelow : ¬ x < lower :=
    fun h => hx (IsLinear.number_of_le (IsOrdered.le_of_lt h)).1
  have habove : ¬ upper < x :=
    fun h => hx (IsLinear.number_of_le (IsOrdered.le_of_lt h)).2
  unfold clamp
  rw [if_neg hbelow, if_neg habove]

/-- **Saturation fails for what is not a number**, and for nothing else. -/
theorem clamp_mem_iff (h : lower ≤ upper) :
    lower ≤ clamp lower upper x ∧ clamp lower upper x ≤ upper ↔ ¬ IsNaN x := by
  constructor
  · intro hmem hx
    rw [clamp_of_isNaN hx] at hmem
    exact hx (IsLinear.number_of_le hmem.2).1
  · exact fun hx => clamp_mem h (Decidable.not_not.mp hx)

/-- Saturation makes numbers of numbers only. -/
theorem isNaN_clamp_iff (h : lower ≤ upper) : IsNaN (clamp lower upper x) ↔ IsNaN x := by
  constructor
  · intro hclamp hx
    exact hclamp (IsLinear.number_of_le (clamp_mem h hx).2).1
  · intro hx
    rw [clamp_of_isNaN hx]
    exact hx

end Linear

variable [IsStrict α]

/-- What lies in the interval is left as it is. -/
theorem clamp_of_mem (hlower : lower ≤ x) (hupper : x ≤ upper) : clamp lower upper x = x := by
  unfold clamp
  rw [if_neg (IsStrict.not_lt_of_le hlower), if_neg (IsStrict.not_lt_of_le hupper)]

/-- **A second saturation changes nothing.** -/
theorem clamp_clamp (h : lower ≤ upper) :
    clamp lower upper (clamp lower upper x) = clamp lower upper x := by
  by_cases hx : x ≤ x
  · obtain ⟨hlower, hupper⟩ := clamp_mem h hx
    exact clamp_of_mem hlower hupper
  · rw [clamp_of_isNaN hx, clamp_of_isNaN hx]

end Scalar

end FuzzyInference
