import FuzzyInference.Norm.Basic
import FuzzyInference.Proofs.Scalar.Real
import FuzzyInference.Proofs.Sequence

/-!
# Norms in exact arithmetic

A norm saturates what it makes of two degrees, and every step of a longer
combination is saturated again. In exact arithmetic this does no harm to the
s-norms: between degrees, the larger of two and the probabilistic sum need no
saturation at all, and a bounded sum that is cut to one stays there, because
no degree is below zero. So it does not matter in which order an s-norm
combines degrees (`Norm.foldl_apply_of_perm`).

Outside of the unit interval it would matter, and so it does after rounding.
-/

namespace FuzzyInference

/-- **A degree** of truth. -/
def IsDegree (x : ℝ) : Prop := 0 ≤ x ∧ x ≤ 1

namespace IsDegree

variable {x y : ℝ}

theorem zero : IsDegree 0 := ⟨le_rfl, zero_le_one⟩

theorem one : IsDegree 1 := ⟨zero_le_one, le_rfl⟩

theorem mul (hx : IsDegree x) (hy : IsDegree y) : IsDegree (x * y) :=
  ⟨mul_nonneg hx.1 hy.1, mul_le_one₀ hx.2 hy.1 hy.2⟩

/-- Degrees have complements. -/
theorem one_sub (hx : IsDegree x) : IsDegree (1 - x) :=
  ⟨sub_nonneg.mpr hx.2, sub_le_self 1 hx.1⟩

theorem clampUnit (x : ℝ) : IsDegree (Scalar.clampUnit x) := Scalar.clampUnit_mem le_rfl

end IsDegree

namespace Real

variable {x : ℝ}

/-- Saturation of what is not below zero. -/
theorem clampUnit_of_nonneg (hx : 0 ≤ x) : Scalar.clampUnit x = min x 1 := by
  unfold Scalar.clampUnit Scalar.clamp
  rw [if_neg (not_lt_of_ge hx)]
  split
  · next h => exact (min_eq_right (le_of_lt h)).symm
  · next h => exact (min_eq_left (le_of_not_gt h)).symm

theorem clampUnit_of_isDegree (hx : IsDegree x) : Scalar.clampUnit x = x :=
  (clampUnit_of_nonneg hx.1).trans (min_eq_left hx.2)

end Real

namespace Norm

variable {n : Norm} {x a b : ℝ}

theorem isDegree_apply (n : Norm) (a b : ℝ) : IsDegree (n.apply a b) := .clampUnit _

/-! ## Norms between degrees -/

theorem apply_minimum (ha : IsDegree a) (hb : IsDegree b) : minimum.apply a b = min a b := by
  show Scalar.clampUnit (Scalar.min a b) = min a b
  rw [Real.scalar_min]
  exact Real.clampUnit_of_isDegree ⟨le_min ha.1 hb.1, min_le_of_left_le ha.2⟩

theorem apply_product (ha : IsDegree a) (hb : IsDegree b) : product.apply a b = a * b :=
  Real.clampUnit_of_isDegree (ha.mul hb)

theorem apply_maximum (ha : IsDegree a) (hb : IsDegree b) : maximum.apply a b = max a b := by
  show Scalar.clampUnit (Scalar.max a b) = max a b
  rw [Real.scalar_max]
  exact Real.clampUnit_of_isDegree ⟨le_max_of_le_left ha.1, max_le ha.2 hb.2⟩

/-- The probabilistic sum is the degree of what is not neither. -/
theorem apply_probabilisticSum (ha : IsDegree a) (hb : IsDegree b) :
    probabilisticSum.apply a b = 1 - (1 - a) * (1 - b) := by
  have hcombine : a + b - a * b = 1 - (1 - a) * (1 - b) := by ring
  show Scalar.clampUnit (a + b - a * b) = _
  rw [hcombine]
  exact Real.clampUnit_of_isDegree (ha.one_sub.mul hb.one_sub).one_sub

theorem apply_boundedSum (ha : IsDegree a) (hb : IsDegree b) :
    boundedSum.apply a b = min (a + b) 1 :=
  Real.clampUnit_of_nonneg (add_nonneg ha.1 hb.1)

/-- A sum that has been cut to one is one afterwards as well. -/
theorem boundedSum_apply_apply (hx : IsDegree x) (ha : IsDegree a) (hb : IsDegree b) :
    boundedSum.apply (boundedSum.apply x a) b = min (x + a + b) 1 := by
  have hone : (1 : ℝ) ≤ 1 + b := le_add_of_nonneg_right hb.1
  rw [apply_boundedSum (isDegree_apply _ x a) hb, apply_boundedSum hx ha, ← min_add_add_right,
    min_assoc, min_eq_right hone]

/-- **Two degrees may be exchanged.** -/
theorem apply_right_comm (hn : n.isSNorm = true) (hx : IsDegree x) (ha : IsDegree a)
    (hb : IsDegree b) : n.apply (n.apply x a) b = n.apply (n.apply x b) a := by
  cases n with
  | minimum => cases hn
  | product => cases hn
  | maximum =>
    rw [apply_maximum (isDegree_apply _ x a) hb, apply_maximum (isDegree_apply _ x b) ha,
      apply_maximum hx ha, apply_maximum hx hb]
    exact max_right_comm x a b
  | probabilisticSum =>
    rw [apply_probabilisticSum (isDegree_apply _ x a) hb,
      apply_probabilisticSum (isDegree_apply _ x b) ha, apply_probabilisticSum hx ha,
      apply_probabilisticSum hx hb]
    ring
  | boundedSum =>
    rw [boundedSum_apply_apply hx ha hb, boundedSum_apply_apply hx hb ha, add_right_comm]

/-- **Degrees may be combined in any order.** -/
theorem foldl_apply_of_perm (hn : n.isSNorm = true) {β : Type} {f : β → ℝ} {l l' : List β}
    (h : l.Perm l') (hf : ∀ p ∈ l, IsDegree (f p)) :
    l.foldl (fun x p => n.apply x (f p)) 0 = l'.foldl (fun x p => n.apply x (f p)) 0 :=
  h.foldl_eq_of_closed (P := IsDegree) (fun p _ x _ => isDegree_apply n x (f p))
    (fun p hp q hq _ hx => apply_right_comm hn hx (hf p hp) (hf q hq)) IsDegree.zero

end Norm

end FuzzyInference
