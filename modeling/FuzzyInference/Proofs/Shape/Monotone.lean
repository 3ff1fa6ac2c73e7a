import Mathlib.Order.Monotone.Union
import FuzzyInference.Proofs.Shape.Inverse

/-!
# Ramps that rise or fall throughout

A smooth rise and a straight one never fall, and a smooth fall and a straight
one never rise, whatever their coefficients are and in whatever order these
come. A rise and the fall with the same coefficients complement each other
(`Curve.monotone_and_complementary`). The one exception are straight ramps whose
ends come in the wrong order and are not near each other: both are zero
everywhere.

For a straight ramp this is a property of saturation, which is monotone and
respects complements (`Real.monotone_clampUnit`, `Real.clampUnit_one_sub`). A
smooth rise is made of two parabolas. It is monotone because it is so on either
side of the middle, and both parabolas have a part in the middle
(`Curve.smoothS_lower_half`, `Curve.smoothS_upper_half`). Of a fall nothing has
to be shown but that it is the complement of a rise.
-/

namespace FuzzyInference

namespace Real

/-- Saturation cuts from above, and then from below. -/
theorem clampUnit_eq (x : ℝ) : Scalar.clampUnit x = max 0 (min x 1) := by
  rcases le_or_gt 0 x with hx | hx
  · rw [clampUnit_of_nonneg hx, max_eq_right (le_min hx zero_le_one)]
  · unfold Scalar.clampUnit Scalar.clamp
    rw [if_pos hx, max_eq_left (min_le_of_left_le hx.le)]

/-- **Saturation is monotone.** -/
theorem monotone_clampUnit : Monotone (Scalar.clampUnit : ℝ → ℝ) := by
  intro x y hxy
  rw [clampUnit_eq, clampUnit_eq]
  exact max_le_max_left 0 (min_le_min_right 1 hxy)

/-- **The complement of a saturated number** is its saturated complement. -/
theorem clampUnit_one_sub (x : ℝ) : Scalar.clampUnit (1 - x) = 1 - Scalar.clampUnit x := by
  rw [clampUnit_eq, clampUnit_eq, ← min_sub_sub_left, ← max_sub_sub_left, sub_zero, sub_self,
    max_min_distrib_left, max_eq_right zero_le_one, min_comm, max_comm]

end Real

namespace Curve

variable {a b x : ℝ}

/-- How far a point is on the way from one end to the other. -/
theorem monotone_place (hab : a < b) : Monotone fun x => (x - a) / (b - a) :=
  fun _ _ hxy => div_le_div_of_nonneg_right (sub_le_sub_right hxy a) (sub_pos.mpr hab).le

/-- A step up is monotone: before a point of its lower part there is nothing
else. -/
theorem monotone_step {P : ℝ → Prop} [DecidablePred P] (hP : ∀ {x y}, x ≤ y → P y → P x) :
    Monotone fun x => if P x then (0 : ℝ) else 1 := by
  intro x y hxy
  show (if P x then (0 : ℝ) else 1) ≤ if P y then 0 else 1
  by_cases hy : P y
  · rw [if_pos hy, if_pos (hP hxy hy)]
  · rw [if_neg hy]
    split
    · exact zero_le_one
    · exact le_rfl

/-! ## Smooth ramps -/

/-- **The lower half of a smooth rise**, and what lies before it. -/
theorem smoothS_lower_half (hab : a < b) {t : ℝ} (ht : t ≤ 2⁻¹) :
    smoothS (a + (b - a) * t) a b = 2 * max t 0 ^ 2 := by
  rcases lt_or_ge 0 t with hpos | hneg
  · rw [smoothS_lower hab hpos ht, max_eq_left hpos.le]
  · have hbefore : a + (b - a) * t ≤ a :=
      add_le_of_nonpos_right (mul_nonpos_of_nonneg_of_nonpos (sub_pos.mpr hab).le hneg)
    unfold smoothS
    rw [if_pos hbefore, max_eq_right hneg]
    norm_num

/-- **The upper half of a smooth rise**, and what lies behind it. In the middle
both halves have the same degree. -/
theorem smoothS_upper_half (hab : a < b) {t : ℝ} (ht : 2⁻¹ ≤ t) :
    smoothS (a + (b - a) * t) a b = 1 - 2 * max (1 - t) 0 ^ 2 := by
  have hfrom : a + (b - a) * t = b - (b - a) * (1 - t) := by ring
  rcases eq_or_lt_of_le ht with rfl | hmiddle
  · rw [smoothS_lower_half hab le_rfl]
    norm_num
  · rcases lt_or_ge t 1 with hlt | hge
    · rw [hfrom, smoothS_upper hab (sub_pos.mpr hlt) (by linarith),
        max_eq_left (sub_pos.mpr hlt).le]
    · have hbehind : b ≤ a + (b - a) * t := by
        have := mul_le_mul_of_nonneg_left hge (sub_pos.mpr hab).le
        linarith
      unfold smoothS
      rw [if_neg (not_le_of_gt (hab.trans_le hbehind)), if_pos hbehind,
        max_eq_right (sub_nonpos.mpr hge)]
      norm_num

/-- A smooth rise that has no room to rise is a step. -/
theorem smoothS_of_ge (hba : b ≤ a) : smoothS x a b = if x ≤ a then 0 else 1 := by
  unfold smoothS
  split
  · rfl
  · next h => exact if_pos (hba.trans (le_of_not_ge h))

/-- **A smooth rise never falls.** Between its ends it is monotone on either side
of the middle, and otherwise it is a step. -/
theorem monotone_smoothS (a b : ℝ) : Monotone fun x => smoothS x a b := by
  rcases lt_or_ge a b with hab | hba
  · have hspan : 0 < b - a := sub_pos.mpr hab
    have hlower : MonotoneOn (fun t => smoothS (a + (b - a) * t) a b) (Set.Iic 2⁻¹) := by
      intro t ht u hu htu
      simp only [smoothS_lower_half hab ht, smoothS_lower_half hab hu]
      gcongr
    have hupper : MonotoneOn (fun t => smoothS (a + (b - a) * t) a b) (Set.Ici 2⁻¹) := by
      intro t ht u hu htu
      simp only [smoothS_upper_half hab ht, smoothS_upper_half hab hu]
      gcongr
    have hmonotone := (hlower.Iic_union_Ici hupper).comp (monotone_place hab)
    intro x y hxy
    have hle := hmonotone hxy
    simp only [Function.comp_apply, mul_div_cancel₀ _ hspan.ne', add_sub_cancel] at hle
    exact hle
  · simp only [smoothS_of_ge hba]
    exact monotone_step fun hxy hy => hxy.trans hy

/-! ## Straight ramps -/

/-- **A straight rise never falls.** -/
theorem monotone_linearS (a b : ℝ) : Monotone fun x => linearS x a b := by
  by_cases hab : a < b
  · simp only [linearS, if_pos hab]
    exact Real.monotone_clampUnit.comp (monotone_place hab)
  · by_cases hnear : Scalar.Near a b
    · simp only [linearS, if_neg hab, if_pos hnear]
      exact monotone_step fun hxy hy => hxy.trans_lt hy
    · simp only [linearS, if_neg hab, if_neg hnear]
      exact monotone_const

/-- **A straight fall** is what a straight rise leaves to one, if its ends are in
order or near each other. -/
theorem linearZ_eq_one_sub (h : a < b ∨ Scalar.Near a b) (x : ℝ) :
    linearZ x a b = 1 - linearS x a b := by
  unfold linearZ linearS
  by_cases hab : a < b
  · have hcomplement : (b - x) / (b - a) = 1 - (x - a) / (b - a) := by
      rw [eq_sub_iff_add_eq, ← add_div, sub_add_sub_cancel, div_self (sub_pos.mpr hab).ne']
    rw [if_pos hab, if_pos hab, hcomplement, Real.clampUnit_one_sub]
  · have hnear := h.resolve_left hab
    rw [if_neg hab, if_neg hab, if_pos hnear, if_pos hnear]
    split
    · exact (sub_zero 1).symm
    · exact (sub_self 1).symm

/-- Otherwise there is no ramp at all. -/
theorem linear_eq_zero (h : ¬ (a < b ∨ Scalar.Near a b)) (x : ℝ) :
    linearS x a b = 0 ∧ linearZ x a b = 0 := by
  obtain ⟨hab, hnear⟩ := not_or.mp h
  unfold linearS linearZ
  rw [if_neg hab, if_neg hab, if_neg hnear, if_neg hnear]
  exact ⟨rfl, rfl⟩

/-- **A straight fall never rises.** -/
theorem antitone_linearZ (a b : ℝ) : Antitone fun x => linearZ x a b := by
  intro x y hxy
  by_cases h : a < b ∨ Scalar.Near a b
  · simp only [linearZ_eq_one_sub h]
    exact sub_le_sub_left (monotone_linearS a b hxy) 1
  · simp only [(linear_eq_zero h _).2, le_refl]

/-! ## Rises and falls -/

/-- **Rises rise, falls fall, and they complement each other**, for coefficients
in any order. A smooth rise and a smooth fall add up to one everywhere. So do a
straight rise and a straight fall if their ends are in order or near each other,
and nowhere if they are not. -/
theorem monotone_and_complementary (a b : ℝ) :
    (Monotone fun x => smoothS x a b) ∧ (Monotone fun x => linearS x a b) ∧
      (Antitone fun x => smoothZ x a b) ∧ (Antitone fun x => linearZ x a b) ∧
      (∀ x, smoothS x a b + smoothZ x a b = 1) ∧
      ∀ x, linearS x a b + linearZ x a b = 1 ↔ a < b ∨ Scalar.Near a b := by
  refine ⟨monotone_smoothS a b, monotone_linearS a b, ?_, antitone_linearZ a b, fun x => ?_,
    fun x => ?_⟩
  · intro x y hxy
    simp only [smoothZ_eq_one_sub]
    exact sub_le_sub_left (monotone_smoothS a b hxy) 1
  · rw [smoothZ_eq_one_sub, add_sub_cancel]
  · by_cases h : a < b ∨ Scalar.Near a b
    · rw [linearZ_eq_one_sub h, add_sub_cancel]
      exact iff_of_true rfl h
    · rw [(linear_eq_zero h x).1, (linear_eq_zero h x).2, add_zero]
      exact iff_of_false zero_ne_one h

end Curve

end FuzzyInference
