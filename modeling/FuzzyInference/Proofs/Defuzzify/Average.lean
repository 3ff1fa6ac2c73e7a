import FuzzyInference.Proofs.Defuzzify.Points

/-!
# Averages

A weighted sum and the sum of the weights are gathered side by side, and one is
divided by the other only at the end. So what is kept on the way is a statement
about the two sums, without a quotient: the weighted sum is at least a bound times
the weight and at most another (`AveragesIn`). Values between the two bounds keep
it, and so does what has no weight, whatever its value. As soon as there is any
weight, the quotient lies between the bounds (`AveragesIn.div_mem`).

The centre of gravity is such an average. The samples of a curve are the weights
of their points, and so it lies on the support of the curve
(`Samples.centroid_mem`).
-/

namespace FuzzyInference

/-- **Sums that average between two bounds.** -/
structure AveragesIn (lower upper weighted weight : ℝ) : Prop where
  /-- The average is not below the lower bound. -/
  lower_mul_le : lower * weight ≤ weighted
  /-- Nor is it above the upper bound. -/
  le_upper_mul : weighted ≤ upper * weight

namespace AveragesIn

variable {lower upper : ℝ}

/-- Nothing has been gathered. -/
theorem zero : AveragesIn lower upper 0 0 := ⟨(mul_zero lower).le, (mul_zero upper).ge⟩

/-- **One more value** with its weight, which lies between the bounds unless it has no
weight. -/
theorem add_mul {weighted weight value w : ℝ} (h : AveragesIn lower upper weighted weight)
    (hw : 0 ≤ w) (hvalue : 0 < w → value ∈ Set.Icc lower upper) :
    AveragesIn lower upper (weighted + value * w) (weight + w) := by
  rcases hw.eq_or_lt with rfl | hpos
  · rw [mul_zero, add_zero, add_zero]
    exact h
  · obtain ⟨hlower, hupper⟩ := hvalue hpos
    constructor
    · rw [mul_add]
      exact add_le_add h.lower_mul_le (mul_le_mul_of_nonneg_right hlower hw)
    · rw [mul_add]
      exact add_le_add h.le_upper_mul (mul_le_mul_of_nonneg_right hupper hw)

/-- **The average** lies between the bounds. -/
theorem div_mem {weighted weight : ℝ} (h : AveragesIn lower upper weighted weight)
    (hweight : 0 < weight) : weighted / weight ∈ Set.Icc lower upper :=
  ⟨(le_div_iff₀ hweight).mpr h.lower_mul_le, (div_le_iff₀ hweight).mpr h.le_upper_mul⟩

end AveragesIn

namespace Samples

variable {s : Samples ℝ}

/-- **The centre of gravity** of a curve that has an area and is not below zero lies
between any two points that have the support between them. -/
theorem centroid_mem (hnonneg : ∀ y ∈ s.ys, 0 ≤ y) (harea : 0 < s.area) (hstep : 0 ≤ s.step)
    {lo hi : Nat} (hlo : ∀ k, s.IsActive k → lo ≤ k) (hhi : ∀ k, s.IsActive k → k ≤ hi) :
    s.centroid ∈ Set.Icc (s.x lo) (s.x hi) := by
  have hmoments : AveragesIn (s.x lo) (s.x hi) s.moments.1 s.moments.2 := by
    refine s.foldl_points_induction (P := fun _ (b : ℝ × ℝ) =>
      AveragesIn (s.x lo) (s.x hi) b.1 b.2) .zero fun front y rest b hys hb => ?_
    have hy : s.ys[front.length]? = some y := by simp [hys]
    refine hb.add_mul (hnonneg y (List.mem_of_getElem? hy)) fun hpos => ?_
    have hactive : s.IsActive front.length := ⟨y, hy, hpos⟩
    exact ⟨x_le_x hstep (hlo _ hactive), x_le_x hstep (hhi _ hactive)⟩
  have hmass : 0 < s.moments.2 := by
    rw [moments_snd]
    exact harea
  rw [centroid_eq, if_pos hmass]
  exact hmoments.div_mem hmass

end Samples

end FuzzyInference
