import Mathlib.Analysis.SpecialFunctions.Pow.Real
import FuzzyInference.Proofs.Norm.Exact
import FuzzyInference.Shape.Eval

/-!
# Ramps read backwards

The inverse of a ramp answers with a point that has a given degree. In exact
arithmetic the degree of that point is the one that was asked for
(`Ramp.direct_eval?_inverse?`), wherever the ramp is one: its ends have to lie
apart, or its slope must not be zero.

For a straight line, a bend and a sigmoid this is algebra. A smooth rise
consists of two parabolas, and its inverse solves both of them. Each candidate
has the degree on its own half of the rise only, the lower one up to one half
and the upper one beyond, and then it is the one that is chosen
(`Curve.curve_nearer`), since nothing comes closer to a degree than the degree
itself. A smooth fall is what a smooth rise leaves to one
(`Curve.smoothZ_eq_one_sub`), and its inverse is that of the rise at the
complement of the degree.
-/

namespace FuzzyInference

namespace Curve

variable {a b w x : ℝ}

/-! ## Straight lines and bends -/

theorem linearS_linearSInverse (hab : a < b) (hw : IsDegree w) :
    linearS (linearSInverse w a b) a b = w := by
  have hspan : b - a ≠ 0 := (sub_pos.mpr hab).ne'
  have hquotient : (a + (b - a) * w - a) / (b - a) = w := by
    rw [add_sub_cancel_left, mul_div_cancel_left₀ w hspan]
  unfold linearS linearSInverse
  rw [if_pos hab, hquotient, Real.clampUnit_of_isDegree hw]

theorem linearZ_linearZInverse (hab : a < b) (hw : IsDegree w) :
    linearZ (linearZInverse w a b) a b = w := by
  have hspan : b - a ≠ 0 := (sub_pos.mpr hab).ne'
  have hquotient : (b - (b - (b - a) * w)) / (b - a) = w := by
    rw [sub_sub_cancel, mul_div_cancel_left₀ w hspan]
  unfold linearZ linearZInverse
  rw [if_pos hab, hquotient, Real.clampUnit_of_isDegree hw]

/-- **A bend** reaches every degree below one on its own side of the end,
whichever side that is. -/
theorem concave_concaveInverse {i e : ℝ} (hne : i ≠ e) (hw : 0 < w) (hw' : w < 1) :
    concave (concaveInverse w i e) i e = w := by
  have hx : concaveInverse w i e = (i - e) / w + 2 * e - i := by
    unfold concaveInverse
    rw [Real.scalar_two]
  have hne' : i - e ≠ 0 := sub_ne_zero.mpr hne
  unfold concave
  rw [hx, Real.scalar_two]
  rcases lt_or_gt_of_ne hne with h | h
  · -- the bend rises, and the point lies before its end
    have hbefore : (i - e) / w < i - e := by
      rw [div_lt_iff₀ hw]
      nlinarith
    have hlt : (i - e) / w + 2 * e - i < e := by linarith
    rw [if_pos ⟨h.le, hlt⟩]
    have hdivisor : 2 * e - i - ((i - e) / w + 2 * e - i) = -(i - e) / w := by ring
    rw [hdivisor, ← neg_sub i e, div_div_cancel₀ (neg_ne_zero.mpr hne')]
  · -- the bend falls, and the point lies behind its end
    have hbehind : i - e < (i - e) / w := by
      rw [lt_div_iff₀ hw]
      nlinarith
    have hlt : e < (i - e) / w + 2 * e - i := by linarith
    rw [if_neg fun hrise => absurd hrise.1 (not_le_of_gt h), if_pos ⟨h, hlt⟩]
    have hdivisor : -2 * e + i + ((i - e) / w + 2 * e - i) = (i - e) / w := by ring
    rw [hdivisor, div_div_cancel₀ hne']

/-! ## Sigmoids -/

/-- **A sigmoid** that is not level reaches every degree strictly between zero
and one, and its inverse finds the point unless the degree is next to either. -/
theorem sigmoid_sigmoidInverse {c lower upper : ℝ} (ha : a ≠ 0) (hw : 0 < w) (hw' : w < 1)
    (hzero : ¬ Scalar.Near w 0) (hone : ¬ Scalar.Near w 1) :
    sigmoid (sigmoidInverse w lower upper a c) a c = w := by
  have hodds : 0 < 1 / w - 1 := by
    rw [sub_pos, lt_div_iff₀ hw, one_mul]
    exact hw'
  have hexponent : -a * (c - Real.log (1 / w - 1) / a - c) = Real.log (1 / w - 1) := by
    field_simp
    ring
  unfold sigmoidInverse sigmoid
  rw [if_neg hone, if_neg hzero]
  show 1 / (1 + Real.exp (-a * (c - Real.log (1 / w - 1) / a - c))) = w
  rw [hexponent, Real.exp_log hodds, add_sub_cancel, one_div_one_div]

/-! ## Smooth rises and falls -/

/-- The lower half of a smooth rise. -/
theorem smoothS_lower (hab : a < b) {t : ℝ} (ht : 0 < t) (ht' : t ≤ 2⁻¹) :
    smoothS (a + (b - a) * t) a b = 2 * t ^ 2 := by
  have hspan : 0 < b - a := sub_pos.mpr hab
  have habove : ¬ a + (b - a) * t ≤ a := by
    have := mul_pos hspan ht
    linarith
  have hbelow : ¬ b ≤ a + (b - a) * t := by
    have := mul_le_mul_of_nonneg_left ht' hspan.le
    linarith
  have hhalf : a + (b - a) * t ≤ 2⁻¹ * (a + b) := by
    have := mul_le_mul_of_nonneg_left ht' hspan.le
    linarith
  have hquotient : (a + (b - a) * t - a) / (b - a) = t := by
    rw [add_sub_cancel_left, mul_div_cancel_left₀ t hspan.ne']
  unfold smoothS
  simp only [Real.scalar_half, Real.scalar_two, if_neg habove, if_neg hbelow, if_pos hhalf,
    hquotient]
  ring

/-- The upper half of a smooth rise. -/
theorem smoothS_upper (hab : a < b) {t : ℝ} (ht : 0 < t) (ht' : t < 2⁻¹) :
    smoothS (b - (b - a) * t) a b = 1 - 2 * t ^ 2 := by
  have hspan : 0 < b - a := sub_pos.mpr hab
  have habove : ¬ b - (b - a) * t ≤ a := by
    have := mul_lt_mul_of_pos_left ht' hspan
    linarith
  have hbelow : ¬ b ≤ b - (b - a) * t := by
    have := mul_pos hspan ht
    linarith
  have hhalf : ¬ b - (b - a) * t ≤ 2⁻¹ * (a + b) := by
    have := mul_lt_mul_of_pos_left ht' hspan
    linarith
  have hquotient : (b - (b - a) * t - b) / (b - a) = -t := by
    rw [sub_sub_cancel_left, neg_div, mul_div_cancel_left₀ t hspan.ne']
  unfold smoothS
  simp only [Real.scalar_half, Real.scalar_two, if_neg habove, if_neg hbelow, if_neg hhalf,
    hquotient]
  ring

/-- **Of two candidates one of which has the degree** one that has it is
chosen. -/
theorem curve_nearer (curve : ℝ → ℝ) {lower upper : ℝ}
    (h : curve lower = w ∨ curve upper = w) : curve (nearer w lower upper curve) = w := by
  have habs (z : ℝ) : Scalar.abs z = |z| := rfl
  unfold nearer
  rw [habs, habs]
  split
  · next hcloser =>
    rcases h with h | h
    · exact h
    · -- nothing is closer than the upper candidate
      rw [h, sub_self, abs_zero] at hcloser
      exact absurd hcloser (not_lt_of_ge (abs_nonneg _))
  · next hfarther =>
    rcases h with h | h
    · -- the upper candidate is as close as the lower one
      rw [h, sub_self, abs_zero] at hfarther
      exact (sub_eq_zero.mp (abs_nonpos_iff.mp (le_of_not_gt hfarther))).symm
    · exact h

/-- The distance of a candidate from its end of the rise. -/
theorem sqrt_mul_span (hab : a < b) (d : ℝ) :
    Real.sqrt (d * (2⁻¹ * (b - a) * (b - a))) = (b - a) * Real.sqrt (d / 2) := by
  have hsquare : d * (2⁻¹ * (b - a) * (b - a)) = (b - a) ^ 2 * (d / 2) := by ring
  rw [hsquare, Real.sqrt_mul (sq_nonneg _), Real.sqrt_sq (sub_pos.mpr hab).le]

theorem two_mul_sqrt_half_sq {d : ℝ} (hd : 0 ≤ d) : 2 * Real.sqrt (d / 2) ^ 2 = d := by
  rw [Real.sq_sqrt (by linarith), mul_div_cancel₀ d two_ne_zero]

/-- **A smooth rise** has the degree at the candidate of the half where it
reaches that degree. -/
theorem smoothS_smoothSInverse (hab : a < b) (hw : 0 < w) (hw' : w < 1) :
    smoothS (smoothSInverse w a b) a b = w := by
  have hroot (d : ℝ) (hd : 0 < d) : 0 < Real.sqrt (d / 2) := Real.sqrt_pos.mpr (half_pos hd)
  have hcomplement : 0 < 1 - w := sub_pos.mpr hw'
  have hcandidates : smoothSInverse w a b = nearer w (a + (b - a) * Real.sqrt (w / 2))
      (b - (b - a) * Real.sqrt ((1 - w) / 2)) fun t => smoothS t a b := by
    rw [← sqrt_mul_span hab, ← sqrt_mul_span hab, ← Real.scalar_half]
    rfl
  rw [hcandidates]
  refine curve_nearer (fun t => smoothS t a b) ?_
  rcases le_or_gt w 2⁻¹ with h | h
  · refine .inl ((smoothS_lower hab (hroot w hw) ?_).trans (two_mul_sqrt_half_sq hw.le))
    rw [Real.sqrt_le_left (by norm_num)]
    linarith
  · refine .inr ((smoothS_upper hab (hroot _ hcomplement) ?_).trans ?_)
    · rw [Real.sqrt_lt' (by norm_num)]
      linarith
    · rw [two_mul_sqrt_half_sq hcomplement.le, sub_sub_cancel]

/-- **A smooth fall** is what a smooth rise leaves to one. -/
theorem smoothZ_eq_one_sub (x a b : ℝ) : smoothZ x a b = 1 - smoothS x a b := by
  unfold smoothZ smoothS
  split
  · exact (sub_zero 1).symm
  · split
    · exact (sub_self 1).symm
    · split
      · rfl
      · exact (sub_sub_cancel _ _).symm

/-- Its inverse is that of the rise, at the complement. -/
theorem smoothZInverse_eq (w a b : ℝ) : smoothZInverse w a b = smoothSInverse (1 - w) a b := by
  have hdistance (t : ℝ) : Scalar.abs (w - smoothZ t a b)
      = Scalar.abs (1 - w - smoothS t a b) := by
    rw [smoothZ_eq_one_sub]
    show |_| = |_|
    rw [← abs_neg]
    ring_nf
  unfold smoothZInverse smoothSInverse nearer
  simp only [hdistance, sub_sub_cancel]

theorem smoothZ_smoothZInverse (hab : a < b) (hw : 0 < w) (hw' : w < 1) :
    smoothZ (smoothZInverse w a b) a b = w := by
  rw [smoothZ_eq_one_sub, smoothZInverse_eq,
    smoothS_smoothSInverse hab (sub_pos.mpr hw') (sub_lt_self 1 hw), sub_sub_cancel]

end Curve

/-! ## All ramps -/

/-- **Whether a ramp can be read backwards** at a degree: its ends lie apart, in
the order the ramp asks for, or it is a sigmoid with a slope and the degree is
next to neither zero nor one. -/
def Ramp.Invertible (ramp : Ramp) (degree a b : ℝ) : Prop :=
  match ramp with
  | .linearS | .linearZ | .smoothS | .smoothZ => a < b
  | .concave => a ≠ b
  | .sigmoid => a ≠ 0 ∧ ¬ Scalar.Near degree 0 ∧ ¬ Scalar.Near degree 1

/-- **The inverse of a ramp is one.** At every degree strictly between zero and
one the inverse answers with a point, and on the shape that it is the inverse
of, with the same coefficients, that point has the degree. -/
theorem Ramp.direct_eval?_inverse? (ramp : Ramp) {degree a b : ℝ} (hpos : 0 < degree)
    (hlt : degree < 1) (h : ramp.Invertible degree a b) (lower upper : ℝ) (rest : List ℝ) :
    ∃ x, (Shape.inverse ramp).inverse? degree lower upper (a :: b :: rest) = some x ∧
      ramp.direct.eval? x (a :: b :: rest) = some degree := by
  refine ⟨ramp.preimage lower upper a b degree, rfl, ?_⟩
  have hdegree : IsDegree degree := ⟨hpos.le, hlt.le⟩
  cases ramp with
  | linearS => exact congrArg some (Curve.linearS_linearSInverse h hdegree)
  | linearZ => exact congrArg some (Curve.linearZ_linearZInverse h hdegree)
  | concave => exact congrArg some (Curve.concave_concaveInverse h hpos hlt)
  | sigmoid =>
    obtain ⟨hslope, hzero, hone⟩ := h
    exact congrArg some (Curve.sigmoid_sigmoidInverse hslope hpos hlt hzero hone)
  | smoothS => exact congrArg some (Curve.smoothS_smoothSInverse h hpos hlt)
  | smoothZ => exact congrArg some (Curve.smoothZ_smoothZInverse h hpos hlt)

/-- A falling sigmoid, a quarter of the way up. -/
theorem Ramp.direct_eval?_inverse?_falling :
    Ramp.sigmoid.Invertible 4⁻¹ (-2) 5 ∧
      ∃ x, (Shape.inverse .sigmoid).inverse? 4⁻¹ 0 10 [-2, 5] = some x ∧
        Shape.sigmoid.eval? x [-2, 5] = some (4⁻¹ : ℝ) := by
  have hinvertible : Ramp.sigmoid.Invertible 4⁻¹ (-2) 5 := by
    refine ⟨by norm_num, ?_, ?_⟩
    · rw [Real.near_iff]
      norm_num
    · rw [Real.near_iff]
      norm_num
  exact ⟨hinvertible, Ramp.direct_eval?_inverse? .sigmoid (by norm_num) (by norm_num) hinvertible
    0 10 []⟩

end FuzzyInference
