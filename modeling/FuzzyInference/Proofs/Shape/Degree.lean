import Mathlib.Analysis.SpecialFunctions.Pow.Real
import FuzzyInference.Proofs.Controller.Silent
import FuzzyInference.Proofs.Scalar.Number

/-!
# Conventional shapes give degrees

A conventional shape says to what degree a value has a term, and so its answers
should lie between zero and one. They do, with the exception of the constant
shape, which answers whatever it is given (`Shape.exists_eval?_isDegree`). The
coefficients may come in any order: a binding does not ask for breakpoints that
are sorted, nor for a width above zero, only for one that is not zero. Each curve
has its own reason not to care.

* A triangle and a trapezoid are cut to zero from below. From above a trapezoid is
  cut as well; a triangle needs no cut, because on either side of its peak one of
  the two lines is not above one.
* A bell and a sigmoid fall off from one, a normal curve and a spike are an
  exponential of something that is not above zero, and a wave is a shifted cosine.
* The parabolas of a smooth ramp are only looked at between its ends, and each of
  them on its own half, where it does not rise above one half.
* A bend is a quotient of a distance and a longer one.
* Everything else is a step, or has been saturated, or is made of two degrees.

A term that has been bound scales the answers of its shape with a height that
has been saturated, so its degrees lie between zero and its height
(`Controller.degrees_of_bindTerm`).
-/

namespace FuzzyInference

open Scalar.HasNumbers

variable {α : Type} [Scalar α] [Scalar.HasNumbers α]

namespace Curve

/-! ## Lines -/

/-- A rising line is not above one before its end. -/
theorem exists_rise_eq (x a b : ℝ) :
    ∃ y : ℝ, rise (number x : α) (number a) (number b) = number y ∧ (x ≤ b → y ≤ 1) := by
  unfold rise
  simp only [number_lt_iff, number_le_iff, number_sub]
  split
  · next hab =>
    have hspan : 0 < b - a := sub_pos.mpr hab
    exact ⟨_, number_div _ hspan.ne', fun hx => (div_le_one hspan).mpr (sub_le_sub_right hx a)⟩
  · split
    · exact ⟨1, number_one.symm, fun _ => le_rfl⟩
    · exact ⟨0, number_zero.symm, fun _ => zero_le_one⟩

/-- A falling line is not above one behind its beginning. -/
theorem exists_fall_eq (x c d : ℝ) :
    ∃ y : ℝ, fall (number x : α) (number c) (number d) = number y ∧ (c ≤ x → y ≤ 1) := by
  unfold fall
  simp only [number_lt_iff, number_le_iff, number_sub]
  split
  · next hcd =>
    have hspan : 0 < d - c := sub_pos.mpr hcd
    exact ⟨_, number_div _ hspan.ne', fun hx => (div_le_one hspan).mpr (sub_le_sub_left hx d)⟩
  · split
    · exact ⟨1, number_one.symm, fun _ => le_rfl⟩
    · exact ⟨0, number_zero.symm, fun _ => zero_le_one⟩

variable (x a b c d : ℝ)

/-- **A triangle.** Its peak lies on one side of the point or on the other, and
the line on that side is not above one. -/
theorem isDegree_triangular :
    Scalar.IsDegree (triangular (number x : α) (number a) (number b) (number c)) := by
  obtain ⟨y, hy, hrise⟩ := exists_rise_eq (α := α) x a b
  obtain ⟨z, hz, hfall⟩ := exists_fall_eq (α := α) x b c
  unfold triangular
  rw [hy, hz, Scalar.number_min, Real.scalar_min]
  refine Scalar.isDegree_max_zero ?_
  rcases le_total x b with h | h
  · exact inf_le_of_left_le (hrise h)
  · exact inf_le_of_right_le (hfall h)

theorem isDegree_trapezoidal :
    Scalar.IsDegree (trapezoidal (number x : α) (number a) (number b) (number c) (number d)) := by
  obtain ⟨y, hy, -⟩ := exists_rise_eq (α := α) x a b
  obtain ⟨z, hz, -⟩ := exists_fall_eq (α := α) x c d
  unfold trapezoidal
  rw [hy, hz, ← number_one, Scalar.number_min, Scalar.number_min, Real.scalar_min, Real.scalar_min]
  exact Scalar.isDegree_max_zero (inf_le_of_left_le inf_le_right)

/-- Straight ramps have been saturated, or are steps. -/
theorem isDegree_linear :
    Scalar.IsDegree (linearS (number x : α) (number a) (number b)) ∧
      Scalar.IsDegree (linearZ (number x : α) (number a) (number b)) := by
  unfold linearS linearZ
  simp only [number_lt_iff, number_sub]
  by_cases hab : a < b
  · have hspan : b - a ≠ 0 := (sub_pos.mpr hab).ne'
    simp only [if_pos hab, number_div _ hspan]
    exact ⟨Scalar.isDegree_clampUnit _, Scalar.isDegree_clampUnit _⟩
  · simp only [if_neg hab]
    exact ⟨.ite (.ite .zero .one) .zero, .ite (.ite .one .zero) .zero⟩

/-! ## Curves around a centre -/

variable {a b}

theorem isDegree_bell (ha : a ≠ 0) :
    Scalar.IsDegree (bell (number x : α) (number a) (number b) (number c)) := by
  unfold bell
  simp only [number_sub, number_div _ ha, number_abs, Scalar.number_two, number_mul]
  obtain ⟨z, hz, hnonneg⟩ := exists_pow_eq (α := α) (abs_nonneg ((x - c) / a)) (2 * b)
  rw [hz]
  exact Scalar.isDegree_one_div hnonneg

theorem isDegree_gaussian (ha : a ≠ 0) :
    Scalar.IsDegree (gaussian (number x : α) (number a) (number c)) := by
  unfold gaussian
  simp only [number_sub, number_div _ ha, Scalar.number_half (α := α), Real.scalar_half,
    number_neg, number_mul]
  refine Scalar.isDegree_exp ?_
  have hsquare := mul_self_nonneg ((x - c) / a)
  linarith

theorem isDegree_gaussianPair (ha : a ≠ 0) (hb : b ≠ 0) :
    Scalar.IsDegree
      (gaussianPair (number x : α) (number a) (number c) (number b) (number d)) :=
  .mul (.ite (isDegree_gaussian x c ha) .one) (.ite (isDegree_gaussian x d hb) .one)

variable (a b)

theorem isDegree_sigmoid : Scalar.IsDegree (sigmoid (number x : α) (number a) (number c)) := by
  unfold sigmoid
  simp only [number_sub, number_neg, number_mul]
  obtain ⟨y, hy, hpos, -⟩ := exists_exp_eq (α := α) (-a * (x - c))
  rw [hy]
  exact Scalar.isDegree_one_div hpos.le

theorem isDegree_sigmoidDifference :
    Scalar.IsDegree
      (sigmoidDifference (number x : α) (number a) (number b) (number c) (number d)) :=
  (isDegree_sigmoid x a b).abs_sub (isDegree_sigmoid x c d)

theorem isDegree_sigmoidProduct :
    Scalar.IsDegree
      (sigmoidProduct (number x : α) (number a) (number b) (number c) (number d)) :=
  ((isDegree_sigmoid x a b).mul (isDegree_sigmoid x c d)).abs

variable {a}

theorem isDegree_spike (ha : a ≠ 0) :
    Scalar.IsDegree (spike (number x : α) (number a) (number c)) := by
  unfold spike
  simp only [number_sub, Scalar.number_ten, number_mul, number_div _ ha, number_abs, number_neg]
  exact Scalar.isDegree_exp (neg_nonpos.mpr (abs_nonneg _))

theorem isDegree_cosine (ha : a ≠ 0) :
    Scalar.IsDegree (cosine (number x : α) (number c) (number a)) := by
  obtain ⟨y, hy⟩ := exists_pi_eq (α := α)
  unfold cosine
  simp only [hy, number_sub, Scalar.number_two, number_div _ ha, number_mul]
  exact .ite .zero (Scalar.isDegree_half_cos _)

/-! ## Bends and smooth ramps -/

variable (a)

/-- **A bend** compares its distance to the end with a distance from a point before
the end. -/
theorem isDegree_concave : Scalar.IsDegree (concave (number x : α) (number a) (number b)) := by
  unfold concave
  simp only [number_lt_iff, number_le_iff, Scalar.number_two, number_neg, number_mul, number_sub,
    number_add]
  split
  · next h => exact Scalar.isDegree_div (by linarith) (by linarith) (by linarith)
  · split
    · next h => exact Scalar.isDegree_div (by linarith) (by linarith) (by linarith)
    · exact .one

/-- A parabola in the middle half of its span. -/
theorem isDegree_parabola {u span : ℝ} (hspan : 0 < span) (hu : |u| ≤ 2⁻¹ * span) :
    Scalar.IsDegree (Scalar.two * number (u / span) * number (u / span) : α) := by
  have hhalf : |u / span| ≤ 2⁻¹ := by rwa [abs_div, abs_of_pos hspan, div_le_iff₀ hspan]
  have hsquare : u / span * (u / span) ≤ 2⁻¹ * 2⁻¹ := by
    rw [← abs_mul_abs_self]
    exact mul_self_le_mul_self (abs_nonneg _) hhalf
  have hnonneg := mul_self_nonneg (u / span)
  refine ⟨2 * (u / span) * (u / span), ⟨by linarith, by linarith⟩, ?_⟩
  rw [Scalar.number_two, number_mul, number_mul]

/-- **Smooth ramps** are level outside, and inside each parabola belongs to one
half. -/
theorem isDegree_smooth :
    Scalar.IsDegree (smoothS (number x : α) (number a) (number b)) ∧
      Scalar.IsDegree (smoothZ (number x : α) (number a) (number b)) := by
  unfold smoothS smoothZ
  simp only [number_le_iff, Scalar.number_half (α := α), Real.scalar_half, number_add,
    number_mul, number_sub]
  by_cases hax : x ≤ a
  · simp only [if_pos hax]
    exact ⟨.zero, .one⟩
  · by_cases hxb : b ≤ x
    · simp only [if_neg hax, if_pos hxb]
      exact ⟨.one, .zero⟩
    · have hspan : 0 < b - a := by linarith
      simp only [if_neg hax, if_neg hxb, number_div _ hspan.ne']
      by_cases hx : x ≤ 2⁻¹ * (a + b)
      · have hlower : Scalar.IsDegree (Scalar.two * number ((x - a) / (b - a))
            * number ((x - a) / (b - a)) : α) :=
          isDegree_parabola hspan (abs_le.mpr ⟨by linarith, by linarith⟩)
        simp only [if_pos hx]
        exact ⟨hlower, hlower.one_sub⟩
      · have hupper : Scalar.IsDegree (Scalar.two * number ((x - b) / (b - a))
            * number ((x - b) / (b - a)) : α) :=
          isDegree_parabola hspan (abs_le.mpr ⟨by linarith, by linarith⟩)
        simp only [if_neg hx]
        exact ⟨hupper.one_sub, hupper⟩

theorem isDegree_pi :
    Scalar.IsDegree (pi (number x : α) (number a) (number b) (number c) (number d)) :=
  ((isDegree_smooth x a b).1.mul (isDegree_smooth x c d).2).abs

end Curve

/-! ## All conventional shapes -/

namespace Shape

/-- **A conventional shape gives degrees**, the constant one apart, on any
coefficients that are enough of them and of which none is a width of zero. -/
theorem exists_eval?_isDegree {shape : Shape} (hpart : shape.part = .conventional)
    (hconstant : shape ≠ .constant) {inputs : Nat} {p : List ℝ}
    (hcount : shape.coefficientCount inputs ≤ p.length)
    (hwidth : shape.zeroWidth? (p.map (number : ℝ → α)) = some false) (x : ℝ) :
    ∃ y : α, shape.eval? (number x) (p.map number) = some y ∧ Scalar.IsDegree y := by
  match shape, p, hcount with
  | .constant, _, _ => exact absurd rfl hconstant
  | .combination, _, _ => cases hpart
  | .inverse _, _, _ => cases hpart
  | .triangular, a :: b :: c :: _, _ => exact ⟨_, rfl, Curve.isDegree_triangular x a b c⟩
  | .trapezoidal, a :: b :: c :: d :: _, _ =>
    exact ⟨_, rfl, Curve.isDegree_trapezoidal x a b c d⟩
  | .bell, a :: b :: c :: _, _ =>
    exact ⟨_, rfl, Curve.isDegree_bell x c (ne_zero_of_zeroWidth? hwidth)⟩
  | .gaussian, a :: c :: _, _ =>
    exact ⟨_, rfl, Curve.isDegree_gaussian x c (ne_zero_of_zeroWidth? hwidth)⟩
  | .gaussianPair, a :: c :: b :: d :: _, _ =>
    obtain ⟨ha, hb⟩ := not_or.mp (of_decide_eq_false (Option.some.inj hwidth))
    exact ⟨_, rfl, Curve.isDegree_gaussianPair x c d (Scalar.ne_zero_of_not_same ha)
      (Scalar.ne_zero_of_not_same hb)⟩
  | .sigmoid, a :: c :: _, _ => exact ⟨_, rfl, Curve.isDegree_sigmoid x a c⟩
  | .sigmoidDifference, a :: b :: c :: d :: _, _ =>
    exact ⟨_, rfl, Curve.isDegree_sigmoidDifference x a b c d⟩
  | .sigmoidProduct, a :: b :: c :: d :: _, _ =>
    exact ⟨_, rfl, Curve.isDegree_sigmoidProduct x a b c d⟩
  | .pi, a :: b :: c :: d :: _, _ => exact ⟨_, rfl, Curve.isDegree_pi x a b c d⟩
  | .smoothS, a :: b :: _, _ => exact ⟨_, rfl, (Curve.isDegree_smooth x a b).1⟩
  | .smoothZ, a :: b :: _, _ => exact ⟨_, rfl, (Curve.isDegree_smooth x a b).2⟩
  | .singleton, a :: _, _ => exact ⟨_, rfl, .ite .one .zero⟩
  | .concave, a :: b :: _, _ => exact ⟨_, rfl, Curve.isDegree_concave x a b⟩
  | .spike, a :: c :: _, _ =>
    exact ⟨_, rfl, Curve.isDegree_spike x c (ne_zero_of_zeroWidth? hwidth)⟩
  | .linearS, a :: b :: _, _ => exact ⟨_, rfl, (Curve.isDegree_linear x a b).1⟩
  | .linearZ, a :: b :: _, _ => exact ⟨_, rfl, (Curve.isDegree_linear x a b).2⟩
  | .rectangle, a :: b :: _, _ => exact ⟨_, rfl, .ite .one .zero⟩
  | .cosine, c :: a :: _, _ =>
    exact ⟨_, rfl, Curve.isDegree_cosine x c (ne_zero_of_zeroWidth? hwidth)⟩

end Shape

/-! ## Terms that have been bound -/

namespace Controller

variable {c d : Controller α} {b : Binding α} {shape : Shape}

/-- **A term that has been bound gives degrees up to its height**, if its shape is
conventional and is not the constant one, whatever the coefficients are that
have been accepted for it. Its shape answers every number with a degree, and the
term scales this with its height, which is a degree as well. -/
theorem degrees_of_bindTerm (h : c.bindTerm b = .ok d) (hprofile : b.profile = .builtin shape)
    (hpart : shape.part = .conventional) (hconstant : shape ≠ .constant) :
    ∃ (t : Term α) (height : ℝ), d.term? b.side b.slot = some t ∧ t = Binding.term b ∧
      t.height = number height ∧ IsDegree height ∧
      ∀ x : ℝ, ∃ y : ℝ, shape.eval? (number x) b.coefficients = some (number y) ∧ IsDegree y ∧
        ∀ lower upper, t.degree? (number x) lower upper = some (number (height * y)) ∧
          0 ≤ height * y ∧ height * y ≤ height := by
  obtain ⟨hcheck, rfl⟩ := bindTerm_eq_ok h
  have hb := admissible_of_checkBinding hcheck
  obtain ⟨p, hp⟩ := Scalar.exists_eq_map_number hb.coefficients_finite
  obtain ⟨finite, hfinite⟩ := exists_eq_number hb.height_finite
  obtain ⟨height, hdegree, hheight⟩ := Scalar.isDegree_clampUnit (α := α) finite
  refine ⟨Binding.term b, height, ?_, rfl, ?_, hdegree, fun x => ?_⟩
  · rw [term?_store, if_pos ⟨rfl, rfl, hb.slot_lt⟩]
  · rw [Binding.term, hfinite, hheight]
  · have hcount : shape.coefficientCount _ ≤ b.coefficients.length := hb.supplied shape hprofile
    have hwidth := hb.width shape hprofile
    rw [hp, List.length_map] at hcount
    rw [hp] at hwidth
    obtain ⟨-, heval, y, hy, rfl⟩ := Shape.exists_eval?_isDegree hpart hconstant hcount hwidth x
    rw [← hp] at heval
    refine ⟨y, heval, hy, fun lower upper => ⟨?_, mul_nonneg hdegree.1 hy.1, ?_⟩⟩
    · unfold Term.degree?
      simp only [Binding.term, hprofile, heval, Option.map_some, hfinite, hheight, number_mul]
    · exact mul_le_of_le_one_right hdegree.1 hy.2

/-- A bell with a width below zero and a height above one. -/
def backward : Binding Exact :=
  ⟨.input, 0, 0, .builtin .bell, [.number (-1), .number 1, .number 0], .number 9⟩

/-- The bell is accepted, and its degrees lie between zero and its saturated
height. -/
theorem degrees_of_bindTerm_backward :
    untold.bindTerm backward = .ok (untold.store backward) ∧
      ∃ (t : Term Exact) (height : ℝ), (untold.store backward).term? .input 0 = some t ∧
        t = Binding.term backward ∧ t.height = .number height ∧ IsDegree height ∧
        ∀ x : ℝ, ∃ y : ℝ, Shape.bell.eval? (.number x) backward.coefficients = some (.number y) ∧
          IsDegree y ∧ ∀ lower upper, t.degree? (.number x) lower upper
            = some (.number (height * y)) ∧ 0 ≤ height * y ∧ height * y ≤ height := by
  have hfinite (x : ℝ) : Scalar.IsFinite (Exact.number x) := Exact.isFinite_iff.mpr (le_refl x)
  have hwidth : ¬ Scalar.Same (Exact.number (-1)) 0 := fun hsame =>
    absurd (show (0 : ℝ) ≤ -1 from hsame.2) (by norm_num)
  have hbind : untold.bindTerm backward = .ok (untold.store backward) :=
    bindTerm_of_admissible ⟨Nat.one_pos, Nat.one_pos, rfl,
      fun shape h => by cases h; exact Nat.le_refl 3, hfinite 9,
      List.forall_mem_cons.mpr ⟨hfinite (-1), List.forall_mem_cons.mpr
        ⟨hfinite 1, List.forall_mem_singleton.mpr (hfinite 0)⟩⟩,
      fun shape h => by cases h; exact congrArg some (decide_eq_false hwidth)⟩
  exact ⟨hbind, degrees_of_bindTerm hbind rfl rfl nofun⟩

end Controller

end FuzzyInference
