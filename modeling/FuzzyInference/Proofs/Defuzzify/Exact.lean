import FuzzyInference.Defuzzify.Method
import FuzzyInference.Proofs.Defuzzify.Points
import FuzzyInference.Proofs.Scalar.Exact

/-!
# Exact curves

A curve over the real numbers can be read as one over the exact scalars
(`Samples.exact`), where what should have no answer has none. If it has an area,
then each method that reads a curve finds the same point in both readings
(`Defuzzifier.ofSamples?_exact`): the passes over the points commute with the
reading, step by step, and no quotient is formed with the divisor zero. A curve
that is zero everywhere has no point, by any method
(`Defuzzifier.ofSamples?_of_zero`).
-/

namespace FuzzyInference

open Exact (number notANumber)

/-! ## Curves that are zero -/

namespace Samples

section Zero

variable {s : Samples Exact}

/-- A curve that is zero has no area. -/
theorem area_of_zero (h : ∀ y ∈ s.ys, y = 0) : s.area = 0 := by
  refine List.foldlRecOn (motive := (· = 0)) s.ys _ rfl fun x hx y hy => ?_
  rw [hx, h y hy]
  exact congrArg number (add_zero 0)

theorem isFlat_of_zero (h : ∀ y ∈ s.ys, y = 0) : s.IsFlat := by
  show s.area ≤ 0
  rw [area_of_zero h]
  exact le_refl (0 : ℝ)

/-- The centre of gravity looks at the mass. -/
theorem centroid_of_zero (h : ∀ y ∈ s.ys, y = 0) : s.centroid = notANumber := by
  rw [centroid_eq, moments_snd, area_of_zero h]
  exact if_neg (lt_irrefl (0 : ℝ))

end Zero

end Samples

/-- **A curve that is zero has no crisp value**, by any method. -/
theorem Defuzzifier.ofSamples?_of_zero (d : Defuzzifier) {s : Samples Exact}
    (h : ∀ y ∈ s.ys, y = 0) : d.ofSamples? s = some notANumber := by
  have hflat := Samples.isFlat_of_zero h
  cases d with
  | centroid => exact congrArg some (Samples.centroid_of_zero h)
  | bisector => exact if_pos (.inr hflat)
  | middleOfMaximum => exact congrArg some (if_pos hflat)
  | largestOfMaximum => exact congrArg some (if_pos hflat)
  | smallestOfMaximum => exact congrArg some (if_pos hflat)
  | weightedAverage => rfl
  | weightedSum => rfl

/-! ## Curves of numbers -/

namespace Samples

/-- **A curve over the real numbers**, read over the exact scalars. -/
def exact (s : Samples ℝ) : Samples Exact := ⟨s.ys.map number, number s.x0, number s.step⟩

/-- The same of a point with its sample. -/
def exactPoint (p : ℝ × ℝ) : Exact × Exact := (number p.1, number p.2)

variable (s : Samples ℝ)

/-- **The points** are the same. -/
theorem points_exact : s.exact.points = s.points.map exactPoint := by
  show ((s.ys.map number).zipIdx.map fun (y, k) => (s.exact.x k, y)) = _
  rw [List.zipIdx_map, List.map_map, points, List.map_map]
  rfl

/-- **A pass over the points** finds the same when each step of it does. -/
theorem foldl_points_exact {β γ : Type} {f : β → ℝ × ℝ → β} {g : γ → Exact × Exact → γ}
    (read : β → γ) (hstep : ∀ b p, g (read b) (exactPoint p) = read (f b p)) (b : β) :
    s.exact.points.foldl g (read b) = read (s.points.foldl f b) := by
  rw [points_exact, List.foldl_map]
  exact List.foldl_hom read hstep

/-- **The area** is the same. -/
theorem area_exact : s.exact.area = number s.area := by
  show (s.ys.map number).foldl (· + ·) (number 0) = _
  rw [List.foldl_map]
  exact List.foldl_hom number fun _ _ => rfl

theorem isFlat_exact : s.exact.IsFlat ↔ s.IsFlat := by
  show s.exact.area ≤ number 0 ↔ _
  rw [area_exact]
  exact Exact.number_le_iff _ _

theorem not_isFlat_exact {s : Samples ℝ} (harea : 0 < s.area) : ¬ s.exact.IsFlat :=
  s.isFlat_exact.not.mpr (not_le_of_gt harea)

/-- **The centre of gravity** of a curve that has an area is the same. -/
theorem centroid_exact {s : Samples ℝ} (harea : 0 < s.area) :
    s.exact.centroid = number s.centroid := by
  have hmoments : s.exact.moments = exactPoint s.moments :=
    s.foldl_points_exact exactPoint (fun _ _ => rfl) (0, 0)
  have hmass : 0 < s.moments.2 := by
    rw [moments_snd]
    exact harea
  rw [centroid_eq, centroid_eq, hmoments, if_pos hmass]
  exact (if_pos hmass).trans (Exact.number_div _ hmass.ne')

/-! ### The line that halves the area -/

/-- Where two sweeps meet, read over the exact scalars. -/
def Balance.exact (b : Balance ℝ) : Balance Exact :=
  ⟨b.index, number b.value, number b.before, number b.behind⟩

/-- **Two sweeps** meet at the same place. -/
theorem sweep_exact (gap index : Nat) (before behind : ℝ) (front back : List ℝ) :
    sweep gap index (number before) (number behind) (front.map number) (back.map number)
      = (sweep gap index before behind front back).map Balance.exact := by
  fun_induction sweep gap index before behind front back with
  | case1 => rfl
  | case2 index before behind gap a front b back hle ih =>
    exact (if_pos (show number (before + a) ≤ number (behind + b) from hle)).trans ih
  | case3 index before behind gap a front b back hnot ih =>
    exact (if_neg (show ¬ number (before + a) ≤ number (behind + b) from hnot)).trans ih
  | case4 gap index before behind front back hzero hsucc =>
    cases gap with
    | zero =>
      cases front with
      | nil => rfl
      | cons y front => exact (hzero y front rfl rfl).elim
    | succ gap =>
      cases front with
      | nil => rfl
      | cons a front =>
        cases back with
        | nil => rfl
        | cons b back => exact (hsucc gap a front b back rfl rfl rfl).elim

/-- **The point within a sample** is the same: for a sample that is zero no quotient is
formed. -/
theorem halfway_exact (b : Balance ℝ) : s.exact.halfway b.exact = number (s.halfway b) := by
  have hoffset : (if 0 < b.exact.value then Scalar.clamp (-Scalar.half) Scalar.half
        ((b.exact.behind - b.exact.before) / (Scalar.two * b.exact.value)) else 0)
      = number (if 0 < b.value then Scalar.clamp (-Scalar.half) Scalar.half
        ((b.behind - b.before) / (Scalar.two * b.value)) else 0) := by
    by_cases hpos : 0 < b.value
    · have hdivisor : (Scalar.two : ℝ) * b.value ≠ 0 := by
        rw [Real.scalar_two]
        exact (mul_pos two_pos hpos).ne'
      have hquotient : (b.exact.behind - b.exact.before) / (Scalar.two * b.exact.value)
          = number ((b.behind - b.before) / (Scalar.two * b.value)) :=
        Exact.number_div _ hdivisor
      rw [if_pos hpos, hquotient, Exact.number_half]
      exact (if_pos hpos).trans (Exact.number_clamp _ _ _)
    · rw [if_neg hpos]
      exact if_neg hpos
  exact congrArg (fun offset => s.exact.x b.index + s.exact.step * offset) hoffset

/-- **The point that halves the area** of a curve that has one is the same. -/
theorem bisector?_exact {s : Samples ℝ} (harea : 0 < s.area) :
    s.exact.bisector? = s.bisector?.map number := by
  have hne := ys_ne_nil harea
  have hcurve : ¬ (s.ys = [] ∨ s.IsFlat) := not_or.mpr ⟨hne, not_le_of_gt harea⟩
  have hexact : ¬ (s.exact.ys = [] ∨ s.exact.IsFlat) :=
    not_or.mpr ⟨List.map_eq_nil_iff.not.mpr hne, not_isFlat_exact harea⟩
  have hsweep := sweep_exact (s.ys.length - 1) 0 0 0 s.ys s.ys.reverse
  rw [bisector?, bisector?, if_neg hcurve, if_neg hexact, Option.map_map]
  rw [List.map_reverse, ← List.length_map number] at hsweep
  refine (congrArg (Option.map s.exact.halfway) hsweep).trans ?_
  rw [Option.map_map, List.length_map]
  exact congrArg (Option.map · _) (funext s.halfway_exact)

/-! ### Where a curve is highest -/

section Highest

variable {s}

/-- **A pass in search of the top** finds the same point when the relation by which a
sample takes over is the same. -/
theorem top_exact {r : ℝ → ℝ → Prop} {q : Exact → Exact → Prop} [DecidableRel r] [DecidableRel q]
    (hrelation : ∀ x y, q (number x) (number y) ↔ r x y) :
    (s.exact.points.foldl (fun (top, best) (x, y) => if q top y then (y, x) else (top, best))
        (underneath, s.exact.x 0)).2
      = number (s.points.foldl (fun (top, best) (x, y) => if r top y then (y, x) else (top, best))
          (underneath, s.x 0)).2 := by
  have hpass := s.foldl_points_exact (f := fun b p => if r b.1 p.2 then (p.2, p.1) else (b.1, b.2))
    (g := fun b p => if q b.1 p.2 then (p.2, p.1) else (b.1, b.2)) exactPoint ?_
    (underneath, s.x 0)
  · exact congrArg Prod.snd hpass
  · intro b p
    rw [apply_ite exactPoint]
    exact if_congr (hrelation b.1 p.2) rfl rfl

/-- **The last point at the top** is the same. -/
theorem largestOfMaximum_exact (harea : 0 < s.area) :
    s.exact.largestOfMaximum = number s.largestOfMaximum := by
  rw [largestOfMaximum, largestOfMaximum, if_neg (not_le_of_gt harea),
    if_neg (not_isFlat_exact harea)]
  exact top_exact fun _ _ => Iff.rfl

/-- **The first point at the top** is the same. -/
theorem smallestOfMaximum_exact (harea : 0 < s.area) :
    s.exact.smallestOfMaximum = number s.smallestOfMaximum := by
  rw [smallestOfMaximum, smallestOfMaximum, if_neg (not_le_of_gt harea),
    if_neg (not_isFlat_exact harea)]
  exact top_exact fun _ _ => Iff.rfl

theorem near_exact {x y : ℝ} : Scalar.Near (number x) (number y) ↔ Scalar.Near x y := by
  show Scalar.abs (number (x - y)) ≤ number Scalar.epsilon
    * Scalar.max (Scalar.max (number (Scalar.abs x)) (number (Scalar.abs y))) (number 1) ↔ _
  rw [Exact.number_max, Exact.number_max]
  exact Iff.rfl

/-- A plateau, read over the exact scalars. -/
def Plateau.exact (p : Plateau ℝ) : Plateau Exact :=
  ⟨number p.top, number p.first, number p.last, p.ongoing⟩

/-- **One more sample** leads to the same plateau. -/
theorem Plateau.extend_exact (p : Plateau ℝ) (x y : ℝ) :
    p.exact.extend (number x) (number y) = (p.extend x y).exact := by
  have htop : p.exact.top < number y ↔ p.top < y := Iff.rfl
  have hnear : Scalar.Near (number y) p.exact.top ↔ Scalar.Near y p.top := near_exact
  unfold Plateau.extend
  simp only [htop, hnear, apply_ite Plateau.exact]
  rfl

/-- **The middle of the first stretch at the top** is the same. -/
theorem middleOfMaximum_exact (harea : 0 < s.area) :
    s.exact.middleOfMaximum = number s.middleOfMaximum := by
  have hplateau : s.exact.plateau = s.plateau.exact :=
    s.foldl_points_exact Plateau.exact (fun p q => p.extend_exact q.1 q.2)
      ⟨underneath, s.x 0, s.x 0, false⟩
  rw [middleOfMaximum, middleOfMaximum, if_neg (not_le_of_gt harea),
    if_neg (not_isFlat_exact harea), hplateau, Exact.number_half]
  rfl

end Highest

end Samples

/-- **The crisp value of a curve that has an area** is the same number, by any method
that reads a curve. -/
theorem Defuzzifier.ofSamples?_exact {d : Defuzzifier} (hd : d.isSampled = true) {s : Samples ℝ}
    (harea : 0 < s.area) : d.ofSamples? s.exact = (d.ofSamples? s).map number := by
  cases d with
  | centroid => exact congrArg some (Samples.centroid_exact harea)
  | bisector => exact Samples.bisector?_exact harea
  | middleOfMaximum => exact congrArg some (Samples.middleOfMaximum_exact harea)
  | largestOfMaximum => exact congrArg some (Samples.largestOfMaximum_exact harea)
  | smallestOfMaximum => exact congrArg some (Samples.smallestOfMaximum_exact harea)
  | weightedAverage => cases hd
  | weightedSum => cases hd

end FuzzyInference
