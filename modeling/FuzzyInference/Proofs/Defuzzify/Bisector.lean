import Mathlib.MeasureTheory.Measure.Lebesgue.Basic
import Mathlib.MeasureTheory.Measure.Real
import FuzzyInference.Defuzzify.Samples
import FuzzyInference.Proofs.Scalar.Real

/-!
# The line that halves the area

Read every sample as a bar, as high as its value and one step wide, with its
point in the middle. The bisector of a curve that has an area is the point where
the area before it equals the area behind it, in exact arithmetic
(`Samples.bisector?_halves`).

Two sweeps look for the sample in which that point lies. At any time some samples
have been gathered by the left one, some by the right one, and the others lie
between, those under the two sweeps included. A sweep moves on only if the area
it then has is at most what the other would have, so the area on either side never
exceeds that on the other by more than the next sample there. This is what one
move preserves. When the sweeps have met there is one sample left, it bounds the
difference in both directions, and the point that makes up for the difference lies
inside of its bar.
-/

namespace FuzzyInference

namespace Samples

open MeasureTheory

/-! ## The two sweeps -/

/-- **The sweeps are even**: what has been gathered on one side exceeds what has
been gathered on the other by the next sample there, at most. -/
structure IsEven (left middle right : List ℝ) : Prop where
  /-- The left sweep has not gone too far. -/
  left_le : ∀ z ∈ middle.getLast?, left.sum ≤ right.sum + z
  /-- The right sweep has not gone too far. -/
  right_le : ∀ y ∈ middle.head?, right.sum ≤ left.sum + y

variable {left middle right : List ℝ} {y z m : ℝ}

/-- Sweeps that have gathered nothing are even. -/
theorem isEven_nil (hnonneg : ∀ y ∈ middle, 0 ≤ y) : IsEven [] middle [] where
  left_le z hz := by
    rw [List.sum_nil, zero_add]
    exact hnonneg z (List.mem_of_getLast? hz)
  right_le y hy := by
    rw [List.sum_nil, zero_add]
    exact hnonneg y (List.mem_of_head? hy)

/-- **The left sweep moves on.** -/
theorem IsEven.move_left (h : IsEven left (y :: (middle ++ [z])) right)
    (hnonneg : ∀ y ∈ middle ++ [z], 0 ≤ y) (hle : left.sum + y ≤ right.sum + z) :
    IsEven (left ++ [y]) (middle ++ [z]) right := by
  have hsum : (left ++ [y]).sum = left.sum + y := by simp
  constructor
  · intro z' hz'
    rw [List.getLast?_concat, Option.mem_some_iff] at hz'
    rw [hsum, ← hz']
    exact hle
  · intro y' hy'
    have hright : right.sum ≤ left.sum + y := h.right_le y rfl
    have hnext : 0 ≤ y' := hnonneg y' (List.mem_of_head? hy')
    rw [hsum]
    linarith

/-- **The right sweep moves on.** -/
theorem IsEven.move_right (h : IsEven left (y :: (middle ++ [z])) right)
    (hnonneg : ∀ z ∈ y :: middle, 0 ≤ z) (hlt : right.sum + z < left.sum + y) :
    IsEven left (y :: middle) (z :: right) := by
  have hsum : (z :: right).sum = right.sum + z := by rw [List.sum_cons, add_comm]
  constructor
  · intro z' hz'
    have hlast : (y :: (middle ++ [z])).getLast? = some z := by
      rw [← List.cons_append, List.getLast?_concat]
    have hleft : left.sum ≤ right.sum + z := h.left_le z hlast
    have hnext : 0 ≤ z' := hnonneg z' (List.mem_of_getLast? hz')
    rw [hsum]
    linarith
  · intro y' hy'
    rw [List.head?_cons, Option.mem_some_iff] at hy'
    rw [hsum, ← hy']
    exact hlt.le

/-- When the sweeps have met, the difference is within the sample they are on. -/
theorem IsEven.abs_sub_le (h : IsEven left [m] right) : |right.sum - left.sum| ≤ m := by
  have hleft : left.sum ≤ right.sum + m := h.left_le m rfl
  have hright : right.sum ≤ left.sum + m := h.right_le m rfl
  rw [abs_le]
  constructor <;> linarith

/-- **Two even sweeps meet evenly.** Whatever lies between them, they come to
stand on one sample of it, with all the samples before it gathered on the left and
all the samples behind it gathered on the right. -/
theorem exists_sweep_eq (n : Nat) (hlength : middle.length = n + 1)
    (hnonneg : ∀ y ∈ middle, 0 ≤ y) (heven : IsEven left middle right) :
    ∃ before m behind, left ++ middle ++ right = before ++ m :: behind ∧
      sweep n left.length left.sum right.sum (middle ++ right) (left ++ middle).reverse
        = sweep 0 before.length before.sum behind.sum (m :: behind) (m :: before.reverse) ∧
      IsEven before [m] behind := by
  induction n generalizing left middle right with
  | zero =>
    obtain ⟨m, rfl⟩ := List.length_eq_one_iff.mp hlength
    refine ⟨left, m, right, ?_, ?_, heven⟩
    · rw [List.append_assoc, List.singleton_append]
    · rw [List.reverse_append, List.reverse_singleton, List.singleton_append,
        List.singleton_append]
  | succ n ih =>
    -- the two sweeps stand on the first and on the last sample between them
    obtain ⟨y, rest, rfl⟩ := List.exists_cons_of_length_eq_add_one hlength
    have hrest : rest.length = n + 1 := Nat.succ.inj hlength
    obtain ⟨inner, z, rfl⟩ : ∃ inner z, rest = inner ++ [z] :=
      ⟨_, _, (List.dropLast_concat_getLast (List.ne_nil_of_length_eq_add_one hrest)).symm⟩
    have hfront : y :: (inner ++ [z]) ++ right = y :: (inner ++ [z] ++ right) := rfl
    have hback : (left ++ y :: (inner ++ [z])).reverse = z :: (left ++ y :: inner).reverse := by
      rw [← List.cons_append, ← List.append_assoc, List.reverse_concat]
    rw [hfront, hback, sweep]
    split
    · next hle =>
      have hmoved := heven.move_left (fun y' hy' => hnonneg y' (List.mem_cons_of_mem y hy')) hle
      obtain ⟨before, m, behind, hsplit, hsweep, hmet⟩ := ih hrest
        (fun y' hy' => hnonneg y' (List.mem_cons_of_mem y hy')) hmoved
      refine ⟨before, m, behind, ?_, ?_, hmet⟩
      · rw [← hsplit]
        simp
      · rw [← hsweep]
        simp
    · next hlt =>
      have hinner : ∀ z' ∈ y :: inner, 0 ≤ z' := fun z' hz' =>
        hnonneg z' (List.mem_append_left [z] hz')
      have hmoved := heven.move_right hinner (lt_of_not_ge hlt)
      obtain ⟨before, m, behind, hsplit, hsweep, hmet⟩ := ih (by simpa using hrest) hinner hmoved
      refine ⟨before, m, behind, ?_, ?_, hmet⟩
      · rw [← hsplit]
        simp
      · rw [← hsweep]
        simp [add_comm]

/-! ## The area of the bars -/

/-- **The bar of a sample** stands on all points within half a step of its own. -/
def base (s : Samples ℝ) (k : Nat) : Set ℝ :=
  Set.Icc (s.x k - Scalar.half * s.step) (s.x k + Scalar.half * s.step)

/-- **The area of the bars over a set of points.** -/
noncomputable def areaOver (s : Samples ℝ) (points : Set ℝ) : ℝ :=
  (s.ys.zipIdx.map fun (y, k) => y * volume.real (s.base k ∩ points)).sum

variable {s : Samples ℝ} {k index : Nat} {offset : ℝ}

theorem base_eq (k : Nat) : s.base k = Set.Icc (s.x k - s.step / 2) (s.x k + s.step / 2) := by
  unfold base
  rw [Real.scalar_half, inv_mul_eq_div]

theorem volume_base_Iic (k : Nat) (z : ℝ) : volume.real (s.base k ∩ Set.Iic z)
    = max (min (s.x k + s.step / 2) z - (s.x k - s.step / 2)) 0 := by
  rw [base_eq, ← Real.volume_real_Icc]
  congr 1
  ext t
  simp [and_assoc]

/-- The bars of different samples overlap in a point at most. -/
theorem x_add_step_le (hstep : 0 < s.step) (h : k < index) : s.x k + s.step ≤ s.x index := by
  have hcast : (k : ℝ) + 1 ≤ index := by exact_mod_cast h
  have hscaled := mul_le_mul_of_nonneg_left hcast hstep.le
  show s.x0 + s.step * (k : ℝ) + s.step ≤ s.x0 + s.step * (index : ℝ)
  linarith

/-- Bars of one share in a set of points. -/
theorem sum_zipIdx_mul (share : Nat → ℝ) {width : ℝ} (ys : List ℝ) (n : Nat)
    (h : ∀ k, n ≤ k → k < n + ys.length → share k = width) :
    ((ys.zipIdx n).map fun (y, k) => y * share k).sum = ys.sum * width := by
  induction ys generalizing n with
  | nil => simp
  | cons y ys ih =>
    have hfirst : share n = width := h n le_rfl (by simp)
    have hrest := ih (n + 1) fun k hle hlt => h k (by omega) (by simp; omega)
    rw [List.zipIdx_cons, List.map_cons, List.sum_cons, List.sum_cons, hrest, add_mul]
    simp only [hfirst]

/-- The bars before a sample, its own, and the bars behind it. -/
theorem areaOver_eq {points : Set ℝ} (before behind : ℝ) (hys : s.ys = left ++ m :: right)
    (hbefore : ∀ k < left.length, volume.real (s.base k ∩ points) = before)
    (hbehind : ∀ k, left.length < k → volume.real (s.base k ∩ points) = behind) :
    s.areaOver points = left.sum * before
      + (m * volume.real (s.base left.length ∩ points) + right.sum * behind) := by
  have hleft := sum_zipIdx_mul (fun k => volume.real (s.base k ∩ points)) left 0
    fun k _ hlt => hbefore k (by omega)
  have hright := sum_zipIdx_mul (fun k => volume.real (s.base k ∩ points)) right
    (0 + left.length + 1) fun k hle _ => hbehind k (by omega)
  unfold areaOver
  rw [hys, List.zipIdx_append, List.map_append, List.sum_append, hleft, List.zipIdx_cons,
    List.map_cons, List.sum_cons, hright, zero_add]

/-- **The area before a point** within the bar of a sample. -/
theorem areaOver_Iic (hstep : 0 < s.step) (hys : s.ys = left ++ m :: right)
    (hoffset : |offset| ≤ 2⁻¹) :
    s.areaOver (Set.Iic (s.x left.length + s.step * offset))
      = s.step * (left.sum + m * (2⁻¹ + offset)) := by
  obtain ⟨hlower, hupper⟩ := abs_le.mp hoffset
  have hscaledLower := mul_le_mul_of_nonneg_left hlower hstep.le
  have hscaledUpper := mul_le_mul_of_nonneg_left hupper hstep.le
  have hown : volume.real (s.base left.length ∩ Set.Iic (s.x left.length + s.step * offset))
      = s.step * (2⁻¹ + offset) := by
    rw [volume_base_Iic, min_eq_right (by linarith), max_eq_left (by linarith)]
    ring
  rw [areaOver_eq s.step 0 hys, hown]
  · ring
  · intro k hk
    have hearlier := x_add_step_le hstep hk
    rw [volume_base_Iic, min_eq_left (by linarith), max_eq_left (by linarith)]
    ring
  · intro k hk
    have hlater := x_add_step_le hstep hk
    rw [volume_base_Iic, min_eq_right (by linarith), max_eq_right (by linarith)]

/-- **The area before a point and the area behind it** make up the whole. -/
theorem areaOver_Iic_add_Ioi (hstep : 0 < s.step) (z : ℝ) :
    s.areaOver (Set.Iic z) + s.areaOver (Set.Ioi z) = s.ys.sum * s.step := by
  have hshares (k : Nat) : volume.real (s.base k ∩ Set.Iic z) + volume.real (s.base k ∩ Set.Ioi z)
      = s.step := by
    have hfinite : volume (s.base k) ≠ ⊤ := by simp [base]
    rw [← Set.compl_Iic, ← Set.sdiff_eq, measureReal_inter_add_sdiff measurableSet_Iic hfinite,
      base_eq, Real.volume_real_Icc_of_le (by linarith)]
    ring
  unfold areaOver
  rw [← List.sum_map_add, ← sum_zipIdx_mul _ s.ys 0 fun k _ _ => hshares k]
  simp only [mul_add]

/-! ## The point that makes up for the difference -/

/-- The part of a sample that makes up for a difference within it is at most one
half. -/
theorem abs_div_two_mul_le {difference : ℝ} (hpos : 0 < m) (hle : |difference| ≤ m) :
    |difference / (2 * m)| ≤ 2⁻¹ := by
  rw [abs_div, abs_of_pos (mul_pos two_pos hpos), div_le_iff₀ (mul_pos two_pos hpos)]
  linarith

/-- Saturation leaves such a part as it is. -/
theorem clamp_half_of_abs_le (h : |offset| ≤ 2⁻¹) :
    Scalar.clamp (-Scalar.half) Scalar.half offset = offset := by
  obtain ⟨hlower, hupper⟩ := abs_le.mp h
  unfold Scalar.clamp
  rw [Real.scalar_half, if_neg (not_lt_of_ge hlower), if_neg (not_lt_of_ge hupper)]

/-- **The point that makes up for a difference** lies within half a step of the
sample, and by as much as the sample can make up for. -/
theorem exists_halfway_eq {b : Balance ℝ} (hle : |b.behind - b.before| ≤ b.value) :
    ∃ offset, s.halfway b = s.x b.index + s.step * offset ∧ |offset| ≤ 2⁻¹ ∧
      2 * (b.value * offset) = b.behind - b.before := by
  rcases lt_or_ge 0 b.value with hpos | hzero
  · have hpart := abs_div_two_mul_le hpos hle
    refine ⟨(b.behind - b.before) / (2 * b.value), ?_, hpart, ?_⟩
    · unfold halfway
      simp only [if_pos hpos, Real.scalar_two, clamp_half_of_abs_le hpart]
    · rw [← mul_assoc, mul_div_cancel₀ _ (mul_pos two_pos hpos).ne']
  · -- a sample without a value leaves no difference
    have hnone : b.behind - b.before = 0 := abs_nonpos_iff.mp (hle.trans hzero)
    refine ⟨0, ?_, by norm_num, ?_⟩
    · unfold halfway
      simp only [if_neg (not_lt_of_ge hzero)]
    · rw [hnone, mul_zero, mul_zero]

/-- **The bisector halves the area.** On a curve without negative samples that has
an area, the two sweeps come to stand on one sample, each having gathered all the
samples on its side and no other. What they have gathered differs by the value of
that sample at most, so that saturation does not act, and the area of the bars
before the point that is answered is the area behind it. -/
theorem bisector?_halves (s : Samples ℝ) (hnonneg : ∀ y ∈ s.ys, 0 ≤ y) (harea : 0 < s.area)
    (hstep : 0 < s.step) :
    ∃ left m right, s.ys = left ++ m :: right ∧
      sweep (s.ys.length - 1) 0 0 0 s.ys s.ys.reverse
        = sweep 0 left.length left.sum right.sum (m :: right) (m :: left.reverse) ∧
      |right.sum - left.sum| ≤ m ∧
      (0 < m → Scalar.clamp (-Scalar.half) Scalar.half ((right.sum - left.sum) / (2 * m))
        = (right.sum - left.sum) / (2 * m)) ∧
      ∃ z, s.bisector? = some z ∧ s.areaOver (Set.Iic z) = s.areaOver (Set.Ioi z) := by
  have hne : s.ys ≠ [] := by
    intro hnil
    have hnone : s.area = 0 := by rw [area, hnil]; rfl
    exact harea.ne' hnone
  obtain ⟨left, m, right, hys, hsweep, hmet⟩ := exists_sweep_eq (s.ys.length - 1)
    (Nat.succ_pred (mt List.length_eq_zero_iff.mp hne)).symm hnonneg (isEven_nil hnonneg)
  rw [List.nil_append, List.append_nil] at hys
  rw [List.nil_append, List.append_nil, List.length_nil, List.sum_nil] at hsweep
  have hdifference := hmet.abs_sub_le
  obtain ⟨offset, hpoint, hoffset, hmakes⟩ := exists_halfway_eq (s := s)
    (b := ⟨left.length, m, left.sum, right.sum⟩) hdifference
  have hbisector : s.bisector? = some (s.x left.length + s.step * offset) := by
    have hcurve : ¬ (s.ys = [] ∨ s.IsFlat) := not_or.mpr ⟨hne, not_le_of_gt harea⟩
    rw [bisector?, if_neg hcurve, ← hpoint]
    exact congrArg (Option.map s.halfway) hsweep
  refine ⟨left, m, right, hys, hsweep, hdifference, fun hpos => ?_, _, hbisector, ?_⟩
  · exact clamp_half_of_abs_le (abs_div_two_mul_le hpos hdifference)
  · have hbefore := areaOver_Iic hstep hys hoffset
    have hwhole := s.areaOver_Iic_add_Ioi hstep (s.x left.length + s.step * offset)
    have hsum : s.ys.sum = left.sum + (m + right.sum) := by
      rw [hys, List.sum_append, List.sum_cons]
    have hmiddle : 2 * (left.sum + m * (2⁻¹ + offset)) = s.ys.sum := by
      linarith
    rw [← hmiddle] at hwhole
    linarith

/-- Two spikes with nothing between them. -/
theorem bisector?_halves_spikes :
    (∀ y ∈ [3, 0, 0, 3], (0 : ℝ) ≤ y) ∧ 0 < (⟨[3, 0, 0, 3], 2, 2⁻¹⟩ : Samples ℝ).area ∧
      ∃ z, (⟨[3, 0, 0, 3], 2, 2⁻¹⟩ : Samples ℝ).bisector? = some z ∧
        (⟨[3, 0, 0, 3], 2, 2⁻¹⟩ : Samples ℝ).areaOver (Set.Iic z)
          = (⟨[3, 0, 0, 3], 2, 2⁻¹⟩ : Samples ℝ).areaOver (Set.Ioi z) := by
  have hnonneg : ∀ y ∈ [3, 0, 0, 3], (0 : ℝ) ≤ y := by simp
  have harea : 0 < (⟨[3, 0, 0, 3], 2, 2⁻¹⟩ : Samples ℝ).area := by
    show (0 : ℝ) < 0 + 3 + 0 + 0 + 3
    norm_num
  obtain ⟨-, -, -, -, -, -, -, hhalves⟩ := bisector?_halves ⟨[3, 0, 0, 3], 2, 2⁻¹⟩ hnonneg harea
    (by norm_num)
  exact ⟨hnonneg, harea, hhalves⟩

end Samples

end FuzzyInference
