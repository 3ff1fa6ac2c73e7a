import FuzzyInference.Proofs.Defuzzify.Average
import FuzzyInference.Proofs.Defuzzify.Bisector
import FuzzyInference.Proofs.Defuzzify.Exact
import FuzzyInference.Proofs.Defuzzify.Maximum

/-!
# The support of a curve

The support of a curve that has an area reaches from the first point where it is
above zero to the last one. The centre of gravity lies on it, since points outside
have no weight, and so do the first and the last point where the curve is highest.

The bisector lies on it up to half a step. The sample on which the two sweeps meet
may be zero itself, but then what has been gathered on either side is the same and
more than nothing, so that there are samples above zero on both sides of it
(`Samples.meeting_mem`).

These are points of the exact scalars, where a method may fail to find one. None
of them does if there is an area, and all of them do otherwise
(`Samples.crisp_mem_support`).
-/

namespace FuzzyInference

namespace Samples

variable {s : Samples ℝ} {lo hi : Nat}

/-- A point where the curve is highest is one where it is above zero. -/
theorem IsHighest.isActive {k : Nat} (hk : s.IsHighest k) (harea : 0 < s.area) :
    s.IsActive k := by
  obtain ⟨top, htop, hhighest⟩ := hk
  obtain ⟨y, hy, hpos⟩ := exists_pos_of_sum_pos (area_eq_sum ▸ harea)
  exact ⟨top, htop, hpos.trans_le (hhighest y hy)⟩

/-- A part of the samples with a sum above zero has a point where the curve is above
zero. -/
theorem exists_isActive_of_sum_pos {before part after : List ℝ}
    (hys : s.ys = before ++ (part ++ after)) (hpos : 0 < part.sum) :
    ∃ k, s.IsActive k ∧ before.length ≤ k ∧ k < before.length + part.length := by
  obtain ⟨y, hy, hpos⟩ := exists_pos_of_sum_pos hpos
  obtain ⟨k, hk, rfl⟩ := List.getElem_of_mem hy
  refine ⟨before.length + k, ⟨part[k], ?_, hpos⟩, Nat.le_add_right _ _,
    Nat.add_lt_add_left hk _⟩
  rw [hys, List.getElem?_append_right (Nat.le_add_right _ _), Nat.add_sub_cancel_left,
    List.getElem?_append_left hk, List.getElem?_eq_getElem hk]

section Support

variable (hnonneg : ∀ y ∈ s.ys, 0 ≤ y) (harea : 0 < s.area)
  (hlo : IsLeast {k | s.IsActive k} lo) (hhi : IsGreatest {k | s.IsActive k} hi)

include harea hlo hhi

/-- **The sample on which the two sweeps meet** lies on the support. -/
theorem meeting_mem {left right : List ℝ} {m : ℝ} (hys : s.ys = left ++ m :: right)
    (heven : |right.sum - left.sum| ≤ m) : lo ≤ left.length ∧ left.length ≤ hi := by
  obtain ⟨hright, hleft⟩ := abs_le.mp heven
  have hsum : 0 < left.sum + (m + right.sum) := by
    rw [area_eq_sum, hys, List.sum_append, List.sum_cons] at harea
    exact harea
  constructor
  · have hpos : 0 < (left ++ [m]).sum := by
      rw [List.sum_append, List.sum_singleton]
      linarith
    have hsplit : s.ys = [] ++ ((left ++ [m]) ++ right) := by rw [hys]; simp
    obtain ⟨k, hk, -, hlt⟩ := exists_isActive_of_sum_pos hsplit hpos
    have hle : lo ≤ k := hlo.2 hk
    rw [List.length_nil, List.length_append, List.length_singleton] at hlt
    omega
  · have hpos : 0 < (m :: right).sum := by
      rw [List.sum_cons]
      linarith
    have hsplit : s.ys = left ++ ((m :: right) ++ []) := by rw [hys]; simp
    obtain ⟨k, hk, hle, -⟩ := exists_isActive_of_sum_pos hsplit hpos
    exact hle.trans (hhi.2 hk)

include hnonneg

/-- **The bisector** lies on the support up to half a step. -/
theorem exists_bisector?_eq (hstep : 0 ≤ s.step) :
    ∃ z ∈ Set.Icc (s.x lo - s.step / 2) (s.x hi + s.step / 2), s.bisector? = some z := by
  have hne := ys_ne_nil harea
  obtain ⟨left, m, right, hys, hsweep, hmet⟩ := exists_sweep_eq (s.ys.length - 1)
    (Nat.succ_pred (mt List.length_eq_zero_iff.mp hne)).symm hnonneg (isEven_nil hnonneg)
  rw [List.nil_append, List.append_nil] at hys
  rw [List.nil_append, List.append_nil, List.length_nil, List.sum_nil] at hsweep
  obtain ⟨offset, hpoint, hoffset, -⟩ := exists_halfway_eq (s := s)
    (b := ⟨left.length, m, left.sum, right.sum⟩) hmet.abs_sub_le
  obtain ⟨hlower, hupper⟩ := abs_le.mp hoffset
  obtain ⟨hloLeft, hleftHi⟩ := meeting_mem harea hlo hhi hys hmet.abs_sub_le
  have hbegins : s.x lo ≤ s.x left.length := x_le_x hstep hloLeft
  have hends : s.x left.length ≤ s.x hi := x_le_x hstep hleftHi
  have hscaledLower := mul_le_mul_of_nonneg_left hlower hstep
  have hscaledUpper := mul_le_mul_of_nonneg_left hupper hstep
  refine ⟨s.x left.length + s.step * offset, ⟨by linarith, by linarith⟩, ?_⟩
  have hcurve : ¬ (s.ys = [] ∨ s.IsFlat) := not_or.mpr ⟨hne, not_le_of_gt harea⟩
  rw [bisector?, if_neg hcurve, ← hpoint]
  exact congrArg (Option.map s.halfway) hsweep

/-- **The centre of gravity and the ends of the top** lie on the support. -/
theorem exists_ofSamples?_eq (hstep : 0 ≤ s.step) {d : Defuzzifier}
    (hd : d ∈ [.centroid, .smallestOfMaximum, .largestOfMaximum]) :
    d.isSampled = true ∧ ∃ z ∈ Set.Icc (s.x lo) (s.x hi), d.ofSamples? s = some z := by
  have hmem {k : Nat} (hk : s.IsHighest k) : s.x k ∈ Set.Icc (s.x lo) (s.x hi) :=
    ⟨x_le_x hstep (hlo.2 (hk.isActive harea)), x_le_x hstep (hhi.2 (hk.isActive harea))⟩
  simp only [List.mem_cons, List.not_mem_nil, or_false] at hd
  rcases hd with rfl | rfl | rfl
  · exact ⟨rfl, _, centroid_mem hnonneg harea hstep (fun _ hk => hlo.2 hk) (fun _ hk => hhi.2 hk),
      rfl⟩
  · obtain ⟨first, hfirst, hsmallest⟩ := exists_smallestOfMaximum_eq hnonneg harea
    exact ⟨rfl, _, hsmallest ▸ hmem hfirst.1, rfl⟩
  · obtain ⟨last, hlast, hlargest⟩ := exists_largestOfMaximum_eq hnonneg harea
    exact ⟨rfl, _, hlargest ▸ hmem hlast.1, rfl⟩

end Support

/-- Samples that are not below zero and have no area are zero. -/
theorem eq_zero_of_area_eq_zero (hnonneg : ∀ y ∈ s.ys, 0 ≤ y) (harea : s.area = 0) :
    ∀ y ∈ s.exact.ys, y = 0 := by
  intro y hy
  obtain ⟨z, hz, rfl⟩ := List.mem_map.mp hy
  rw [area_eq_sum] at harea
  exact congrArg Exact.number (List.all_zero_of_le_zero_le_of_sum_eq_zero hnonneg harea hz)

/-- **Crisp values stay on the support** of a curve that is not below zero. If it has
an area, then the centre of gravity and the first and the last point at the top are
numbers between the first and the last point where it is above zero, and the bisector
is one that exceeds this range by half a step at most. If it has none, then no method
finds a number. -/
theorem crisp_mem_support (s : Samples ℝ) (hnonneg : ∀ y ∈ s.ys, 0 ≤ y) (hstep : 0 < s.step) :
    (0 < s.area → ∃ lo hi, IsLeast {k | s.IsActive k} lo ∧ IsGreatest {k | s.IsActive k} hi ∧
      (∀ d ∈ [Defuzzifier.centroid, .smallestOfMaximum, .largestOfMaximum],
        ∃ z ∈ Set.Icc (s.x lo) (s.x hi), d.ofSamples? s.exact = some (.number z)) ∧
      ∃ z ∈ Set.Icc (s.x lo - s.step / 2) (s.x hi + s.step / 2),
        Defuzzifier.bisector.ofSamples? s.exact = some (.number z)) ∧
    (s.area = 0 → ∀ d : Defuzzifier, d.ofSamples? s.exact = some .notANumber) := by
  refine ⟨fun harea => ?_, fun harea d =>
    d.ofSamples?_of_zero (eq_zero_of_area_eq_zero hnonneg harea)⟩
  obtain ⟨lo, hi, hlo, hhi⟩ := exists_support harea
  refine ⟨lo, hi, hlo, hhi, fun d hd => ?_, ?_⟩
  · obtain ⟨hsampled, z, hz, heq⟩ :=
      exists_ofSamples?_eq hnonneg harea hlo hhi hstep.le hd
    exact ⟨z, hz, by rw [Defuzzifier.ofSamples?_exact hsampled harea, heq]; rfl⟩
  · obtain ⟨z, hz, heq⟩ := exists_bisector?_eq hnonneg harea hlo hhi hstep.le
    exact ⟨z, hz, by rw [Defuzzifier.ofSamples?_exact rfl harea]; exact congrArg _ heq⟩

/-- Two spikes with nothing between them, nor beside them. -/
def spikes : Samples ℝ := ⟨[0, 1, 0, 0, 1, 0], 0, 1⟩

/-- Their support reaches from the one to the other, and no crisp value is at the ends
of the universe. -/
theorem crisp_mem_support_spikes :
    (∀ y ∈ spikes.ys, 0 ≤ y) ∧ 0 < spikes.step ∧ 0 < spikes.area ∧
      (∀ d ∈ [Defuzzifier.centroid, .smallestOfMaximum, .largestOfMaximum],
        ∃ z ∈ Set.Icc (spikes.x 1) (spikes.x 4), d.ofSamples? spikes.exact = some (.number z)) ∧
      ∃ z ∈ Set.Icc (spikes.x 1 - spikes.step / 2) (spikes.x 4 + spikes.step / 2),
        Defuzzifier.bisector.ofSamples? spikes.exact = some (.number z) := by
  have hys : spikes.ys = [0, 1, 0, 0, 1, 0] := rfl
  have hnonneg : ∀ y ∈ spikes.ys, 0 ≤ y := by
    rw [hys]
    simp
  have hstep : 0 < spikes.step := one_pos
  have harea : 0 < spikes.area := by
    rw [area_eq_sum, hys]
    norm_num
  have hactive {k : Nat} : spikes.IsActive k ↔ k = 1 ∨ k = 4 := by
    unfold IsActive
    rw [hys]
    rcases k with _ | _ | _ | _ | _ | _ | k <;> simp
  obtain ⟨lo, hi, hlo, hhi, hmethods, hbisector⟩ :=
    (crisp_mem_support spikes hnonneg hstep).1 harea
  obtain rfl : lo = 1 := hlo.unique ⟨hactive.mpr (.inl rfl), fun k hk => by
    have := hactive.mp hk
    omega⟩
  obtain rfl : hi = 4 := hhi.unique ⟨hactive.mpr (.inr rfl), fun k hk => by
    have := hactive.mp hk
    omega⟩
  exact ⟨hnonneg, hstep, harea, hmethods, hbisector⟩

end Samples

end FuzzyInference
