import FuzzyInference.Proofs.Defuzzify.Points

/-!
# The first stretch at the top

The middle of the maximum is the middle of the first stretch at the top of a
curve, and samples that are near each other are taken for equal. What is kept of
the part of the curve that has been seen is a plateau, and `Plateau.Spans` says
where on the curve it lies: no sample before it has come up to the top, those of
the stretch are near the top, and the first one behind it is below the top and not
near it. One more sample starts another plateau, prolongs the stretch, or is
passed over (`Plateau.Spans.exists_extend`), and so there is such a plateau at the
end (`Samples.exists_spans`).

Nearness is relative to the size of the values only where they exceed one. Below
that it is a distance, and so on a curve that is weak enough zero is near the top.
If the first sample is that close to zero, and none exceeds it by more than the
distance, then the stretch is the whole universe. In this case, and in no other,
the middle of the maximum may lie beside the support of the curve
(`Samples.middleOfMaximum_mem_iff`).
-/

namespace FuzzyInference

namespace Samples

variable {s : Samples ℝ}

/-! ## Nearness -/

section Near

open Scalar (Near epsilon)

variable {t u y : ℝ}

theorem near_self (y : ℝ) : Near y y := by
  rw [Real.near_iff, sub_self, abs_zero]
  positivity

/-- Values within the distance by which nearness is measured are near. -/
theorem near_of_abs_sub_le (h : |y - u| ≤ epsilon) : Near y u := by
  rw [Real.scalar_epsilon] at h
  exact Real.near_iff.mpr (h.trans (le_mul_of_one_le_right (by positivity) (le_max_right _ _)))

/-- What comes closer to a value from below is near it, if anything is. -/
theorem near_of_le (ht : 0 ≤ t) (htu : t ≤ u) (huy : u ≤ y) (h : Near y t) : Near y u := by
  have hsize {v : ℝ} (hv : 0 ≤ v) (hvy : v ≤ y) : max |y| |v| = y := by
    rw [abs_of_nonneg (hv.trans hvy), abs_of_nonneg hv, max_eq_left hvy]
  rw [Real.near_iff, hsize ht (htu.trans huy), abs_of_nonneg (sub_nonneg.mpr (htu.trans huy))] at h
  rw [Real.near_iff, hsize (ht.trans htu) huy, abs_of_nonneg (sub_nonneg.mpr huy)]
  linarith

/-- **Near a value that is next to zero** is what exceeds it by no more than the
distance by which nearness is measured. -/
theorem near_iff_of_le_epsilon (hu : 0 ≤ u) (hfaint : u ≤ epsilon) (hy : 0 ≤ y) :
    Near y u ↔ y ≤ u + epsilon := by
  constructor
  · intro h
    have hdistance := (le_abs_self _).trans (Real.near_iff.mp h)
    rw [Real.scalar_epsilon] at hfaint ⊢
    rw [abs_of_nonneg hy, abs_of_nonneg hu] at hdistance
    by_cases hone : max y u ≤ 1
    · rw [max_eq_right hone] at hdistance
      linarith
    · -- a value above one is farther away than that
      have hlarge : max y u = y := by
        refine max_eq_left (le_of_not_gt fun hyu => hone ?_)
        rw [max_eq_right hyu.le]
        exact hfaint.trans (by norm_num)
      rw [max_eq_left (le_of_not_ge hone), hlarge] at hdistance
      rw [hlarge] at hone
      linarith
  · intro h
    refine near_of_abs_sub_le (abs_le.mpr ⟨?_, ?_⟩)
    · linarith
    · linarith

/-- **Near a value that is not next to zero** there is no zero. -/
theorem pos_of_near (hu : epsilon < u) (hy : 0 ≤ y) (h : Near y u) : 0 < y := by
  rw [Real.scalar_epsilon] at hu
  refine lt_of_le_of_ne hy fun hzero => ?_
  have hpos : 0 < u := lt_trans (by positivity) hu
  have hdistance := Real.near_iff.mp h
  rw [← hzero, zero_sub, abs_neg, abs_zero, abs_of_pos hpos, max_eq_right hpos.le] at hdistance
  rcases max_cases u 1 with ⟨hmax, -⟩ | ⟨hmax, -⟩
  · rw [hmax] at hdistance
    linarith
  · rw [hmax] at hdistance
    linarith

/-- No sample of a curve that is not below zero is near the value to begin with. -/
theorem not_near_underneath (hy : 0 ≤ y) : ¬ Near y underneath := by
  intro h
  have hdistance := (le_abs_self _).trans (Real.near_iff.mp h)
  have hone : |(underneath : ℝ)| = 1 := (abs_neg (1 : ℝ)).trans abs_one
  have hsize : max (max |y| 1) 1 ≤ y + 1 := by
    rw [abs_of_nonneg hy]
    exact max_le (max_le (by linarith) (by linarith)) (by linarith)
  have hgap : y - underneath = y + 1 := sub_neg_eq_add y 1
  rw [hone, hgap] at hdistance
  linarith

end Near

/-! ## The first stretch at the top -/

open Scalar (Near epsilon)

/-- **Where a plateau lies** in the part of a curve that has been seen: behind some
samples there is the top, then a stretch of samples near it, and then others. -/
structure Plateau.Spans (p : Plateau ℝ) (s : Samples ℝ) (front before stretch after : List ℝ) :
    Prop where
  /-- This is what has been seen. -/
  split : front = before ++ p.top :: (stretch ++ after)
  /-- The plateau begins at the top. -/
  first_eq : p.first = s.x before.length
  /-- It ends with the stretch. -/
  last_eq : p.last = s.x (before.length + stretch.length)
  /-- The samples of the stretch are near the top. -/
  near : ∀ y ∈ stretch, Near y p.top
  /-- Each sample before the top is below an earlier top or near it, and this one is
  below the top and not near it. -/
  before_lt : ∀ y ∈ before, ∃ t ∈ before, (y ≤ t ∨ Near y t) ∧ t < p.top ∧ ¬ Near p.top t
  /-- No sample behind the stretch has started another one. -/
  after_le : ∀ y ∈ after, y ≤ p.top ∨ Near y p.top
  /-- The first of them has ended the stretch. -/
  head_lt : ∀ y ∈ after.head?, y ≤ p.top ∧ ¬ Near y p.top
  /-- The stretch goes on as long as there is none. -/
  ongoing : p.ongoing = true ↔ after = []

namespace Plateau.Spans

variable {p : Plateau ℝ} {front before stretch after : List ℝ} {y : ℝ}

/-- **A new top starts another stretch.** -/
theorem restart (h : p.Spans s front before stretch after) (hnonneg : ∀ z ∈ front, 0 ≤ z)
    (hover : p.top < y) (hfar : ¬ Near y p.top) :
    Plateau.Spans ⟨y, s.x front.length, s.x front.length, true⟩ s (front ++ [y]) front [] [] where
  split := rfl
  first_eq := rfl
  last_eq := rfl
  near _ hz := absurd hz List.not_mem_nil
  before_lt z hz := by
    have htop : p.top ∈ front := by simp [h.split]
    rw [h.split] at hz
    rcases List.mem_append.mp hz with hz | hz
    · obtain ⟨t, ht, hle, hlt, -⟩ := h.before_lt z hz
      have hmem : t ∈ front := h.split ▸ List.mem_append_left _ ht
      exact ⟨t, hmem, hle, hlt.trans hover,
        fun hnear => hfar (near_of_le (hnonneg t hmem) hlt.le hover.le hnear)⟩
    · refine ⟨p.top, htop, ?_, hover, hfar⟩
      rcases List.mem_cons.mp hz with rfl | hz
      · exact .inl le_rfl
      · rcases List.mem_append.mp hz with hz | hz
        · exact .inr (h.near z hz)
        · exact h.after_le z hz
  after_le _ hz := absurd hz List.not_mem_nil
  head_lt _ hz := by cases hz
  ongoing := iff_of_true rfl rfl

/-- **A sample near the top** prolongs the stretch, while it goes on. -/
theorem prolong (h : p.Spans s front before stretch []) (hnear : Near y p.top) :
    Plateau.Spans { p with last := s.x front.length } s (front ++ [y]) before (stretch ++ [y])
      [] where
  split := by simp [h.split]
  first_eq := h.first_eq
  last_eq := by
    show s.x front.length = _
    rw [h.split]
    simp
  near z hz := by
    rcases List.mem_append.mp hz with hz | hz
    · exact h.near z hz
    · exact List.mem_singleton.mp hz ▸ hnear
  before_lt := h.before_lt
  after_le := h.after_le
  head_lt := h.head_lt
  ongoing := h.ongoing

/-- **A sample behind the stretch**, which it may have ended. -/
theorem pass (h : p.Spans s front before stretch after) (hle : y ≤ p.top ∨ Near y p.top)
    (hhead : after = [] → y ≤ p.top ∧ ¬ Near y p.top) :
    Plateau.Spans { p with ongoing := false } s (front ++ [y]) before stretch (after ++ [y]) where
  split := by simp [h.split]
  first_eq := h.first_eq
  last_eq := h.last_eq
  near := h.near
  before_lt := h.before_lt
  after_le z hz := by
    rcases List.mem_append.mp hz with hz | hz
    · exact h.after_le z hz
    · exact List.mem_singleton.mp hz ▸ hle
  head_lt z hz := by
    cases after with
    | nil =>
      cases hz
      exact hhead rfl
    | cons a after => exact h.head_lt z hz
  ongoing := iff_of_false Bool.false_ne_true (List.append_ne_nil_of_right_ne_nil _ (by simp))

/-- **One more sample** leaves a plateau somewhere on the curve. -/
theorem exists_extend (h : p.Spans s front before stretch after) (hnonneg : ∀ z ∈ front, 0 ≤ z) :
    ∃ before stretch after,
      (p.extend (s.x front.length) y).Spans s (front ++ [y]) before stretch after := by
  unfold Plateau.extend
  split
  · next hover => exact ⟨_, _, _, h.restart hnonneg hover.1 hover.2⟩
  · next hover =>
    split
    · next hnear =>
      split
      · next hongoing =>
        obtain rfl := h.ongoing.mp hongoing
        exact ⟨_, _, _, h.prolong hnear⟩
      · next hended =>
        have hpass := h.pass (.inr hnear) fun hnil => absurd (h.ongoing.mpr hnil) hended
        rw [← eq_false_of_ne_true hended] at hpass
        exact ⟨_, _, _, hpass⟩
    · next hfar =>
      have hle : y ≤ p.top := not_lt.mp fun hlt => hover ⟨hlt, hfar⟩
      exact ⟨_, _, _, h.pass (.inl hle) fun _ => ⟨hle, hfar⟩⟩

end Plateau.Spans

/-- **The first sample** is the first top. -/
theorem Plateau.extend_underneath {y : ℝ} (hy : 0 ≤ y) {x first last : ℝ} {ongoing : Bool} :
    Plateau.extend ⟨underneath, first, last, ongoing⟩ x y = ⟨y, x, x, true⟩ :=
  if_pos ⟨underneath_lt hy, not_near_underneath hy⟩

/-- **The plateau lies on the curve**, when there are samples. -/
theorem exists_spans (hnonneg : ∀ y ∈ s.ys, 0 ≤ y) (hne : s.ys ≠ []) :
    ∃ before stretch after, s.plateau.Spans s s.ys before stretch after := by
  refine (s.foldl_points_induction (P := fun front (p : Plateau ℝ) =>
    front = [] ∧ p = ⟨underneath, s.x 0, s.x 0, false⟩ ∨
      ∃ before stretch after, p.Spans s front before stretch after) (.inl ⟨rfl, rfl⟩)
    fun front y rest p hys hfront => .inr ?_).resolve_left fun h => hne h.1
  rcases hfront with ⟨rfl, rfl⟩ | ⟨before, stretch, after, hspans⟩
  · have hy : 0 ≤ y := hnonneg y (hys ▸ List.mem_append_right _ List.mem_cons_self)
    refine ⟨[], [], [], ?_⟩
    show Plateau.Spans (Plateau.extend _ _ _) _ _ _ _ _
    rw [Plateau.extend_underneath hy]
    exact ⟨rfl, rfl, rfl, by simp, by simp, by simp, by simp, iff_of_true rfl rfl⟩
  · exact hspans.exists_extend fun z hz => hnonneg z (hys ▸ List.mem_append_left _ hz)

/-- What stands in a place of a stretch that begins with a sample. -/
theorem exists_getElem?_stretch {before stretch : List ℝ} {k : Nat} (top : ℝ) (after : List ℝ)
    (hfirst : before.length ≤ k) (hlast : k ≤ before.length + stretch.length) :
    ∃ y ∈ top :: stretch, (before ++ top :: (stretch ++ after))[k]? = some y := by
  have hlt : k - before.length < (top :: stretch).length := by
    rw [List.length_cons]
    omega
  refine ⟨(top :: stretch)[k - before.length], List.getElem_mem hlt, ?_⟩
  rw [List.getElem?_append_right hfirst, ← List.cons_append, List.getElem?_append_left hlt,
    List.getElem?_eq_getElem hlt]

/-- **The samples of the stretch** are near the top. -/
theorem Plateau.Spans.exists_near {p : Plateau ℝ} {front before stretch after : List ℝ}
    (h : p.Spans s front before stretch after) {k : Nat} (hfirst : before.length ≤ k)
    (hlast : k ≤ before.length + stretch.length) : ∃ y, front[k]? = some y ∧ Near y p.top := by
  obtain ⟨y, hy, hk⟩ := exists_getElem?_stretch p.top after hfirst hlast
  refine ⟨y, h.split ▸ hk, ?_⟩
  rcases List.mem_cons.mp hy with rfl | hy
  · exact near_self _
  · exact h.near y hy

/-! ## Faint curves -/

/-- **A faint curve**: its first sample is within the distance by which nearness is
measured from zero, and none exceeds it by more than that. -/
def IsFaint (s : Samples ℝ) : Prop :=
  ∃ y rest, s.ys = y :: rest ∧ y ≤ epsilon ∧ ∀ z ∈ rest, z ≤ y + epsilon

section Faint

variable (hnonneg : ∀ y ∈ s.ys, 0 ≤ y)

include hnonneg

/-- **The plateau of a faint curve** is the whole universe. -/
theorem plateau_of_isFaint (hfaint : s.IsFaint) :
    s.plateau.first = s.x 0 ∧ s.plateau.last = s.x (s.ys.length - 1) := by
  obtain ⟨y, rest, hys, hle, hrest⟩ := hfaint
  have hy : 0 ≤ y := hnonneg y (hys ▸ List.mem_cons_self)
  have hplateau := s.foldl_points_induction (f := fun p (x, y) => Plateau.extend p x y)
    (b := ⟨underneath, s.x 0, s.x 0, false⟩)
    (P := fun front (p : Plateau ℝ) => front = [] ∧ p = ⟨underneath, s.x 0, s.x 0, false⟩ ∨
      ∃ seen, front = y :: seen ∧ p = ⟨y, s.x 0, s.x seen.length, true⟩)
    (.inl ⟨rfl, rfl⟩) ?_
  · rw [hys] at hplateau
    rcases hplateau with ⟨hnil, -⟩ | ⟨seen, hseen, hplateau⟩
    · cases hnil
    · cases hseen
      rw [hys]
      exact ⟨congrArg Plateau.first hplateau, congrArg Plateau.last hplateau⟩
  rintro front z behind p hsplit (⟨rfl, rfl⟩ | ⟨seen, rfl, rfl⟩)
  · cases hys.symm.trans hsplit
    exact .inr ⟨[], rfl, Plateau.extend_underneath hy⟩
  · -- every other sample is near the first one, and prolongs the stretch
    obtain rfl : rest = seen ++ z :: behind := (List.cons.inj (hys.symm.trans hsplit)).2
    have hmem : z ∈ seen ++ z :: behind := List.mem_append_right _ List.mem_cons_self
    have hz : 0 ≤ z := hnonneg z (hys ▸ List.mem_cons_of_mem _ hmem)
    have hnear : Near z y := (near_iff_of_le_epsilon hy hle hz).mpr (hrest z hmem)
    refine .inr ⟨seen ++ [z], rfl, ?_⟩
    show Plateau.extend _ _ _ = _
    unfold Plateau.extend
    rw [if_neg fun hover => hover.2 hnear, if_pos hnear]
    simp

/-- **A plateau next to zero** is that of a faint curve. -/
theorem Plateau.Spans.isFaint {p : Plateau ℝ} {before stretch after : List ℝ}
    (h : p.Spans s s.ys before stretch after) (htop : p.top ≤ epsilon) : s.IsFaint := by
  have hmem {y : ℝ} (hy : y ∈ before ++ p.top :: (stretch ++ after)) : 0 ≤ y :=
    hnonneg y (h.split ▸ hy)
  have hpos : 0 ≤ p.top := hmem (by simp)
  have hbelow {y : ℝ} (hy : 0 ≤ y) (hle : y ≤ p.top) : |y - p.top| ≤ epsilon := by
    rw [abs_sub_comm, abs_of_nonneg (sub_nonneg.mpr hle)]
    linarith
  -- no earlier top can be far enough below this one
  have hbefore : before = [] := by
    refine List.eq_nil_iff_forall_not_mem.mpr fun y hy => ?_
    obtain ⟨t, ht, -, hlt, hfar⟩ := h.before_lt y hy
    refine hfar (near_of_abs_sub_le ?_)
    rw [abs_sub_comm]
    exact hbelow (hmem (List.mem_append_left _ ht)) hlt.le
  -- and no sample could have ended the stretch
  have hafter : after = [] := by
    refine List.head?_eq_none_iff.mp (Option.eq_none_iff_forall_not_mem.mpr fun y hy => ?_)
    obtain ⟨hle, hfar⟩ := h.head_lt y hy
    have hy : 0 ≤ y := hmem (by simp [List.mem_of_head? hy])
    exact hfar (near_of_abs_sub_le (hbelow hy hle))
  subst hbefore hafter
  refine ⟨p.top, stretch, by simpa using h.split, htop, fun z hz => ?_⟩
  exact (near_iff_of_le_epsilon hpos htop (hmem (by simp [hz]))).mp (h.near z hz)

/-- **The plateau of any other curve** begins and ends above zero. -/
theorem exists_active_of_not_isFaint (hne : s.ys ≠ []) (hfaint : ¬ s.IsFaint) :
    ∃ j k, s.IsActive j ∧ s.IsActive k ∧ s.plateau.first = s.x j ∧ s.plateau.last = s.x k := by
  obtain ⟨before, stretch, after, hspans⟩ := exists_spans hnonneg hne
  have htop : epsilon < s.plateau.top :=
    lt_of_not_ge fun hle => hfaint (hspans.isFaint hnonneg hle)
  have hactive {k : Nat} (hfirst : before.length ≤ k)
      (hlast : k ≤ before.length + stretch.length) : s.IsActive k := by
    obtain ⟨y, hk, hnear⟩ := hspans.exists_near hfirst hlast
    exact ⟨y, hk, pos_of_near htop (hnonneg y (List.mem_of_getElem? hk)) hnear⟩
  exact ⟨_, _, hactive le_rfl (Nat.le_add_right _ _), hactive (Nat.le_add_right _ _) le_rfl,
    hspans.first_eq, hspans.last_eq⟩

end Faint

/-! ## The middle of the maximum and the support -/

/-- **The middle of two points** lies between two others when the numbers of the
points do. -/
theorem middle_mem_iff (hstep : 0 < s.step) {j k lo hi : Nat} :
    Scalar.half * (s.x j + s.x k) ∈ Set.Icc (s.x lo) (s.x hi)
      ↔ 2 * lo ≤ j + k ∧ j + k ≤ 2 * hi := by
  have hmiddle : Scalar.half * (s.x j + s.x k) = s.x0 + s.step * ((j + k : Nat) / 2 : ℝ) := by
    rw [Real.scalar_half, Nat.cast_add]
    show 2⁻¹ * (s.x0 + s.step * (j : ℝ) + (s.x0 + s.step * (k : ℝ))) = _
    ring
  have hlower : s.x lo ≤ Scalar.half * (s.x j + s.x k) ↔ ((2 * lo : Nat) : ℝ) ≤ (j + k : Nat) := by
    rw [hmiddle, Nat.cast_mul, Nat.cast_two]
    show s.x0 + s.step * (lo : ℝ) ≤ _ ↔ _
    rw [add_le_add_iff_left, mul_le_mul_iff_right₀ hstep, le_div_iff₀' two_pos]
  have hupper : Scalar.half * (s.x j + s.x k) ≤ s.x hi ↔ ((j + k : Nat) : ℝ) ≤ (2 * hi : Nat) := by
    rw [hmiddle, Nat.cast_mul, Nat.cast_two]
    show _ ≤ s.x0 + s.step * (hi : ℝ) ↔ _
    rw [add_le_add_iff_left, mul_le_mul_iff_right₀ hstep, div_le_iff₀' two_pos]
  rw [Set.mem_Icc, hlower, hupper, Nat.cast_le, Nat.cast_le]

/-- **The middle of the maximum lies on the support** of a curve that has an area
and is not below zero, if the curve is not faint. If it is, then the answer is the
middle of the universe, wherever the support is. -/
theorem middleOfMaximum_mem_iff (s : Samples ℝ) (hnonneg : ∀ y ∈ s.ys, 0 ≤ y) (harea : 0 < s.area)
    (hstep : 0 < s.step) :
    ∃ lo hi, IsLeast {k | s.IsActive k} lo ∧ IsGreatest {k | s.IsActive k} hi ∧
      (s.middleOfMaximum ∈ Set.Icc (s.x lo) (s.x hi) ↔
        (s.IsFaint → 2 * lo ≤ s.ys.length - 1 ∧ s.ys.length - 1 ≤ 2 * hi)) := by
  obtain ⟨lo, hi, hlo, hhi⟩ := exists_support harea
  refine ⟨lo, hi, hlo, hhi, ?_⟩
  have hmiddle : s.middleOfMaximum = Scalar.half * (s.plateau.first + s.plateau.last) :=
    if_neg (not_le_of_gt harea)
  by_cases hfaint : s.IsFaint
  · obtain ⟨hfirst, hlast⟩ := plateau_of_isFaint hnonneg hfaint
    rw [hmiddle, hfirst, hlast, middle_mem_iff hstep, Nat.zero_add, forall_prop_of_true hfaint]
  · obtain ⟨j, k, hj, hk, hfirst, hlast⟩ :=
      exists_active_of_not_isFaint hnonneg (ys_ne_nil harea) hfaint
    have hjlo : lo ≤ j := hlo.2 hj
    have hklo : lo ≤ k := hlo.2 hk
    have hjhi : j ≤ hi := hhi.2 hj
    have hkhi : k ≤ hi := hhi.2 hk
    rw [hmiddle, hfirst, hlast, middle_mem_iff hstep]
    exact iff_of_true (by omega) fun h => absurd h hfaint

/-- A curve with a weak last sample, and zeros before it. -/
noncomputable def weak : Samples ℝ := ⟨[0, 0, Scalar.half ^ 24], 0, 1⟩

theorem weak_ys : weak.ys = [0, 0, 2⁻¹ ^ 24] := by
  unfold weak
  rw [Real.scalar_half]

theorem weak_area : weak.area = 2⁻¹ ^ 24 := by
  rw [area_eq_sum, weak_ys]
  norm_num

theorem weak_nonneg : ∀ y ∈ weak.ys, 0 ≤ y := by
  rw [weak_ys]
  simp

/-- Its last sample is close enough to zero. -/
theorem weak_isFaint : weak.IsFaint := by
  refine ⟨0, [0, 2⁻¹ ^ 24], weak_ys, ?_⟩
  rw [Real.scalar_epsilon]
  norm_num

/-- It is above zero at its last point only. -/
theorem weak_isActive_iff {k : Nat} : weak.IsActive k ↔ k = 2 := by
  unfold IsActive
  rw [weak_ys]
  rcases k with _ | _ | _ | k <;> simp

/-- Its support is its last point, and the middle of its universe lies before it. -/
theorem middleOfMaximum_mem_iff_weak :
    (∀ y ∈ weak.ys, 0 ≤ y) ∧ 0 < weak.area ∧ 0 < weak.step ∧
      ¬ weak.middleOfMaximum ∈ Set.Icc (weak.x 2) (weak.x 2) := by
  have harea : 0 < weak.area := by
    rw [weak_area]
    positivity
  have hstep : 0 < weak.step := one_pos
  obtain ⟨lo, hi, hlo, hhi, hmem⟩ := middleOfMaximum_mem_iff weak weak_nonneg harea hstep
  obtain rfl : lo = 2 := weak_isActive_iff.mp hlo.1
  obtain rfl : hi = 2 := weak_isActive_iff.mp hhi.1
  refine ⟨weak_nonneg, harea, hstep, fun h => ?_⟩
  have hmiddle := (hmem.mp h weak_isFaint).1
  rw [weak_ys] at hmiddle
  exact absurd hmiddle (by decide)

/-- **The middle of the maximum leaves the support** of a curve that is weak enough:
this one is above zero at its last point only, and the answer is the point before. -/
theorem middleOfMaximum_weak :
    (∀ y ∈ weak.ys, 0 ≤ y) ∧ 0 < weak.area ∧ 0 < weak.step ∧
      IsLeast {k | weak.IsActive k} 2 ∧ weak.middleOfMaximum = weak.x 1 ∧
        weak.middleOfMaximum < weak.x 2 := by
  have harea : 0 < weak.area := by
    rw [weak_area]
    positivity
  have hmiddle : weak.middleOfMaximum = weak.x 1 := by
    obtain ⟨hfirst, hlast⟩ := plateau_of_isFaint weak_nonneg weak_isFaint
    rw [middleOfMaximum, if_neg (not_le_of_gt harea), hfirst, hlast, weak_ys, Real.scalar_half]
    simp [x, weak]
  have hnext : weak.x 1 < weak.x 2 := by simp [x, weak]
  refine ⟨weak_nonneg, harea, one_pos, ⟨weak_isActive_iff.mpr rfl, ?_⟩, hmiddle, ?_⟩
  · rintro k hk
    exact (weak_isActive_iff.mp hk).ge
  · rw [hmiddle]
    exact hnext

end Samples

end FuzzyInference
