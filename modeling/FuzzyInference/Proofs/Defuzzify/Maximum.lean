import FuzzyInference.Proofs.Defuzzify.Plateau

/-!
# The points where a curve is highest

Three methods of defuzzification look for the top of a curve. The first and the
last point at which it is highest are found by the same pass over the points, and
the two differ in whether a sample takes over from an equal one
(`Samples.topped_foldl`).

The third method wants the middle of the first stretch at the top, and takes
samples that are near each other for equal. As long as samples that differ are not
near each other, the stretch that it finds is the one that begins at the first
highest point and ends before the first sample behind it that is not highest, and
so its middle lies between the answers of the other two
(`Samples.maximum_family`).
-/

namespace FuzzyInference

namespace Samples

variable {s : Samples ℝ}

/-! ## The first and the last top -/

section Top

variable {before after : List ℝ} {top : ℝ}

/-- A sample that none before it exceeds, and none behind it, is the greatest. -/
theorem forall_le_of_split (hys : s.ys = before ++ top :: after) (hbefore : ∀ y ∈ before, y ≤ top)
    (hafter : ∀ y ∈ after, y ≤ top) : ∀ y ∈ s.ys, y ≤ top := by
  intro y hy
  rw [hys] at hy
  rcases List.mem_append.mp hy with hy | hy
  · exact hbefore y hy
  · rcases List.mem_cons.mp hy with rfl | hy
    · exact le_rfl
    · exact hafter y hy

/-- A sample that nothing before it comes up to, and nothing behind it exceeds, is
at **the first point** where the curve is highest. -/
theorem isLeast_isHighest (hys : s.ys = before ++ top :: after) (hbefore : ∀ y ∈ before, y < top)
    (hafter : ∀ y ∈ after, y ≤ top) : IsLeast {k | s.IsHighest k} before.length := by
  have htop : s.ys[before.length]? = some top := by simp [hys]
  constructor
  · exact ⟨top, htop, forall_le_of_split hys (fun y hy => (hbefore y hy).le) hafter⟩
  · rintro k ⟨y, hk, hhighest⟩
    by_contra hlt
    rw [hys, List.getElem?_append_left (not_le.mp hlt)] at hk
    have hle : top ≤ y := hhighest top (List.mem_of_getElem? htop)
    exact absurd hle (not_le_of_gt (hbefore y (List.mem_of_getElem? hk)))

/-- A sample that nothing before it exceeds, and nothing behind it comes up to, is
at **the last point** where the curve is highest. -/
theorem isGreatest_isHighest (hys : s.ys = before ++ top :: after)
    (hbefore : ∀ y ∈ before, y ≤ top) (hafter : ∀ y ∈ after, y < top) :
    IsGreatest {k | s.IsHighest k} before.length := by
  have htop : s.ys[before.length]? = some top := by simp [hys]
  constructor
  · exact ⟨top, htop, forall_le_of_split hys hbefore fun y hy => (hafter y hy).le⟩
  · rintro k ⟨y, hk, hhighest⟩
    by_contra hlt
    rw [hys, List.append_cons, List.getElem?_append_right (by simpa using hlt)] at hk
    have hle : top ≤ y := hhighest top (List.mem_of_getElem? htop)
    exact absurd hle (not_le_of_gt (hafter y (List.mem_of_getElem? hk)))

section Pass

variable {r : ℝ → ℝ → Prop} {front : List ℝ} {found : ℝ × ℝ} {y : ℝ}

/-- **What a pass in search of the top has found** in the part of a curve that it
has seen, when a sample takes over from the top if it is in a relation to it: a
sample that has taken over from all the samples before it, and that none behind it
has taken over from. -/
def Topped (s : Samples ℝ) (r : ℝ → ℝ → Prop) (front : List ℝ) (found : ℝ × ℝ) : Prop :=
  ∃ before after, front = before ++ found.1 :: after ∧ (∀ y ∈ before, r y found.1) ∧
    (∀ y ∈ after, ¬ r found.1 y) ∧ found.2 = s.x before.length

/-- A sample that takes over from all of them. -/
theorem topped_concat (h : ∀ z ∈ front, r z y) :
    s.Topped r (front ++ [y]) (y, s.x front.length) :=
  ⟨front, [], rfl, h, fun _ hz => absurd hz List.not_mem_nil, rfl⟩

/-- A sample that does not take over. -/
theorem Topped.keep (h : s.Topped r front found) (hy : ¬ r found.1 y) :
    s.Topped r (front ++ [y]) found := by
  obtain ⟨before, after, rfl, hbefore, hafter, hbest⟩ := h
  refine ⟨before, after ++ [y], by simp, hbefore, fun z hz => ?_, hbest⟩
  rcases List.mem_append.mp hz with hz | hz
  · exact hafter z hz
  · exact List.mem_singleton.mp hz ▸ hy

/-- A sample that takes over from the top takes over from all of them. -/
theorem Topped.forall_of_rel [IsTrans ℝ r] (hcompare : ∀ {x y} z, r x y → r x z ∨ r z y)
    (h : s.Topped r front found) (hy : r found.1 y) : ∀ z ∈ front, r z y := by
  obtain ⟨before, after, rfl, hbefore, hafter, -⟩ := h
  intro z hz
  rcases List.mem_append.mp hz with hz | hz
  · exact IsTrans.trans _ _ _ (hbefore z hz) hy
  · rcases List.mem_cons.mp hz with rfl | hz
    · exact hy
    · exact (hcompare z hy).resolve_left (hafter z hz)

/-- **A pass in search of the top** finds it, on a curve that has samples. -/
theorem topped_foldl [DecidableRel r] [IsTrans ℝ r] (hcompare : ∀ {x y} z, r x y → r x z ∨ r z y)
    (hne : s.ys ≠ []) (hbelow : ∀ y ∈ s.ys, r underneath y) :
    s.Topped r s.ys (s.points.foldl
      (fun (top, best) (x, y) => if r top y then (y, x) else (top, best))
      (underneath, s.x 0)) := by
  refine (s.foldl_points_induction (P := fun front found =>
    front = [] ∧ found.1 = underneath ∨ s.Topped r front found) (.inl ⟨rfl, rfl⟩)
    fun front y rest found hys hfront => .inr ?_).resolve_left fun h => hne h.1
  have hy : y ∈ s.ys := hys ▸ List.mem_append_right front List.mem_cons_self
  show s.Topped r (front ++ [y]) (if r found.1 y then (y, s.x front.length) else found)
  split
  · next hover =>
    rcases hfront with ⟨rfl, -⟩ | hfront
    · exact topped_concat fun z hz => absurd hz List.not_mem_nil
    · exact topped_concat (hfront.forall_of_rel hcompare hover)
  · next hkeep =>
    rcases hfront with ⟨-, htop⟩ | hfront
    · exact absurd (htop ▸ hbelow y hy) hkeep
    · exact hfront.keep hkeep

end Pass

section Extremes

variable (hnonneg : ∀ y ∈ s.ys, 0 ≤ y) (harea : 0 < s.area)

include hnonneg harea

/-- **The smallest of the maximum** is the first point where the curve is
highest. -/
theorem exists_smallestOfMaximum_eq :
    ∃ first, IsLeast {k | s.IsHighest k} first ∧ s.smallestOfMaximum = s.x first := by
  have hcompare {x y : ℝ} (z : ℝ) (h : x < y) : x < z ∨ z < y :=
    (lt_or_ge x z).imp_right fun hz => hz.trans_lt h
  obtain ⟨before, after, hys, hbefore, hafter, hbest⟩ := topped_foldl hcompare
    (ys_ne_nil harea) fun y hy => underneath_lt (hnonneg y hy)
  refine ⟨before.length, isLeast_isHighest hys hbefore fun y hy => not_lt.mp (hafter y hy), ?_⟩
  exact (if_neg (not_le_of_gt harea)).trans hbest

/-- **The largest of the maximum** is the last one. -/
theorem exists_largestOfMaximum_eq :
    ∃ last, IsGreatest {k | s.IsHighest k} last ∧ s.largestOfMaximum = s.x last := by
  have hcompare {x y : ℝ} (z : ℝ) (h : x ≤ y) : x ≤ z ∨ z ≤ y :=
    (le_total x z).imp_right fun hz => hz.trans h
  obtain ⟨before, after, hys, hbefore, hafter, hbest⟩ := topped_foldl hcompare
    (ys_ne_nil harea) fun y hy => (underneath_lt (hnonneg y hy)).le
  refine ⟨before.length, isGreatest_isHighest hys hbefore fun y hy => not_le.mp (hafter y hy), ?_⟩
  exact (if_neg (not_le_of_gt harea)).trans hbest

end Extremes

end Top

/-! ## The first stretch at the top -/

open Scalar (Near)

/-- **Samples that differ** are not near each other. -/
def IsSeparated (s : Samples ℝ) : Prop := ∀ y ∈ s.ys, ∀ z ∈ s.ys, y ≠ z → ¬ Near y z

/-- **A stretch at the top** of a curve, up to the point where it is no longer
highest. -/
structure IsStretch (s : Samples ℝ) (first stop : Nat) : Prop where
  /-- It has a point. -/
  le : first ≤ stop
  /-- The curve is highest all along. -/
  highest : ∀ k, first ≤ k → k ≤ stop → s.IsHighest k
  /-- It goes on for as long as possible. -/
  ends : ¬ s.IsHighest (stop + 1)

section Stretch

variable {p : Plateau ℝ} {before stretch after : List ℝ}

/-- **The plateau of separated samples**: what lies before it is below the top, the
stretch is at the top, what lies behind does not exceed it, and the first sample of
that is below. -/
theorem Plateau.Spans.of_isSeparated (h : p.Spans s s.ys before stretch after)
    (hsep : s.IsSeparated) :
    (∀ y ∈ before, y < p.top) ∧ (∀ y ∈ stretch, y = p.top) ∧ (∀ y ∈ after, y ≤ p.top) ∧
      ∀ y ∈ after.head?, y < p.top := by
  have htop : p.top ∈ s.ys := by rw [h.split]; simp
  have heq {y t : ℝ} (hy : y ∈ s.ys) (ht : t ∈ s.ys) (hnear : Near y t) : y = t :=
    by_contra fun hne => hsep y hy t ht hne hnear
  have hbefore {y : ℝ} (hy : y ∈ before) : y ∈ s.ys := by rw [h.split]; simp [hy]
  have hstretch {y : ℝ} (hy : y ∈ stretch) : y ∈ s.ys := by rw [h.split]; simp [hy]
  have hafter {y : ℝ} (hy : y ∈ after) : y ∈ s.ys := by rw [h.split]; simp [hy]
  refine ⟨fun y hy => ?_, fun y hy => heq (hstretch hy) htop (h.near y hy), fun y hy => ?_,
    fun y hy => ?_⟩
  · obtain ⟨t, ht, hle | hnear, hlt, -⟩ := h.before_lt y hy
    · exact hle.trans_lt hlt
    · exact heq (hbefore hy) (hbefore ht) hnear ▸ hlt
  · rcases h.after_le y hy with hle | hnear
    · exact hle
    · exact (heq (hafter hy) htop hnear).le
  · obtain ⟨hle, hfar⟩ := h.head_lt y hy
    exact lt_of_le_of_ne hle fun hy => hfar (hy ▸ near_self _)

/-- **Where the first stretch at the top lies.** -/
theorem isStretch_of_split {top : ℝ} (hys : s.ys = before ++ top :: (stretch ++ after))
    (hle : ∀ y ∈ s.ys, y ≤ top) (hstretch : ∀ y ∈ stretch, y = top)
    (hhead : ∀ y ∈ after.head?, y < top) :
    s.IsStretch before.length (before.length + stretch.length) where
  le := Nat.le_add_right _ _
  highest k hfirst hlast := by
    obtain ⟨y, hy, hk⟩ := exists_getElem?_stretch top after hfirst hlast
    refine ⟨top, ?_, hle⟩
    rw [hys, hk]
    rcases List.mem_cons.mp hy with rfl | hy
    · rfl
    · rw [hstretch y hy]
  ends := by
    rintro ⟨y, hy, hhighest⟩
    have hnext : s.ys[before.length + stretch.length + 1]? = after.head? := by
      rw [hys, List.append_cons, ← List.append_assoc, List.getElem?_append_right (by simp; omega),
        List.head?_eq_getElem?]
      congr 1
      simp
    have htop : top ≤ y := hhighest top (by simp [hys])
    exact absurd htop (not_le_of_gt (hhead y (hnext ▸ hy)))

end Stretch

/-- **The middle of the maximum** of separated samples is the middle of the first
stretch at the top. -/
theorem exists_middleOfMaximum_eq (hnonneg : ∀ y ∈ s.ys, 0 ≤ y) (harea : 0 < s.area)
    (hsep : s.IsSeparated) :
    ∃ first stop, IsLeast {k | s.IsHighest k} first ∧ s.IsStretch first stop ∧
      s.middleOfMaximum = Scalar.half * (s.x first + s.x stop) := by
  obtain ⟨before, stretch, after, hspans⟩ := exists_spans hnonneg (ys_ne_nil harea)
  obtain ⟨hbefore, hstretch, hafter, hhead⟩ := hspans.of_isSeparated hsep
  have hbehind : ∀ y ∈ stretch ++ after, y ≤ s.plateau.top := by
    intro y hy
    rcases List.mem_append.mp hy with hy | hy
    · exact (hstretch y hy).le
    · exact hafter y hy
  have hle := forall_le_of_split hspans.split (fun y hy => (hbefore y hy).le) hbehind
  refine ⟨_, _, isLeast_isHighest hspans.split hbefore hbehind,
    isStretch_of_split hspans.split hle hstretch hhead, ?_⟩
  rw [middleOfMaximum, if_neg (not_le_of_gt harea), hspans.first_eq, hspans.last_eq]

/-- **The points where a curve is highest**, for a curve that has an area and is not
below zero. The smallest of the maximum is the first of them, and the largest is the
last one. If samples that differ are not near each other, the middle is that of the
stretch that begins at the first one, whatever comes behind, and it lies between the
other two. -/
theorem maximum_family (s : Samples ℝ) (hnonneg : ∀ y ∈ s.ys, 0 ≤ y) (harea : 0 < s.area)
    (hstep : 0 ≤ s.step) :
    ∃ first last, IsLeast {k | s.IsHighest k} first ∧ IsGreatest {k | s.IsHighest k} last ∧
      s.smallestOfMaximum = s.x first ∧ s.largestOfMaximum = s.x last ∧
        (s.IsSeparated → ∃ stop, s.IsStretch first stop ∧
          s.middleOfMaximum = Scalar.half * (s.x first + s.x stop) ∧
            s.smallestOfMaximum ≤ s.middleOfMaximum ∧
              s.middleOfMaximum ≤ s.largestOfMaximum) := by
  obtain ⟨first, hfirst, hsmallest⟩ := exists_smallestOfMaximum_eq hnonneg harea
  obtain ⟨last, hlast, hlargest⟩ := exists_largestOfMaximum_eq hnonneg harea
  refine ⟨first, last, hfirst, hlast, hsmallest, hlargest, fun hsep => ?_⟩
  obtain ⟨start, stop, hstart, hstretch, hmiddle⟩ :=
    exists_middleOfMaximum_eq hnonneg harea hsep
  obtain rfl : first = start := hfirst.unique hstart
  have hstop : stop ≤ last := hlast.2 (hstretch.highest stop hstretch.le le_rfl)
  have hbegins : s.x first ≤ s.x stop := x_le_x hstep hstretch.le
  have hends : s.x stop ≤ s.x last := x_le_x hstep hstop
  refine ⟨stop, hstretch, hmiddle, ?_, ?_⟩
  · rw [hsmallest, hmiddle, Real.scalar_half]
    linarith
  · rw [hlargest, hmiddle, Real.scalar_half]
    linarith

/-- A curve with two stretches at the top, with a dip between them. -/
def twin : Samples ℝ := ⟨[0, 1, 1, 0, 1], 0, 1⟩

/-- The middle of the first stretch lies between two of its points, and the largest of
the maximum is the point of the second one. -/
theorem maximum_family_twin :
    (∀ y ∈ twin.ys, 0 ≤ y) ∧ 0 < twin.area ∧ 0 ≤ twin.step ∧ twin.IsSeparated ∧
      ∃ first last, IsLeast {k | twin.IsHighest k} first ∧
        IsGreatest {k | twin.IsHighest k} last ∧ twin.smallestOfMaximum = twin.x first ∧
          twin.largestOfMaximum = twin.x last ∧ ∃ stop, twin.IsStretch first stop ∧
            twin.middleOfMaximum = Scalar.half * (twin.x first + twin.x stop) ∧
              first < stop ∧ stop < last := by
  have hys : twin.ys = [0, 1, 1, 0, 1] := rfl
  have hnonneg : ∀ y ∈ twin.ys, 0 ≤ y := by
    rw [hys]
    simp
  have harea : 0 < twin.area := by
    rw [area_eq_sum, hys]
    norm_num
  have hsep : twin.IsSeparated := by
    have hmem {y : ℝ} (hy : y ∈ twin.ys) : y = 0 ∨ y = 1 := by
      rw [hys] at hy
      simp only [List.mem_cons, List.not_mem_nil, or_false] at hy
      tauto
    intro y hy z hz hne hnear
    have hdistance := Real.near_iff.mp hnear
    rcases hmem hy with rfl | rfl
    · obtain rfl := (hmem hz).resolve_left hne.symm
      norm_num at hdistance
    · obtain rfl := (hmem hz).resolve_right hne.symm
      norm_num at hdistance
  have hhighest {k : Nat} : twin.IsHighest k ↔ k = 1 ∨ k = 2 ∨ k = 4 := by
    unfold IsHighest
    rw [hys]
    rcases k with _ | _ | _ | _ | _ | k <;> simp
  obtain ⟨first, last, hfirst, hlast, hsmallest, hlargest, hmiddle⟩ :=
    maximum_family twin hnonneg harea zero_le_one
  obtain ⟨stop, hstretch, hmiddle, -, -⟩ := hmiddle hsep
  obtain rfl : first = 1 := hfirst.unique ⟨hhighest.mpr (by simp), fun k hk => by
    have := hhighest.mp hk
    omega⟩
  obtain rfl : last = 4 := hlast.unique ⟨hhighest.mpr (by simp), fun k hk => by
    have := hhighest.mp hk
    omega⟩
  have hle : stop ≤ 2 := by
    by_contra hlt
    have := hhighest.mp (hstretch.highest 3 (by omega) (by omega))
    omega
  have hone : stop ≠ 1 := by
    rintro rfl
    exact hstretch.ends (hhighest.mpr (by simp))
  have hfirst_le := hstretch.le
  exact ⟨hnonneg, harea, zero_le_one, hsep, 1, 4, hfirst, hlast, hsmallest, hlargest, stop,
    hstretch, hmiddle, by omega, by omega⟩

end Samples

end FuzzyInference
