import FuzzyInference.Proofs.Scalar.Order

/-!
# Numbers among the scalars

A scalar need not be a number, and one that is not is neither below nor at
most anything. `Scalar.IsLinear` asks that this be the only exception: any
two numbers can be compared. It follows that saturation does what it is
for, and leaves a number between the ends of the interval
(`Scalar.clamp_mem`).

The single-precision numbers have this order. It is read off the
comparison that they are defined by, which has four answers: it is
antisymmetric (`Single.compare_swap`), and there is no answer exactly for
what is not a number (`Single.compare_eq_none_iff`). What is finite in the
sense of `Scalar.IsFinite` is finite in the sense of the format
(`Single.isFinite_iff`).
-/

namespace FuzzyInference

/-- **Scalars of which the numbers are linearly ordered.** -/
class Scalar.IsLinear (α : Type) [Scalar α] : Prop extends Scalar.IsOrdered α where
  /-- Only numbers are at most anything. -/
  number_of_le : ∀ {x y : α}, x ≤ y → x ≤ x ∧ y ≤ y
  /-- Any two numbers can be compared. -/
  le_of_not_lt : ∀ {x y : α}, x ≤ x → y ≤ y → ¬ x < y → y ≤ x
  /-- What is finite is a number. -/
  number_of_isFinite : ∀ {x : α}, Scalar.IsFinite x → x ≤ x
  /-- The unit interval is an interval. -/
  zero_le_one : (0 : α) ≤ 1
  /-- So is the interval of what is at most one half. -/
  neg_half_le_half : -(Scalar.half : α) ≤ Scalar.half

namespace Scalar

variable {α : Type} [Scalar α] [IsLinear α]

/-- **A saturated number** lies in the interval. -/
theorem clamp_mem {lower upper x : α} (h : lower ≤ upper) (hx : x ≤ x) :
    lower ≤ clamp lower upper x ∧ clamp lower upper x ≤ upper := by
  obtain ⟨hlower, hupper⟩ := IsLinear.number_of_le h
  unfold clamp
  split
  · exact ⟨hlower, h⟩
  · next hbelow =>
    split
    · exact ⟨h, hupper⟩
    · next habove =>
      exact ⟨IsLinear.le_of_not_lt hx hlower hbelow, IsLinear.le_of_not_lt hupper hx habove⟩

/-- A number that is saturated in the unit interval lies there. -/
theorem clampUnit_mem {x : α} (hx : x ≤ x) : 0 ≤ clampUnit x ∧ clampUnit x ≤ 1 :=
  clamp_mem IsLinear.zero_le_one hx

end Scalar

/-! ## The single-precision numbers -/

namespace Single

open Float.Model (UnpackedFloat)

/-- **Comparing the other way round** gives the opposite answer. -/
theorem compare_swap (x y : UnpackedFloat) : y.compare x = (x.compare y).map Ordering.swap := by
  have hfinite (m n : Nat) (d e : Int) :
      (compare e d).then (compare n m) = ((compare d e).then (compare m n)).swap := by
    rw [Ordering.swap_then, ← Std.OrientedCmp.eq_swap, ← Std.OrientedCmp.eq_swap]
  rcases x with s | - | s | ⟨s, m, d, hm⟩ <;> rcases y with t | - | t | ⟨t, n, e, hn⟩
  -- finite numbers of one sign are compared by their sizes
  case finite.finite =>
    cases s <;> cases t
    · exact congrArg (some ·.swap) (hfinite ..)
    · rfl
    · rfl
    · exact congrArg some (hfinite ..)
  -- for all the others the signs decide
  all_goals first | rfl | (cases s <;> rfl) | (cases t <;> rfl) | (cases s <;> cases t <;> rfl)

/-- **What cannot be compared** is not a number. -/
theorem compare_eq_none_iff {x y : UnpackedFloat} :
    x.compare y = none ↔ x = .notANumber ∨ y = .notANumber := by
  constructor
  · intro h
    rcases x with s | - | s | ⟨s, m, d, hm⟩ <;> rcases y with t | - | t | ⟨t, n, e, hn⟩
    -- two numbers are compared by their signs, and then by their sizes
    all_goals first
      | exact .inl rfl
      | exact .inr rfl
      | (cases s <;> cases t <;> cases h)
  · rintro (rfl | rfl)
    · rfl
    · cases x <;> rfl

variable {x y : Float32}

theorem le_iff : x ≤ y ↔ ∃ o, x.toModel.unpack.compare y.toModel.unpack = some o ∧ o ≠ .gt := by
  have hle : x ≤ y ↔ (x.toModel.unpack.compare y.toModel.unpack).any Ordering.isLE = true :=
    ⟨of_decide_eq_true, decide_eq_true⟩
  rw [hle, Option.any_eq_true]
  exact exists_congr fun o => and_congr_right' (by cases o <;> decide)

theorem lt_iff : x < y ↔ x.toModel.unpack.compare y.toModel.unpack = some .lt :=
  ⟨fun h => eq_of_beq (of_decide_eq_true h), fun h => decide_eq_true (beq_iff_eq.mpr h)⟩

/-- The numbers are what is at most itself. -/
theorem le_self_iff : x ≤ x ↔ x.toModel.unpack ≠ .notANumber := by
  rw [le_iff]
  constructor
  · rintro ⟨o, ho, -⟩ hnan
    rw [compare_eq_none_iff.mpr (.inl hnan)] at ho
    cases ho
  · intro hnumber
    cases ho : x.toModel.unpack.compare x.toModel.unpack with
    | none => exact absurd (or_self_iff.mp (compare_eq_none_iff.mp ho)) hnumber
    | some o =>
      -- the answer is its own opposite
      have hswap := compare_swap x.toModel.unpack x.toModel.unpack
      rw [ho] at hswap
      refine ⟨o, rfl, ?_⟩
      rintro rfl
      cases hswap

/-- The difference of a number with itself is zero, if it is finite. -/
theorem sub_self (format : Float.Model.Format) (u : UnpackedFloat) :
    UnpackedFloat.sub format u u = if u.isFinite then .zero .positive else .notANumber := by
  rcases u with s | - | s | ⟨s, m, e, hm⟩
  · cases s <;> rfl
  · rfl
  · cases s <;> rfl
  · show UnpackedFloat.normalize format (_ - _) _ _ = _
    rw [Int.sub_self]
    rfl

/-- **A finite scalar** is a finite number in the sense of the format. -/
theorem isFinite_iff : Scalar.IsFinite x ↔ x.isFinite = true := by
  have hsub : x - x = .ofModel (.pack (.sub .binary32 x.toModel.unpack x.toModel.unpack)) := rfl
  show x - x ≤ x - x ↔ x.toModel.unpack.isFinite = true
  rw [hsub, sub_self]
  cases x.toModel.unpack.isFinite with
  | true => exact iff_of_true (by decide +kernel) rfl
  | false => exact iff_of_false (by decide +kernel) Bool.false_ne_true

end Single

instance : Scalar.IsLinear Float32 where
  number_of_le {x y} h := by
    obtain ⟨o, ho, -⟩ := Single.le_iff.mp h
    rw [Single.le_self_iff, Single.le_self_iff]
    constructor
    · intro hnan
      rw [Single.compare_eq_none_iff.mpr (.inl hnan)] at ho
      cases ho
    · intro hnan
      rw [Single.compare_eq_none_iff.mpr (.inr hnan)] at ho
      cases ho
  le_of_not_lt {x y} hx hy h := by
    rw [Single.le_self_iff] at hx hy
    rw [Single.lt_iff] at h
    rw [Single.le_iff, Single.compare_swap]
    cases ho : x.toModel.unpack.compare y.toModel.unpack with
    | none => exact absurd (Single.compare_eq_none_iff.mp ho) (not_or.mpr ⟨hx, hy⟩)
    | some o =>
      refine ⟨o.swap, rfl, ?_⟩
      cases o with
      | lt => exact absurd ho h
      | eq => decide
      | gt => decide
  number_of_isFinite {x} h := by
    rw [Single.le_self_iff]
    intro hnan
    have hfinite : x.toModel.unpack.isFinite = true := Single.isFinite_iff.mp h
    rw [hnan] at hfinite
    cases hfinite
  zero_le_one := by decide +kernel
  neg_half_le_half := by decide +kernel

end FuzzyInference
