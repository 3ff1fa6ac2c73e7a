import FuzzyInference.Proofs.Norm.Exact
import FuzzyInference.Proofs.Controller.Configured

/-!
# The laws of the norms

A system takes only some norms for each of its purposes (`Norms.choose?`), and
this module proves that they are the right ones (`Norms.lawful_of_choose?`). In
exact arithmetic a norm that is taken for `and` or for implication is a t-norm
between degrees, and one that is taken for `or` or for aggregation is an
s-norm: it makes a degree of two degrees, is commutative, associative and
monotone, and has the two degrees of its kind, of which one changes nothing and
the other one swallows everything (`Norm.Lawful`). A norm that is not taken
for a purpose is none of the kind, because the degree that would have to change
nothing changes something.

The laws of the larger of two degrees and of the probabilistic sum are those of
the smaller and of the product, seen through complements
(`Norm.IsDual.lawful`). The bounded sum has no dual among the norms. Its
saturation could spoil associativity, and does not, because a sum that has been
cut to one stays there.
-/

namespace FuzzyInference

namespace Norm

variable {n m : Norm} {unit absorber : ℝ}

/-- **The laws of a norm** between degrees, with the degree that is its unit and
the one that absorbs all others. -/
structure Lawful (n : Norm) (unit absorber : ℝ) : Prop where
  /-- It makes a degree of degrees. -/
  isDegree {a b : ℝ} : IsDegree a → IsDegree b → IsDegree (n.apply a b)
  /-- It is commutative. -/
  comm {a b : ℝ} : IsDegree a → IsDegree b → n.apply a b = n.apply b a
  /-- It is associative. -/
  assoc {a b c : ℝ} : IsDegree a → IsDegree b → IsDegree c →
    n.apply (n.apply a b) c = n.apply a (n.apply b c)
  /-- It is monotone in each argument. -/
  mono {a a' b b' : ℝ} : IsDegree a → IsDegree a' → IsDegree b → IsDegree b' →
    a ≤ a' → b ≤ b' → n.apply a b ≤ n.apply a' b'
  /-- One degree changes nothing. -/
  apply_unit {a : ℝ} : IsDegree a → n.apply unit a = a
  /-- Another one swallows everything. -/
  apply_absorber {a : ℝ} : IsDegree a → n.apply absorber a = absorber

/-! ## T-norms -/

theorem lawful_minimum : minimum.Lawful 1 0 where
  isDegree _ _ := isDegree_apply _ _ _
  comm ha hb := by rw [apply_minimum ha hb, apply_minimum hb ha, min_comm]
  assoc ha hb hc := by
    rw [apply_minimum (isDegree_apply _ _ _) hc, apply_minimum ha (isDegree_apply _ _ _),
      apply_minimum ha hb, apply_minimum hb hc, min_assoc]
  mono ha ha' hb hb' hle hle' := by
    rw [apply_minimum ha hb, apply_minimum ha' hb']
    exact min_le_min hle hle'
  apply_unit ha := by rw [apply_minimum .one ha, min_eq_right ha.2]
  apply_absorber ha := by rw [apply_minimum .zero ha, min_eq_left ha.1]

theorem lawful_product : product.Lawful 1 0 where
  isDegree _ _ := isDegree_apply _ _ _
  comm ha hb := by rw [apply_product ha hb, apply_product hb ha, mul_comm]
  assoc ha hb hc := by
    rw [apply_product (isDegree_apply _ _ _) hc, apply_product ha (isDegree_apply _ _ _),
      apply_product ha hb, apply_product hb hc, mul_assoc]
  mono ha ha' hb hb' hle hle' := by
    rw [apply_product ha hb, apply_product ha' hb']
    exact mul_le_mul hle hle' hb.1 ha'.1
  apply_unit ha := by rw [apply_product .one ha, one_mul]
  apply_absorber ha := by rw [apply_product .zero ha, zero_mul]

/-! ## Duality -/

/-- **Dual norms**: what the one makes of two degrees is the complement of what
the other makes of their complements. -/
def IsDual (n m : Norm) : Prop :=
  ∀ a b : ℝ, IsDegree a → IsDegree b → m.apply a b = 1 - n.apply (1 - a) (1 - b)

theorem isDual_minimum : minimum.IsDual maximum := by
  intro a b ha hb
  rw [apply_maximum ha hb, apply_minimum ha.one_sub hb.one_sub, min_sub_sub_left,
    sub_sub_cancel]

theorem isDual_product : product.IsDual probabilisticSum := by
  intro a b ha hb
  rw [apply_probabilisticSum ha hb, apply_product ha.one_sub hb.one_sub]

namespace IsDual

/-- Duality goes both ways. -/
theorem symm (h : n.IsDual m) : m.IsDual n := by
  intro a b ha hb
  rw [h _ _ ha.one_sub hb.one_sub, sub_sub_cancel, sub_sub_cancel, sub_sub_cancel]

/-- **The laws of a norm are those of its dual**, seen through complements. -/
theorem lawful (h : n.IsDual m) (hn : n.Lawful (1 - unit) (1 - absorber)) (hunit : IsDegree unit)
    (habsorber : IsDegree absorber) : m.Lawful unit absorber where
  isDegree _ _ := isDegree_apply _ _ _
  comm ha hb := by rw [h _ _ ha hb, h _ _ hb ha, hn.comm ha.one_sub hb.one_sub]
  assoc ha hb hc := by
    rw [h _ _ (isDegree_apply _ _ _) hc, h _ _ ha (isDegree_apply _ _ _), h _ _ ha hb,
      h _ _ hb hc, sub_sub_cancel, sub_sub_cancel, hn.assoc ha.one_sub hb.one_sub hc.one_sub]
  mono ha ha' hb hb' hle hle' := by
    rw [h _ _ ha hb, h _ _ ha' hb']
    exact sub_le_sub_left (hn.mono ha'.one_sub ha.one_sub hb'.one_sub hb.one_sub
      (sub_le_sub_left hle 1) (sub_le_sub_left hle' 1)) 1
  apply_unit ha := by rw [h _ _ hunit ha, hn.apply_unit ha.one_sub, sub_sub_cancel]
  apply_absorber ha := by
    rw [h _ _ habsorber ha, hn.apply_absorber ha.one_sub, sub_sub_cancel]

end IsDual

/-! ## S-norms -/

theorem lawful_maximum : maximum.Lawful 0 1 :=
  isDual_minimum.lawful (by simpa using lawful_minimum) .zero .one

theorem lawful_probabilisticSum : probabilisticSum.Lawful 0 1 :=
  isDual_product.lawful (by simpa using lawful_product) .zero .one

theorem boundedSum_comm (a b : ℝ) : boundedSum.apply a b = boundedSum.apply b a :=
  congrArg Scalar.clampUnit (add_comm a b)

theorem lawful_boundedSum : boundedSum.Lawful 0 1 where
  isDegree _ _ := isDegree_apply _ _ _
  comm {a b} _ _ := boundedSum_comm a b
  assoc {a b c} ha hb hc := by
    calc boundedSum.apply (boundedSum.apply a b) c
        = min (b + c + a) 1 := by rw [boundedSum_apply_apply ha hb hc, add_rotate]
      _ = boundedSum.apply (boundedSum.apply b c) a := (boundedSum_apply_apply hb hc ha).symm
      _ = boundedSum.apply a (boundedSum.apply b c) := boundedSum_comm _ _
  mono ha ha' hb hb' hle hle' := by
    rw [apply_boundedSum ha hb, apply_boundedSum ha' hb']
    exact min_le_min_right 1 (add_le_add hle hle')
  apply_unit ha := by rw [apply_boundedSum .zero ha, zero_add, min_eq_left ha.2]
  apply_absorber ha := by
    rw [apply_boundedSum .one ha, min_eq_right (le_add_of_nonneg_right ha.1)]

/-! ## Fitness -/

/-- Every norm is of one kind or of the other. -/
theorem isTNorm_eq_not (n : Norm) : n.isTNorm = !n.isSNorm := by
  cases n <;> rfl

theorem lawful_of_isTNorm (h : n.isTNorm = true) : n.Lawful 1 0 := by
  cases n with
  | minimum => exact lawful_minimum
  | product => exact lawful_product
  | _ => cases h

theorem lawful_of_isSNorm (h : n.isSNorm = true) : n.Lawful 0 1 := by
  cases n with
  | maximum => exact lawful_maximum
  | probabilisticSum => exact lawful_probabilisticSum
  | boundedSum => exact lawful_boundedSum
  | _ => cases h

/-- **A norm of the other kind** has no unit where it would need one: what should
change nothing swallows everything. -/
theorem Lawful.exists_apply_ne (h : n.Lawful unit absorber) (hunit : IsDegree unit)
    (hne : unit ≠ absorber) : ∃ a, IsDegree a ∧ n.apply absorber a ≠ a :=
  ⟨unit, hunit, fun heq => hne ((h.apply_absorber hunit).symm.trans heq).symm⟩

theorem exists_apply_one_ne (h : n.isTNorm = false) : ∃ a, IsDegree a ∧ n.apply 1 a ≠ a :=
  (lawful_of_isSNorm (by simpa [isTNorm_eq_not] using h)).exists_apply_ne .zero zero_ne_one

theorem exists_apply_zero_ne (h : n.isSNorm = false) : ∃ a, IsDegree a ∧ n.apply 0 a ≠ a :=
  (lawful_of_isTNorm (by simp [isTNorm_eq_not, h])).exists_apply_ne .one one_ne_zero

end Norm

namespace Norms

/-- **The norms that a system takes for a purpose are those of the kind that the
purpose asks for.** For `and` and for implication these are the smaller of two
degrees and the product, which are t-norms; for `or` and for aggregation they
are the larger, the probabilistic sum and the bounded sum, which are s-norms.
Each one that is not taken breaks the law of the unit. The larger is dual to
the smaller, and the probabilistic sum to the product. -/
theorem lawful_of_choose? (n : Norms) (op : Norm) :
    (∀ purpose ∈ [Setting.and, .implication],
      ((n.choose? (purpose op)).isSome ↔ op ∈ [Norm.minimum, .product]) ∧
        ((n.choose? (purpose op)).isSome → op.Lawful 1 0) ∧
        (n.choose? (purpose op) = none → ∃ a, IsDegree a ∧ op.apply 1 a ≠ a)) ∧
      (∀ purpose ∈ [Setting.or, .aggregation],
        ((n.choose? (purpose op)).isSome ↔ op ∈ [Norm.maximum, .probabilisticSum, .boundedSum]) ∧
          ((n.choose? (purpose op)).isSome → op.Lawful 0 1) ∧
          (n.choose? (purpose op) = none → ∃ a, IsDegree a ∧ op.apply 0 a ≠ a)) ∧
      Norm.minimum.IsDual .maximum ∧ Norm.maximum.IsDual .minimum ∧
      Norm.product.IsDual .probabilisticSum ∧ Norm.probabilisticSum.IsDual .product := by
  have hchoose {taken : Option Norms} {fit : Bool} {change : Norms}
      (h : taken = if fit then some change else none) :
      (taken.isSome ↔ fit = true) ∧ (taken = none ↔ fit = false) := by
    rw [h]
    cases fit <;> simp
  refine ⟨fun purpose hpurpose => ?_, fun purpose hpurpose => ?_, Norm.isDual_minimum,
    Norm.isDual_minimum.symm, Norm.isDual_product, Norm.isDual_product.symm⟩
  · obtain ⟨htaken, hrefused⟩ : ((n.choose? (purpose op)).isSome ↔ op.isTNorm = true) ∧
        (n.choose? (purpose op) = none ↔ op.isTNorm = false) := by
      rcases List.mem_pair.mp hpurpose with rfl | rfl <;> exact hchoose rfl
    exact ⟨htaken.trans Norm.isTNorm_iff, fun h => Norm.lawful_of_isTNorm (htaken.mp h),
      fun h => Norm.exists_apply_one_ne (hrefused.mp h)⟩
  · obtain ⟨htaken, hrefused⟩ : ((n.choose? (purpose op)).isSome ↔ op.isSNorm = true) ∧
        (n.choose? (purpose op) = none ↔ op.isSNorm = false) := by
      rcases List.mem_pair.mp hpurpose with rfl | rfl <;> exact hchoose rfl
    exact ⟨htaken.trans Norm.isSNorm_iff, fun h => Norm.lawful_of_isSNorm (htaken.mp h),
      fun h => Norm.exists_apply_zero_ne (hrefused.mp h)⟩

/-- **The norms for uniting conclusions**: the bounded sum can be chosen and is
lawful, and the product cannot, as it makes zero of zero and one. -/
theorem lawful_of_choose?_aggregation :
    (initial.choose? (.aggregation .boundedSum)).isSome ∧ Norm.boundedSum.Lawful 0 1 ∧
      initial.choose? (.aggregation .product) = none ∧
      ∃ a, IsDegree a ∧ Norm.product.apply 0 a ≠ a := by
  obtain ⟨-, htaken, -⟩ := lawful_of_choose? initial .boundedSum
  obtain ⟨-, hrefused, -⟩ := lawful_of_choose? initial .product
  exact ⟨rfl, (htaken .aggregation (by simp)).2.1 rfl, rfl,
    (hrefused .aggregation (by simp)).2.2 rfl⟩

end Norms

end FuzzyInference
