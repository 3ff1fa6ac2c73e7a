import FuzzyInference.Proofs.Controller.Meaning
import FuzzyInference.Proofs.Norm.Degree

/-!
# Strengths are degrees

The strength of a rule is a degree whatever its premise is, among all scalars
that have the real numbers among them (`Controller.isDegree_ruleStrength`). The
degrees of the statements and the weight of the rule have been saturated, the
norms are between degrees, and a product of degrees is one.

What cannot be saturated is something that is not a number. So the degrees and
the weights that a controller holds have to be finite (`Controller.Numeric`). Over
the real numbers they always are.
-/

namespace FuzzyInference

variable {α : Type} [Scalar α] [Scalar.HasNumbers α]

/-- **The degree to which a statement holds** is a degree. -/
theorem Cycle.isDegree_degreeOf {x : Cycle α}
    (hx : ∀ degree ∈ x.degrees, Scalar.IsFinite degree) (r : TermRef) :
    Scalar.IsDegree (x.degreeOf r) := by
  have hfinite : Scalar.IsFinite (x.degrees[r.index]?.getD 0) := by
    cases h : x.degrees[r.index]? with
    | none => exact Scalar.isFinite_zero
    | some degree => exact hx degree (List.mem_of_getElem? h)
  have hdegree := Scalar.isDegree_clampUnit_of_isFinite hfinite
  unfold degreeOf
  cases r.negated with
  | true => exact hdegree.one_sub
  | false => exact hdegree

namespace Controller

/-- **A controller of numbers**: the degrees that it has found are finite, and so
are the weights that it has been given. -/
structure Numeric (c : Controller α) : Prop where
  /-- The degrees are finite. -/
  degrees : ∀ degree ∈ c.cycle.degrees, Scalar.IsFinite degree
  /-- So are the weights. -/
  weights : ∀ ws, c.weights = some ws → ∀ w ∈ ws, Scalar.IsFinite w

/-- Over the real numbers every controller is one of numbers. -/
theorem numeric_real (c : Controller ℝ) : c.Numeric := ⟨fun _ _ => le_rfl, fun _ _ _ _ => le_rfl⟩

variable {c : Controller α} (hc : c.Numeric)

include hc

/-- **The strength of a premise** is a degree, whatever its last connective is. By
induction on the statements that are joined to the first one. -/
theorem isDegree_premiseStrength (p : Premise) : Scalar.IsDegree (c.premiseStrength p) := by
  have hfirst := Cycle.isDegree_degreeOf hc.degrees p.first.term
  refine List.foldlRecOn p.rest _ ?_ fun strength hstrength q _ =>
    Norm.isDegree_apply_of_isDegree _ hstrength (Cycle.isDegree_degreeOf hc.degrees q.2.term)
  exact Norm.isDegree_apply_of_isDegree .boundedSum .zero hfirst

/-- **A weight** is a degree. -/
theorem isDegree_weight (i : Nat) : Scalar.IsDegree (c.weight i) := by
  unfold weight
  cases hw : c.weights.bind (·[i]?) with
  | none => exact .one
  | some w =>
    obtain ⟨ws, hws, hw⟩ := Option.bind_eq_some_iff.mp hw
    exact Scalar.isDegree_clampUnit_of_isFinite (hc.weights ws hws w (List.mem_of_getElem? hw))

/-- **The strength of a rule** is a degree. -/
theorem isDegree_ruleStrength (i : Nat) (r : Rule) : Scalar.IsDegree (c.ruleStrength i r) := by
  unfold ruleStrength
  split
  · exact (isDegree_premiseStrength hc _).mul (isDegree_weight hc i)
  · exact .zero

/-- So is the strength of a conclusion. -/
theorem isDegree_of_mem_conclusionsFrom {rules : List Rule} {k : Nat} {p : Atom × α}
    (hp : p ∈ c.conclusionsFrom k rules) : Scalar.IsDegree p.2 := by
  obtain ⟨⟨r, i⟩, -, hp⟩ := List.mem_flatMap.mp hp
  obtain ⟨a, -, rfl⟩ := List.mem_map.mp hp
  exact isDegree_ruleStrength hc i r

end Controller

end FuzzyInference
