import FuzzyInference.Proofs.Scalar.Exact
import FuzzyInference.Proofs.Shape.Division

/-!
# Shapes make numbers of numbers

A formula over the real numbers can be read as one over the exact scalars
(`Formula.exact`). If it is defined, then it has the same value there, and
this value is a number (`Formula.eval_exact`); if it divides by zero, it has
none. The formulas of the conventional shapes are the same formulas in both
readings, so what is known of their divisors carries over: a conventional
shape that has a width makes a number of every number
(`Shape.eval?_number`).

A function of the user's own may do with numbers what it likes. It is called
exact if it does so without leaving them (`CustomCurve.IsExact`).
-/

namespace FuzzyInference

namespace Formula

/-- **A formula over the real numbers**, read over the exact scalars. -/
def exact : Formula ℝ → Formula Exact
  | scalar x => scalar (.number x)
  | unary op f => unary op f.exact
  | binary op f g => binary op f.exact g.exact
  | quotient f g => quotient f.exact g.exact
  | ifLt f g yes no => ifLt f.exact g.exact yes.exact no.exact
  | ifLe f g yes no => ifLe f.exact g.exact yes.exact no.exact

/-- **A formula that does not divide by zero** has a number for its value. By
induction on the formula. -/
theorem eval_exact {f : Formula ℝ} (hf : f.Defined) : f.exact.eval = .number f.eval := by
  induction f with
  | scalar x => rfl
  | unary op f ih =>
    show op.apply f.exact.eval = _
    rw [ih (defined_unary.mp hf)]
    cases op <;> rfl
  | binary op f g ihf ihg =>
    obtain ⟨hf, hg⟩ := defined_binary.mp hf
    show op.apply f.exact.eval g.exact.eval = _
    rw [ihf hf, ihg hg]
    cases op with
    | min => exact Exact.number_min _ _
    | max => exact Exact.number_max _ _
    | _ => rfl
  | quotient f g ihf ihg =>
    obtain ⟨hf, hg, hne⟩ := defined_div.mp hf
    show f.exact.eval / g.exact.eval = _
    rw [ihf hf, ihg hg]
    exact Exact.number_div _ hne
  | ifLt f g yes no ihf ihg ihyes ihno =>
    obtain ⟨hf, hg, hyes, hno⟩ := defined_ifLt.mp hf
    show (if f.exact.eval < g.exact.eval then yes.exact.eval else no.exact.eval)
      = .number (if f.eval < g.eval then yes.eval else no.eval)
    rw [ihf hf, ihg hg]
    by_cases h : f.eval < g.eval
    · rw [if_pos h, if_pos (by exact h), ihyes (hyes h)]
    · rw [if_neg h, if_neg (by exact h), ihno (hno h)]
  | ifLe f g yes no ihf ihg ihyes ihno =>
    obtain ⟨hf, hg, hyes, hno⟩ := defined_ifLe.mp hf
    show (if f.exact.eval ≤ g.exact.eval then yes.exact.eval else no.exact.eval)
      = .number (if f.eval ≤ g.eval then yes.eval else no.eval)
    rw [ihf hf, ihg hg]
    by_cases h : f.eval ≤ g.eval
    · rw [if_pos h, if_pos (by exact h), ihyes (hyes h)]
    · rw [if_neg h, if_neg (by exact h), ihno (hno h)]

/-! ## The same formulas

A formula that mentions one half is the same formula over all scalars because
one half, which is a quotient, is the same number. -/

theorem exact_half : (scalar Scalar.half : Formula ℝ).exact = scalar Scalar.half :=
  congrArg scalar Exact.number_half.symm

section Halves

variable (x a b c d : Formula ℝ)

theorem exact_gaussian : (gaussian x a c).exact = gaussian x.exact a.exact c.exact := by
  unfold gaussian
  rw [← exact_half]
  rfl

theorem exact_gaussianPair :
    (gaussianPair x a b c d).exact = gaussianPair x.exact a.exact b.exact c.exact d.exact := by
  unfold gaussianPair
  rw [← exact_gaussian, ← exact_gaussian]
  rfl

theorem exact_smoothS : (smoothS x a b).exact = smoothS x.exact a.exact b.exact := by
  unfold smoothS
  rw [← exact_half]
  rfl

theorem exact_smoothZ : (smoothZ x a b).exact = smoothZ x.exact a.exact b.exact := by
  unfold smoothZ
  rw [← exact_half]
  rfl

theorem exact_pi : (pi x a b c d).exact = pi x.exact a.exact b.exact c.exact d.exact := by
  unfold pi
  rw [← exact_smoothS, ← exact_smoothZ]
  rfl

theorem exact_cosine : (cosine x a b).exact = cosine x.exact a.exact b.exact := by
  unfold cosine
  rw [← exact_half]
  rfl

end Halves

end Formula

namespace Shape

open Formula

/-- **The formula of a conventional shape** is the same over all scalars. -/
theorem exact_formula? {shape : Shape} (hpart : shape.part = .conventional) (x : Formula ℝ)
    (p : List (Formula ℝ)) :
    (shape.formula? x p).map exact = shape.formula? x.exact (p.map exact) := by
  cases shape with
  | combination => cases hpart
  | inverse ramp => cases hpart
  | gaussian =>
    match p with
    | [] | [_] => rfl
    | a :: c :: _ => exact congrArg some (exact_gaussian x a c)
  | gaussianPair =>
    match p with
    | [] | [_] | [_, _] | [_, _, _] => rfl
    | a :: b :: c :: d :: _ => exact congrArg some (exact_gaussianPair x a b c d)
  | pi =>
    match p with
    | [] | [_] | [_, _] | [_, _, _] => rfl
    | a :: b :: c :: d :: _ => exact congrArg some (exact_pi x a b c d)
  | smoothS =>
    match p with
    | [] | [_] => rfl
    | a :: b :: _ => exact congrArg some (exact_smoothS x a b)
  | smoothZ =>
    match p with
    | [] | [_] => rfl
    | a :: b :: _ => exact congrArg some (exact_smoothZ x a b)
  | cosine =>
    match p with
    | [] | [_] => rfl
    | a :: b :: _ => exact congrArg some (exact_cosine x a b)
  | _ =>
    match p with
    | [] | [_] | [_, _] | [_, _, _] | _ :: _ :: _ :: _ :: _ => rfl

/-- **A conventional shape that has a width** makes a number of every
number. -/
theorem eval?_number {shape : Shape} (hpart : shape.part = .conventional) {p : List ℝ}
    (hwidth : shape.zeroWidth? p = some false) (x : ℝ) :
    shape.eval? (Exact.number x) (p.map Exact.number) = (shape.eval? x p).map Exact.number := by
  have hscalar : (p.map Formula.scalar).map Formula.exact
      = (p.map Exact.number).map Formula.scalar := by
    rw [List.map_map, List.map_map]
    rfl
  have hreal : _ = shape.eval? x _ := shape.eval_formula? (.scalar x) (p.map .scalar)
  have hexact : _ = shape.eval? (Exact.number x) _ :=
    shape.eval_formula? (.scalar (.number x)) ((p.map Exact.number).map .scalar)
  rw [map_eval_map_scalar] at hreal hexact
  rw [← hreal, ← hexact, ← hscalar, Option.map_map]
  show Option.map _ (shape.formula? (scalar x).exact _) = _
  rw [← exact_formula? hpart, Option.map_map]
  refine Option.map_congr fun f hf => eval_exact ?_
  refine defined_formula? hpart (defined_scalar x) (Term.forall_defined_scalar p) ?_ hf
  rw [map_eval_map_scalar]
  exact hwidth

/-- Whether a shape has a width is seen alike over all scalars. -/
theorem zeroWidth?_number (shape : Shape) (p : List ℝ) :
    shape.zeroWidth? (p.map Exact.number) = shape.zeroWidth? p := by
  match p with
  | [] | [_] | [_, _] | _ :: _ :: _ :: _ => cases shape <;> rfl

end Shape

end FuzzyInference
