import FuzzyInference.Scalar

/-!
# Formulas, and what they divide by

A `Formula` is an expression with branches over some scalars. It has a
value (`Formula.eval`), and it has `Formula.divisors`: the values of the
divisors in all the quotients that are formed on the way to that value,
those in a comparison included, but none from a branch that is not taken.
What is divided by cannot be seen from a value, which is why formulas are
needed where it matters.

Whatever a division by zero answers, a formula that does not divide by zero
does not depend on it (`Formula.evalWith_eq_eval`).
-/

namespace FuzzyInference

namespace Formula

/-- An operation on one scalar. -/
inductive Unary where
  /-- The opposite. -/
  | neg
  /-- The absolute value. -/
  | abs
  /-- The square root. -/
  | sqrt
  /-- The exponential function. -/
  | exp
  /-- The natural logarithm. -/
  | log
  /-- The cosine. -/
  | cos

/-- An operation on two scalars, other than the division. -/
inductive Binary where
  /-- The sum. -/
  | add
  /-- The difference. -/
  | sub
  /-- The product. -/
  | mul
  /-- The smaller one. -/
  | min
  /-- The larger one. -/
  | max
  /-- The power. -/
  | pow

variable {α : Type} [Scalar α]

/-- What an operation makes of a scalar. -/
def Unary.apply : Unary → α → α
  | neg, x => -x
  | abs, x => Scalar.abs x
  | sqrt, x => Scalar.sqrt x
  | exp, x => Scalar.exp x
  | log, x => Scalar.log x
  | cos, x => Scalar.cos x

/-- What an operation makes of two scalars. -/
def Binary.apply : Binary → α → α → α
  | add, x, y => x + y
  | sub, x, y => x - y
  | mul, x, y => x * y
  | min, x, y => Scalar.min x y
  | max, x, y => Scalar.max x y
  | pow, x, y => Scalar.pow x y

end Formula

/-- **A formula** over scalars. -/
inductive Formula (α : Type) where
  /-- A scalar that is there. -/
  | scalar (x : α)
  /-- An operation on one value. -/
  | unary (op : Formula.Unary) (f : Formula α)
  /-- An operation on two values. -/
  | binary (op : Formula.Binary) (f g : Formula α)
  /-- A quotient. -/
  | quotient (f g : Formula α)
  /-- One of two, depending on whether something is below something else. -/
  | ifLt (f g yes no : Formula α)
  /-- One of two, depending on whether something is at most something
  else. -/
  | ifLe (f g yes no : Formula α)

namespace Formula

variable {α : Type} [Scalar α]

/-- The value of a formula, with some operation for the division. -/
def evalWith (divide : α → α → α) : Formula α → α
  | scalar x => x
  | unary op f => op.apply (f.evalWith divide)
  | binary op f g => op.apply (f.evalWith divide) (g.evalWith divide)
  | quotient f g => divide (f.evalWith divide) (g.evalWith divide)
  | ifLt f g yes no =>
    if f.evalWith divide < g.evalWith divide then yes.evalWith divide else no.evalWith divide
  | ifLe f g yes no =>
    if f.evalWith divide ≤ g.evalWith divide then yes.evalWith divide else no.evalWith divide

/-- **The value of a formula.** -/
def eval (f : Formula α) : α := f.evalWith (· / ·)

/-- **What a formula divides by** on the way to its value. -/
def divisors : Formula α → List α
  | scalar _ => []
  | unary _ f => f.divisors
  | binary _ f g => f.divisors ++ g.divisors
  | quotient f g => f.divisors ++ g.divisors ++ [g.eval]
  | ifLt f g yes no =>
    f.divisors ++ g.divisors ++ if f.eval < g.eval then yes.divisors else no.divisors
  | ifLe f g yes no =>
    f.divisors ++ g.divisors ++ if f.eval ≤ g.eval then yes.divisors else no.divisors

/-- **The divisors are all that matters about division**: an operation that
divides by them as the division does gives a formula the same value. -/
theorem evalWith_eq_eval {f : Formula α} {divide : α → α → α}
    (h : ∀ y ∈ f.divisors, ∀ x, divide x y = x / y) : f.evalWith divide = f.eval := by
  unfold eval
  induction f with
  | scalar x => rfl
  | unary op f ih => exact congrArg op.apply (ih h)
  | binary op f g ihf ihg =>
    obtain ⟨hf, hg⟩ := List.forall_mem_append.mp h
    simp only [evalWith, ihf hf, ihg hg]
  | quotient f g ihf ihg =>
    obtain ⟨h, hlast⟩ := List.forall_mem_append.mp h
    obtain ⟨hf, hg⟩ := List.forall_mem_append.mp h
    simp only [evalWith, ihf hf, ihg hg]
    exact hlast _ (List.mem_singleton.mpr rfl) _
  | ifLt f g yes no ihf ihg ihyes ihno =>
    obtain ⟨h, hbranch⟩ := List.forall_mem_append.mp h
    obtain ⟨hf, hg⟩ := List.forall_mem_append.mp h
    simp only [evalWith, ihf hf, ihg hg]
    split
    · next hlt => exact ihyes (by rwa [if_pos (by exact hlt)] at hbranch)
    · next hlt => exact ihno (by rwa [if_neg (by exact hlt)] at hbranch)
  | ifLe f g yes no ihf ihg ihyes ihno =>
    obtain ⟨h, hbranch⟩ := List.forall_mem_append.mp h
    obtain ⟨hf, hg⟩ := List.forall_mem_append.mp h
    simp only [evalWith, ihf hf, ihg hg]
    split
    · next hle => exact ihyes (by rwa [if_pos (by exact hle)] at hbranch)
    · next hle => exact ihno (by rwa [if_neg (by exact hle)] at hbranch)

/-! ## Writing formulas -/

instance : Zero (Formula α) := ⟨scalar 0⟩
instance : One (Formula α) := ⟨scalar 1⟩
instance : Neg (Formula α) := ⟨unary .neg⟩
instance : Add (Formula α) := ⟨binary .add⟩
instance : Sub (Formula α) := ⟨binary .sub⟩
instance : Mul (Formula α) := ⟨binary .mul⟩
instance : Div (Formula α) := ⟨quotient⟩

/-- The absolute value. -/
def abs : Formula α → Formula α := unary .abs

/-- The square root. -/
def sqrt : Formula α → Formula α := unary .sqrt

/-- The exponential function. -/
def exp : Formula α → Formula α := unary .exp

/-- The natural logarithm. -/
def log : Formula α → Formula α := unary .log

/-- The cosine. -/
def cos : Formula α → Formula α := unary .cos

/-- The smaller of two values. -/
def min : Formula α → Formula α → Formula α := binary .min

/-- The larger of two values. -/
def max : Formula α → Formula α → Formula α := binary .max

/-- A power. -/
def pow : Formula α → Formula α → Formula α := binary .pow

section Evaluation

variable (f g : Formula α)

@[simp] theorem eval_scalar (x : α) : (scalar x).eval = x := rfl

@[simp] theorem eval_zero : (0 : Formula α).eval = 0 := rfl

@[simp] theorem eval_one : (1 : Formula α).eval = 1 := rfl

@[simp] theorem eval_neg : (-f).eval = -f.eval := rfl

@[simp] theorem eval_add : (f + g).eval = f.eval + g.eval := rfl

@[simp] theorem eval_sub : (f - g).eval = f.eval - g.eval := rfl

@[simp] theorem eval_mul : (f * g).eval = f.eval * g.eval := rfl

@[simp] theorem eval_div : (f / g).eval = f.eval / g.eval := rfl

@[simp] theorem eval_abs : (abs f).eval = Scalar.abs f.eval := rfl

@[simp] theorem eval_exp : (exp f).eval = Scalar.exp f.eval := rfl

@[simp] theorem eval_max : (max f g).eval = Scalar.max f.eval g.eval := rfl

@[simp] theorem eval_pow : (pow f g).eval = Scalar.pow f.eval g.eval := rfl

end Evaluation

/-- Saturation in an interval. -/
def clamp (lower upper f : Formula α) : Formula α := ifLt f lower lower (ifLt upper f upper f)

/-- One of two values, depending on whether two others are near each
other. -/
def ifNear (f g yes no : Formula α) : Formula α :=
  ifLe (abs (f - g)) (scalar Scalar.epsilon * max (max (abs f) (abs g)) 1) yes no

end Formula

end FuzzyInference
