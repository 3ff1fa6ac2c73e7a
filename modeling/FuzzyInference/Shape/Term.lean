import FuzzyInference.Shape.Eval

/-!
# Linguistic terms

A **linguistic term** belongs to a variable and has a profile, either a
built-in shape or a function of the user's own, with the coefficients it
is evaluated on. Its height scales the degrees it gives.
-/

namespace FuzzyInference

/-- **What a profile is evaluated at.** -/
structure Sample (α : Type) where
  /-- The value: a crisp value, a point of a universe, or a degree. -/
  x : α
  /-- The inputs of the system, where a conclusion is evaluated. -/
  inputs : List α
  /-- The lower end of the universe of the variable. -/
  lower : α
  /-- The upper end of the universe of the variable. -/
  upper : α

namespace Sample

variable {α : Type} [Scalar α]

/-- A value without a system or a universe around it. -/
def scalar (x : α) : Sample α := ⟨x, [], -Scalar.infinity, Scalar.infinity⟩

end Sample

/-- **A function of the user's own**, known by a name. -/
structure CustomCurve (α : Type) where
  /-- The name. -/
  name : String
  /-- The value at a sample, on some coefficients. -/
  value : Sample α → List α → α

namespace CustomCurve

/-- A function of the user's own as a message shows it. -/
def message {α : Type} (c : CustomCurve α) : String :=
  "CustomShape \x7b name: \"" ++ c.name ++ "\" \x7d"

end CustomCurve

/-- **A profile of a term.** -/
inductive Profile (α : Type) where
  /-- A built-in shape. -/
  | builtin (shape : Shape)
  /-- A function of the user's own. -/
  | custom (curve : CustomCurve α)

namespace Profile

/-- A profile as a message shows it. -/
def message {α : Type} : Profile α → String
  | .builtin shape => s!"Builtin({shape.title})"
  | .custom curve => "Custom(" ++ curve.message ++ ")"

end Profile

/-- **A linguistic term** bound to a variable. -/
structure Term (α : Type) where
  /-- Its profile. -/
  profile : Profile α
  /-- What the profile is evaluated on. -/
  coefficients : List α
  /-- The factor of the degrees. -/
  height : α
  /-- The number of the variable it is a term of. -/
  owner : Nat

namespace Term

variable {α : Type} [Scalar α]

/-- **The degree to which a value has the term**, scaled by the height. -/
def degree? (t : Term α) (x lower upper : α) : Option α :=
  match t.profile with
  | .builtin shape => (shape.eval? x t.coefficients).map (t.height * ·)
  | .custom curve => some (t.height * curve.value ⟨x, [], lower, upper⟩ t.coefficients)

/-- **The value of the term as a Sugeno conclusion.** -/
def sugeno? (t : Term α) (inputs : List α) (lower upper : α) : Option α :=
  match t.profile with
  | .builtin shape => shape.sugeno? inputs t.coefficients
  | .custom curve =>
    some (curve.value ⟨inputs.head?.getD 0, inputs, lower, upper⟩ t.coefficients)

/-- **The value of the term as a Tsukamoto conclusion** of a strength. -/
def tsukamoto? (t : Term α) (strength : α) (inputs : List α) (lower upper : α) : Option α :=
  match t.profile with
  | .builtin shape => shape.inverse? strength lower upper t.coefficients
  | .custom curve => some (curve.value ⟨strength, inputs, lower, upper⟩ t.coefficients)

end Term

end FuzzyInference
