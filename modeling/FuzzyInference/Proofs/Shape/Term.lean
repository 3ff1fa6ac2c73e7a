import FuzzyInference.Shape.Term

/-!
# Terms that have their coefficients

A shape has a value on every list of coefficients that is long enough for
it (`Shape.exists_eval?` and the lemmas beside it), and so a term with
enough of them has a degree at every value, and a conclusion at all inputs
and at every strength. A term is said to be `Term.Supplied` then.
-/

namespace FuzzyInference

variable {α : Type} [Scalar α]

namespace Shape

/-- **A shape has a degree** on enough coefficients. -/
theorem exists_eval? {shape : Shape} {p : List α} {inputs : Nat}
    (h : shape.coefficientCount inputs ≤ p.length) (x : α) : ∃ y, shape.eval? x p = some y := by
  match p with
  | [] => cases shape <;> first | exact ⟨_, rfl⟩ | exact absurd h (by simp [coefficientCount])
  | [a] => cases shape <;> first | exact ⟨_, rfl⟩ | exact absurd h (by simp [coefficientCount])
  | [a, b] => cases shape <;> first | exact ⟨_, rfl⟩ | exact absurd h (by simp [coefficientCount])
  | [a, b, c] =>
    cases shape <;> first | exact ⟨_, rfl⟩ | exact absurd h (by simp [coefficientCount])
  | a :: b :: c :: d :: p => cases shape <;> exact ⟨_, rfl⟩

/-- Every shape needs a coefficient. -/
theorem coefficientCount_pos (shape : Shape) (inputs : Nat) :
    0 < shape.coefficientCount inputs := by
  cases shape <;> exact Nat.succ_pos _

/-- A shape has a Sugeno conclusion on enough coefficients. -/
theorem exists_sugeno? {shape : Shape} {p : List α} {inputs : Nat}
    (h : shape.coefficientCount inputs ≤ p.length) (values : List α) :
    ∃ y, shape.sugeno? values p = some y := by
  cases p with
  | nil => exact absurd h (Nat.not_le_of_lt (shape.coefficientCount_pos inputs))
  | cons a p => cases shape <;> exact ⟨_, rfl⟩

/-- An inverse has a point on enough coefficients. -/
theorem exists_inverse? {ramp : Ramp} {p : List α} {inputs : Nat}
    (h : (inverse ramp).coefficientCount inputs ≤ p.length) (degree lower upper : α) :
    ∃ y, (inverse ramp).inverse? degree lower upper p = some y := by
  match p, h with
  | a :: b :: p, _ => exact ⟨_, rfl⟩

/-- A shape that plays the Tsukamoto part is an inverse. -/
theorem eq_inverse_of_part {shape : Shape} (h : shape.part = .tsukamoto) :
    ∃ ramp, shape = .inverse ramp := by
  cases shape with
  | inverse ramp => exact ⟨ramp, rfl⟩
  | _ => cases h

end Shape

namespace Term

/-- **Whether a term has coefficients enough** for a system with so many
inputs. A function of the user's own takes any. -/
def Supplied (inputs : Nat) (t : Term α) : Prop :=
  ∀ shape, t.profile = .builtin shape → shape.coefficientCount inputs ≤ t.coefficients.length

variable {t : Term α} {inputs : Nat}

/-- **A supplied term has a degree** at every value. -/
theorem exists_degree? (h : t.Supplied inputs) (x lower upper : α) :
    ∃ y, t.degree? x lower upper = some y := by
  unfold degree?
  cases hp : t.profile with
  | custom curve => exact ⟨_, rfl⟩
  | builtin shape =>
    obtain ⟨y, hy⟩ := Shape.exists_eval? (h shape hp) x
    exact ⟨_, congrArg (Option.map (t.height * ·)) hy⟩

/-- A supplied term has a Sugeno conclusion at all inputs. -/
theorem exists_sugeno? (h : t.Supplied inputs) (values : List α) (lower upper : α) :
    ∃ y, t.sugeno? values lower upper = some y := by
  unfold sugeno?
  cases hp : t.profile with
  | custom curve => exact ⟨_, rfl⟩
  | builtin shape => exact Shape.exists_sugeno? (h shape hp) values

/-- A supplied term that plays the Tsukamoto part has a conclusion at every
strength. -/
theorem exists_tsukamoto? (h : t.Supplied inputs)
    (hpart : ∀ shape, t.profile = .builtin shape → shape.part = .tsukamoto)
    (strength : α) (values : List α) (lower upper : α) :
    ∃ y, t.tsukamoto? strength values lower upper = some y := by
  unfold tsukamoto?
  cases hp : t.profile with
  | custom curve => exact ⟨_, rfl⟩
  | builtin shape =>
    obtain ⟨ramp, rfl⟩ := Shape.eq_inverse_of_part (hpart shape hp)
    exact Shape.exists_inverse? (h _ hp) strength lower upper

end Term

end FuzzyInference
