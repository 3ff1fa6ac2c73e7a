/-!
# Decimal numerals

A **decimal** is a whole number of units of some power of ten. Its digits
are written out by `Decimal.positional` as the digits before and after
the decimal point; how many of them a number deserves is the matter of
`FuzzyInference.Decimal.Shortest`.
-/

namespace FuzzyInference

/-- A decimal digit. -/
abbrev Digit := Fin 10

namespace Digit

/-- The character a digit is written with. -/
def char (d : Digit) : Char := Nat.digitChar d

/-- The digit a character stands for. -/
def ofChar? (c : Char) : Option Digit :=
  if h : '0' ≤ c ∧ c ≤ '9' then
    some ⟨c.toNat - 48, by
      have h₂ : c.toNat ≤ 57 := h.2
      omega⟩
  else none

/-- The digits of a natural number, most significant first. Zero has the
one digit `0`. -/
def ofNat (n : Nat) : List Digit :=
  if n < 10 then [Fin.ofNat 10 n] else ofNat (n / 10) ++ [Fin.ofNat 10 (n % 10)]

/-- The natural number a list of digits denotes, most significant
first. -/
def toNat (ds : List Digit) : Nat := ds.foldl (fun (n : Nat) d => 10 * n + d.val) 0

/-- The text of a list of digits. -/
def text (ds : List Digit) : String := String.ofList (ds.map char)

/-- The digit zero. -/
def zero : Digit := 0

end Digit

/-- **A decimal**: `significand · 10 ^ exponent`. -/
structure Decimal where
  /-- How many units. -/
  significand : Nat
  /-- The power of ten that is the unit. -/
  exponent : Int
deriving DecidableEq, Repr

namespace Decimal

/-- The same decimal with the largest unit: no zero ends the
significand, unless it is zero itself. -/
def normalize (d : Decimal) : Decimal :=
  if d.significand ≠ 0 ∧ d.significand % 10 = 0 then
    normalize ⟨d.significand / 10, d.exponent + 1⟩
  else d
termination_by d.significand
decreasing_by omega

/-- The power of ten of the leading digit. -/
def magnitude (d : Decimal) : Int :=
  d.exponent + ((Digit.ofNat d.significand).length - 1 : Int)

/-- **Positional writing**: the digits before the decimal point, at least
one of them, and the digits after it. -/
def positional (d : Decimal) : List Digit × List Digit :=
  let digits := Digit.ofNat d.significand
  match d.exponent with
  | .ofNat zeros => (digits ++ List.replicate zeros 0, [])
  | .negSucc k =>
    let places := k + 1
    if places < digits.length then digits.splitAt (digits.length - places)
    else ([0], List.replicate (places - digits.length) 0 ++ digits)

end Decimal

end FuzzyInference
