import FuzzyInference.Scalar.Single
import FuzzyInference.Decimal.Shortest

/-!
# The form of a single-precision number

A single-precision number is a sign with a finite size, or an infinity,
or not a number. `Single.form` reads this off the three fields of its bit
pattern. From it the number is written in decimal for messages:
positionally, whatever its size, and with no point after a whole number.
-/

namespace FuzzyInference

namespace Single

/-- **What a bit pattern says.** -/
inductive Form where
  /-- Not a number. -/
  | notANumber
  /-- An infinity. -/
  | infinite (negative : Bool)
  /-- One of the two zeros. -/
  | zero (negative : Bool)
  /-- A finite number that is not zero. -/
  | finite (negative : Bool) (size : Dyadic)
deriving DecidableEq, Repr

/-- **The form of a number**, read off the sign, the eight bits of the
exponent and the twenty-three of the fraction. -/
def form (x : Float32) : Form :=
  let bits := x.toBits.toNat
  let negative : Bool := bits / Nat.pow 2 31 % 2 = 1
  let exponent : Nat := bits / Nat.pow 2 23 % Nat.pow 2 8
  let fraction : Nat := bits % Nat.pow 2 23
  if exponent = 255 then
    if fraction = 0 then .infinite negative else .notANumber
  else if exponent = 0 then
    if fraction = 0 then .zero negative
    else .finite negative ⟨fraction, -149, false⟩
  else
    .finite negative
      ⟨Nat.pow 2 23 + fraction, (exponent : Int) - 150, fraction = 0 ∧ 1 < exponent⟩

/-- The sign of a number in front of a text. -/
def signed (negative : Bool) (text : String) : String :=
  if negative then "-" ++ text else text

/-- **The text of a number in a message**: the fewest digits that read
back, positionally. -/
def message (x : Float32) : String :=
  match form x with
  | .notANumber => "NaN"
  | .infinite negative => signed negative "inf"
  | .zero negative => signed negative "0"
  | .finite negative size =>
    let (whole, fraction) := (size.shortest .up).positional
    let point := if fraction.isEmpty then "" else "." ++ Digit.text fraction
    signed negative (Digit.text whole ++ point)

end Single

end FuzzyInference
