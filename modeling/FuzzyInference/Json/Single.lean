import FuzzyInference.Json.Codec
import FuzzyInference.Scalar.Form

/-!
# Single-precision numbers in documents

A finite number is written with the fewest digits that read back, and a
number that is not finite as null, which does not read back. Between a
millionth and ten million millions it is written in full, with at least
one digit after the point; beyond, with an exponent.

A number is read in two steps, to a whole number of units of a power of
ten, and from there to double precision. As many digits are taken as fit
into sixty-four bits. The digits before the point that are left over count
as zeros, those after it not at all; once a digit has been left over
before the point, digits after it are still taken where they fit. The
unit is then multiplied or divided by, with one rounding each time, and
the result rounded to single precision at the end.
-/

namespace FuzzyInference

namespace Json

/-! ## Reading -/

/-- Digits taken into a whole number while it stays within sixty-four bits,
and the digits left over. -/
def absorb (n : Nat) : List Digit → Nat × List Digit
  | [] => (n, [])
  | d :: ds => if 10 * n + d.val < Nat.pow 2 64 then absorb (10 * n + d.val) ds else (n, d :: ds)

namespace Number

/-- The value of the exponent. -/
def exponentValue (n : Number) : Int :=
  match n.exponent with
  | none => 0
  | some e => if e.negative then -(Digit.toNat e.digits : Int) else Digit.toNat e.digits

/-- **The significand and the power of ten** a number is read with. -/
def decimal (n : Number) : Decimal :=
  let (whole, dropped) := absorb 0 n.whole
  let (significand, ignored) := absorb whole n.fraction
  ⟨significand, (dropped.length : Int) - (n.fraction.length - ignored.length : Nat) +
    n.exponentValue⟩

end Number

/-- The greatest power of ten of double precision. -/
def greatestPower : Nat := 308

/-- A power of ten, in double precision. -/
def powerOfTen (k : Nat) : Float := Float.ofScientific 1 false k

/-- A number of double precision multiplied by a power of ten. It must not
become infinite. -/
def scaleUp? (x : Float) (k : Nat) : Option Float :=
  if k ≤ greatestPower then
    let y := x * powerOfTen k
    if y.isInf then none else some y
  else if x == 0 then some x
  else none

/-- A number of double precision divided by a power of ten, by the
greatest one as long as it is not small enough. -/
def scaleDown (x : Float) (k : Nat) : Float :=
  if k ≤ greatestPower then x / powerOfTen k
  else if x == 0 then x
  else scaleDown (x / powerOfTen greatestPower) (k - greatestPower)
termination_by k
decreasing_by simp only [greatestPower] at *; omega

/-- **A number of double precision rounded to single precision**, to the nearest
one. The conversion of the standard library does the same, but nothing is known
of it in proofs, so the number is taken apart and rounded again. -/
def toSingle (x : Float) : Float32 :=
  .ofModel (.pack (match x.toModel.unpack with
    | .finite sign mantissa exponent _ => .round .binary32 sign mantissa exponent
    | other => other))

/-- A decimal in double precision, if it is in range. -/
def toDouble? (d : Decimal) : Option Float :=
  match d.exponent with
  | .ofNat k => scaleUp? (Float.ofNat d.significand) k
  | .negSucc k => some (scaleDown (Float.ofNat d.significand) (k + 1))

namespace Number

/-- **The single-precision number a number denotes**, if it is in the range
of double precision. An integer of sixty-four bits is rounded once. -/
def toSingle? (n : Number) : Option Float32 :=
  match n.integer? with
  | some (.ofNat k) => some (Float32.ofNat k)
  | some (.negSucc k) => some (-Float32.ofNat (k + 1))
  | none => (toDouble? n.decimal).map fun size =>
    toSingle (if n.negative then -size else size)

end Number

/-! ## Writing -/

/-- The least power of ten of the leading digit of a number that is written
in full. -/
def leastFull : Int := -6

/-- The greatest one. -/
def greatestFull : Int := 12

/-- **The number that writes a decimal.** -/
def Number.ofDecimal (negative : Bool) (d : Decimal) : Number :=
  let magnitude := d.magnitude
  if leastFull ≤ magnitude ∧ magnitude ≤ greatestFull then
    let (whole, fraction) := d.positional
    ⟨negative, whole, if fraction = [] then [Digit.zero] else fraction, none⟩
  else
    let digits := Digit.ofNat d.significand
    ⟨negative, digits.take 1, digits.drop 1,
      some ⟨magnitude < 0, Digit.ofNat magnitude.natAbs⟩⟩

/-- **The document of a single-precision number.** -/
def ofSingle (x : Float32) : Json :=
  match Single.form x with
  | .notANumber | .infinite _ => .null
  | .zero negative => .number ⟨negative, [Digit.zero], [Digit.zero], none⟩
  | .finite negative size => .number (.ofDecimal negative (size.shortest .even))

instance : Codec Float32 where
  write := ofSingle
  read?
    | .number n => n.toSingle?
    | _ => none

end Json

end FuzzyInference
