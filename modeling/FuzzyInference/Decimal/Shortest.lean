import FuzzyInference.Decimal.Basic

/-!
# The shortest decimal that reads back

A binary floating-point number stands for a whole interval of reals: all
those that round to it. Of the decimals in that interval the **shortest**
are the ones with the fewest digits, and among these the one nearest to
the number itself is chosen. It is found by trying the grids of one, two,
three … significant digits in turn. On a grid only the two neighbours of
the number can be nearest, and if any point of the grid lies in the
interval then one of these two does, so the first grid with a hit is the
coarsest there is.

All of it is arithmetic of natural numbers: a number, the ends of its
interval and the points of a grid are compared after multiplication by a
common denominator.
-/

namespace FuzzyInference

/-- Which of two equally near decimals is taken. -/
inductive Tie where
  /-- The larger one. -/
  | up
  /-- The one whose last digit is even. -/
  | even
deriving DecidableEq, Repr

/-- **A positive binary number** `mantissa · 2 ^ exponent`, with its place
among its neighbours. -/
structure Dyadic where
  /-- The whole number of units. -/
  mantissa : Nat
  /-- The power of two that is the unit, one step between neighbours. -/
  exponent : Int
  /-- Whether the neighbour below is only half a unit away, which is so
  at the start of a binade. -/
  narrowBelow : Bool
deriving DecidableEq, Repr

namespace Dyadic

/-! ## The interval that rounds to a number

The ends lie half-way to the neighbours. They are whole numbers of
quarter units, and belong to the interval when the mantissa is even. -/

/-- The lower end of the interval, in quarter units. -/
def lower (v : Dyadic) : Nat :=
  4 * v.mantissa - (if v.narrowBelow then 1 else 2)

/-- The upper end of the interval, in quarter units. -/
def upper (v : Dyadic) : Nat := 4 * v.mantissa + 2

/-- Whether the ends themselves round to the number. -/
def isClosed (v : Dyadic) : Bool := v.mantissa % 2 = 0

/-- The factor that brings quarter units to the common denominator with
the grid of unit `10 ^ place`. -/
def quarterScale (v : Dyadic) (place : Int) : Nat :=
  Nat.pow 2 (v.exponent - 2).toNat * Nat.pow 10 (-place).toNat

/-- The factor that brings the unit `10 ^ place` to the common
denominator with quarter units. -/
def gridScale (v : Dyadic) (place : Int) : Nat :=
  Nat.pow 10 place.toNat * Nat.pow 2 (2 - v.exponent).toNat

/-- **Whether a point of a grid rounds to the number.** -/
def admits (v : Dyadic) (place : Int) (d : Nat) : Bool :=
  let quarter := v.quarterScale place
  let point := d * v.gridScale place
  if v.isClosed then v.lower * quarter ≤ point ∧ point ≤ v.upper * quarter
  else v.lower * quarter < point ∧ point < v.upper * quarter

/-- The point of the grid of unit `10 ^ place` that reads back as the
number and is nearest to it, if there is one. -/
def onGrid? (tie : Tie) (v : Dyadic) (place : Int) : Option Nat :=
  let grid := v.gridScale place
  let value := 4 * v.mantissa * v.quarterScale place
  let below := value / grid
  let slack := 2 * (value % grid)
  let upward : Bool :=
    match tie with
    | .up => grid ≤ slack
    | .even => grid < slack ∨ (grid = slack ∧ below % 2 = 1)
  match v.admits place below, v.admits place (below + 1) with
  | true, true => some (if upward then below + 1 else below)
  | true, false => some below
  | false, true => some (below + 1)
  | false, false => none

/-- How many digits the whole part of the number has, when it has a whole
part; below one, minus the number of zeros that follow the point. No
number written here is smaller than `10 ^ (-guard)`. -/
def wholeDigits (v : Dyadic) : Int :=
  let guard : Nat := 60
  let scaled :=
    v.mantissa * Nat.pow 2 v.exponent.toNat * Nat.pow 10 guard / Nat.pow 2 (-v.exponent).toNat
  ((Digit.ofNat scaled).length : Int) - (guard : Int)

/-- The number itself, written out in full. -/
def exact (v : Dyadic) : Decimal :=
  match v.exponent with
  | .ofNat k => ⟨v.mantissa * Nat.pow 2 k, 0⟩
  | .negSucc k => ⟨v.mantissa * Nat.pow 5 (k + 1), -(k + 1 : Int)⟩

/-- **The shortest decimal that reads back as the number**, the nearest
among those. Nine digits always suffice for single precision, so the
number in full is never needed there. -/
def shortest (tie : Tie) (v : Dyadic) : Decimal :=
  let whole := v.wholeDigits
  let found := (List.range 9).findSome? fun (i : Nat) =>
    let place : Int := whole - (i + 1)
    (v.onGrid? tie place).map (Decimal.mk · place)
  (found.getD v.exact).normalize

end Dyadic

end FuzzyInference
