/-!
# Raw tokens

A rule base is stored as a table of signed integers of one **width**. The
five least integers of the width are reserved as marks; every other
integer is plain data.
-/

namespace FuzzyInference

/-- **The width of the integers of a rule stream.** -/
inductive Width where
  /-- Eight bits. -/
  | bits8
  /-- Sixteen bits. -/
  | bits16
  /-- Thirty-two bits. -/
  | bits32
  /-- Sixty-four bits. -/
  | bits64
deriving DecidableEq, Repr

namespace Width

/-- All the widths. -/
def all : List Width := [.bits8, .bits16, .bits32, .bits64]

/-- The number of bits. -/
def bits : Width → Nat
  | .bits8 => 8
  | .bits16 => 16
  | .bits32 => 32
  | .bits64 => 64

/-- The least integer of a width. -/
def least (w : Width) : Int := -(Nat.pow 2 (w.bits - 1) : Nat)

/-- The greatest integer of a width. -/
def greatest (w : Width) : Int := (Nat.pow 2 (w.bits - 1) : Nat) - 1

/-- Whether an integer is of a width. -/
abbrev Holds (w : Width) (v : Int) : Prop := w.least ≤ v ∧ v ≤ w.greatest

/-- **Whether an integer is plain data at a width**: it is of the width
and above the five reserved integers. -/
abbrev HoldsData (w : Width) (v : Int) : Prop :=
  w.least + 5 ≤ v ∧ v ≤ w.greatest

end Width

/-- **A raw token**: an integer of a width. -/
structure Raw (w : Width) where
  /-- The integer. -/
  value : Int
  /-- It is of the width. -/
  holds : w.Holds value
deriving DecidableEq, Repr

namespace Raw

/-- The raw token of an integer, if it is of the width. -/
def ofInt? (w : Width) (v : Int) : Option (Raw w) :=
  if h : w.Holds v then some ⟨v, h⟩ else none

end Raw

end FuzzyInference
