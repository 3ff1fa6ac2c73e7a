import FuzzyInference.Decimal.Basic

/-!
# JSON documents

A JSON document as it is written, before anything is made of it. A number
is kept digit by digit, since what it denotes depends on who reads it. A
text is kept as characters and **surrogates**: an escape may write half
of a character beyond the basic plane without its other half, and a
document with such a text is well-formed as long as nobody reads the
text. Members of an object keep their order and their repetitions.
-/

namespace FuzzyInference

namespace Json

/-- The exponent of a number. -/
structure Exponent where
  /-- Whether it is below zero. -/
  negative : Bool
  /-- Its digits. -/
  digits : List Digit
deriving DecidableEq, Repr

/-- **A number, as it is written.** -/
structure Number where
  /-- Whether a minus sign stands in front. -/
  negative : Bool
  /-- The digits before the decimal point. -/
  whole : List Digit
  /-- The digits after it; none where there is no point. -/
  fraction : List Digit
  /-- The exponent, where there is one. -/
  exponent : Option Exponent
deriving DecidableEq, Repr

namespace Number

/-- A natural number. -/
def ofNat (n : Nat) : Number := ⟨false, Digit.ofNat n, [], none⟩

/-- An integer. -/
def ofInt (n : Int) : Number := ⟨n < 0, Digit.ofNat n.natAbs, [], none⟩

end Number

/-- **A unit of a text.** -/
inductive Piece where
  /-- A character. -/
  | char (c : Char)
  /-- Half of a character whose other half is missing. -/
  | surrogate (unit : Nat)
deriving DecidableEq, Repr

/-- A text. -/
abbrev Text := List Piece

namespace Text

/-- The text of a string. -/
def ofString (s : String) : Text := s.toList.map .char

/-- The characters of a text, if all of them are complete. -/
def chars? : Text → Option (List Char)
  | [] => some []
  | .char c :: rest => (chars? rest).map (c :: ·)
  | .surrogate _ :: _ => none

/-- The string of a text, if all its characters are complete. -/
def toString? (t : Text) : Option String := (chars? t).map String.ofList

end Text

end Json

/-- **A JSON document.** -/
inductive Json where
  /-- The null. -/
  | null
  /-- A truth value. -/
  | bool (b : Bool)
  /-- A number. -/
  | number (n : Json.Number)
  /-- A text. -/
  | text (t : Json.Text)
  /-- An array of its elements. -/
  | array (elements : List Json)
  /-- An object of its members, each with its key. -/
  | object (members : List (Json.Text × Json))
deriving Repr

namespace Json

/-- The text of a string. -/
def ofString (s : String) : Json := .text (.ofString s)

/-- An object whose keys are strings. -/
def record (fields : List (String × Json)) : Json :=
  .object (fields.map fun (key, value) => (.ofString key, value))

end Json

end FuzzyInference
