import FuzzyInference.Json.Basic

/-!
# Writing a document

A document is written either in one line without blanks, or one element
and one member a line, indented by two blanks for every array or object
around it. Of the characters of a text only those are escaped that have
to be.
-/

namespace FuzzyInference

namespace Json

/-- The sign of an exponent, which is always written. -/
def Exponent.sign (e : Exponent) : String := if e.negative then "-" else "+"

/-- The text of a number. -/
def Number.text (n : Number) : String :=
  (if n.negative then "-" else "") ++ Digit.text n.whole ++
    (if n.fraction.isEmpty then "" else "." ++ Digit.text n.fraction) ++
    match n.exponent with
    | none => ""
    | some e => "e" ++ e.sign ++ Digit.text e.digits

/-- The hexadecimal digit of a value below sixteen. -/
def hexChar (n : Nat) : Char := Nat.digitChar (n % 16)

/-- The escape of a unit of sixteen bits. -/
def escapeUnit (n : Nat) : String :=
  "\\u" ++ String.ofList
    [hexChar (n / 4096), hexChar (n / 256), hexChar (n / 16), hexChar n]

/-- How a character is written within quotes. -/
def escapeChar (c : Char) : String :=
  if c = '"' then "\\\""
  else if c = '\\' then "\\\\"
  else if c = '\x08' then "\\b"
  else if c = '\x0c' then "\\f"
  else if c = '\n' then "\\n"
  else if c = '\r' then "\\r"
  else if c = '\t' then "\\t"
  else if c < ' ' then escapeUnit c.toNat
  else c.toString

/-- How a piece of a text is written within quotes. -/
def Piece.escape : Piece → String
  | .char c => escapeChar c
  | .surrogate n => escapeUnit n

/-- A text in quotes. -/
def Text.quoted (t : Text) : String :=
  "\"" ++ String.join (t.map Piece.escape) ++ "\""

/-! ## In one line -/

mutual

/-- **A document in one line.** -/
def compact : Json → String
  | .null => "null"
  | .bool b => if b then "true" else "false"
  | .number n => n.text
  | .text t => t.quoted
  | .array elements => "[" ++ compactElements elements ++ "]"
  | .object members => "\x7b" ++ compactMembers members ++ "\x7d"

/-- The elements of an array in one line. -/
def compactElements : List Json → String
  | [] => ""
  | [v] => compact v
  | v :: rest => compact v ++ "," ++ compactElements rest

/-- The members of an object in one line. -/
def compactMembers : List (Text × Json) → String
  | [] => ""
  | [(key, v)] => key.quoted ++ ":" ++ compact v
  | (key, v) :: rest => key.quoted ++ ":" ++ compact v ++ "," ++ compactMembers rest

end

/-! ## Over several lines -/

/-- A new line at a depth. -/
def newline (depth : Nat) : String :=
  "\n" ++ String.ofList (List.replicate (2 * depth) ' ')

mutual

/-- A document over several lines, within so many arrays and objects. -/
def prettyAt (depth : Nat) : Json → String
  | .null => "null"
  | .bool b => if b then "true" else "false"
  | .number n => n.text
  | .text t => t.quoted
  | .array [] => "[]"
  | .array (v :: rest) => "[" ++ prettyElements (depth + 1) (v :: rest) ++ newline depth ++ "]"
  | .object [] => "\x7b\x7d"
  | .object (m :: rest) =>
    "\x7b" ++ prettyMembers (depth + 1) (m :: rest) ++ newline depth ++ "\x7d"

/-- The elements of an array, each on a line of its own. -/
def prettyElements (depth : Nat) : List Json → String
  | [] => ""
  | [v] => newline depth ++ prettyAt depth v
  | v :: rest => newline depth ++ prettyAt depth v ++ "," ++ prettyElements depth rest

/-- The members of an object, each on a line of its own. -/
def prettyMembers (depth : Nat) : List (Text × Json) → String
  | [] => ""
  | [(key, v)] => newline depth ++ key.quoted ++ ": " ++ prettyAt depth v
  | (key, v) :: rest =>
    newline depth ++ key.quoted ++ ": " ++ prettyAt depth v ++ "," ++ prettyMembers depth rest

end

/-- **A document over several lines.** -/
def pretty (j : Json) : String := prettyAt 0 j

end Json

end FuzzyInference
