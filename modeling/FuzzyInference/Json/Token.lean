import FuzzyInference.Json.Basic

/-!
# The tokens of a JSON document

`Json.lex` cuts a text into the tokens of a JSON document: brackets,
braces, commas and colons, the three literal words, numbers, and quoted
texts. Blanks separate tokens and mean nothing. No token can begin inside
another, so a run of characters that may belong to a number, or of
letters, is taken whole before it is looked at.
-/

namespace FuzzyInference

namespace Json

/-- **A token of a JSON document.** -/
inductive Token where
  /-- The beginning of an array. -/
  | openArray
  /-- The end of an array. -/
  | closeArray
  /-- The beginning of an object. -/
  | openObject
  /-- The end of an object. -/
  | closeObject
  /-- What stands between elements, and between members. -/
  | comma
  /-- What stands between a key and its value. -/
  | colon
  /-- The null. -/
  | null
  /-- A truth value. -/
  | bool (b : Bool)
  /-- A number. -/
  | number (n : Number)
  /-- A quoted text. -/
  | text (t : Text)
deriving DecidableEq, Repr

/-! ## Numbers -/

/-- The digits a text begins with, and what follows them. -/
def spanDigits : List Char → List Digit × List Char
  | [] => ([], [])
  | c :: cs =>
    match Digit.ofChar? c with
    | some d =>
      let (ds, rest) := spanDigits cs
      (d :: ds, rest)
    | none => ([], c :: cs)

namespace Number

/-- The exponent that ends a number, behind its sign. -/
def exponentDigits? (negative : Bool) (cs : List Char) : Option Exponent :=
  match spanDigits cs with
  | ([], _) => none
  | (ds, []) => some ⟨negative, ds⟩
  | (_, _ :: _) => none

/-- The exponent that ends a number, if it has one; `none` where something
else ends it. -/
def exponent? : List Char → Option (Option Exponent)
  | [] => some none
  | c :: cs =>
    if c = 'e' ∨ c = 'E' then
      match cs with
      | '+' :: cs => (exponentDigits? false cs).map some
      | '-' :: cs => (exponentDigits? true cs).map some
      | cs => (exponentDigits? false cs).map some
    else none

/-- The fraction of a number, and what follows it. There is a digit behind
every decimal point. -/
def fraction? : List Char → Option (List Digit × List Char)
  | '.' :: cs =>
    match spanDigits cs with
    | ([], _) => none
    | (ds, rest) => some (ds, rest)
  | cs => some ([], cs)

/-- The number without its sign. There is a digit before the point, and no
zero in front of another digit. -/
def unsigned? (negative : Bool) (cs : List Char) : Option Number :=
  match spanDigits cs with
  | ([], _) => none
  | (0 :: _ :: _, _) => none
  | (whole, rest) => do
    let (fraction, rest) ← fraction? rest
    let exponent ← exponent? rest
    return ⟨negative, whole, fraction, exponent⟩

/-- **The number a run of characters writes**, if it writes one. -/
def ofChars? : List Char → Option Number
  | '-' :: cs => unsigned? true cs
  | cs => unsigned? false cs

end Number

/-! ## Quoted texts -/

/-- What a quoted text is written with: characters and units of sixteen
bits. -/
inductive Written where
  /-- A character, as it is or behind a backslash. -/
  | char (c : Char)
  /-- A unit, by its four hexadecimal digits. -/
  | unit (n : Nat)
deriving DecidableEq, Repr

/-- The value of a hexadecimal digit. -/
def hexDigit? (c : Char) : Option Nat :=
  if '0' ≤ c ∧ c ≤ '9' then some (c.toNat - 48)
  else if 'a' ≤ c ∧ c ≤ 'f' then some (c.toNat - 87)
  else if 'A' ≤ c ∧ c ≤ 'F' then some (c.toNat - 55)
  else none

/-- The unit four hexadecimal digits write. -/
def hexUnit? (a b c d : Char) : Option Nat := do
  let a ← hexDigit? a
  let b ← hexDigit? b
  let c ← hexDigit? c
  let d ← hexDigit? d
  return ((a * 16 + b) * 16 + c) * 16 + d

/-- The character that stands behind a backslash for another one. -/
def unescape? : Char → Option Char
  | '"' => some '"'
  | '\\' => some '\\'
  | '/' => some '/'
  | 'b' => some '\x08'
  | 'f' => some '\x0c'
  | 'n' => some '\n'
  | 'r' => some '\r'
  | 't' => some '\t'
  | _ => none

/-- **What a quoted text is written with**, up to its closing quote, and
what follows it. Control characters have to be escaped. -/
def quoted? : List Char → Option (List Written × List Char)
  | [] => none
  | '"' :: cs => some ([], cs)
  | '\\' :: 'u' :: a :: b :: c :: d :: cs => do
    let unit ← hexUnit? a b c d
    let (later, rest) ← quoted? cs
    return (.unit unit :: later, rest)
  | '\\' :: c :: cs => do
    let c ← unescape? c
    let (later, rest) ← quoted? cs
    return (.char c :: later, rest)
  | c :: cs =>
    if c < ' ' then none
    else do
      let (later, rest) ← quoted? cs
      return (.char c :: later, rest)

/-- The piece a unit is that has no other half next to it. -/
def lonePiece (n : Nat) : Piece :=
  if 0xD800 ≤ n ∧ n ≤ 0xDFFF then .surrogate n else .char (Char.ofNat n)

/-- **The text that characters and units write.** Two halves of a
character, the higher one first, make one character. -/
def pieces : List Written → Text
  | [] => []
  | .char c :: rest => .char c :: pieces rest
  | .unit n :: .unit m :: rest =>
    if 0xD800 ≤ n ∧ n ≤ 0xDBFF ∧ 0xDC00 ≤ m ∧ m ≤ 0xDFFF then
      .char (Char.ofNat (0x10000 + (n - 0xD800) * 0x400 + (m - 0xDC00))) :: pieces rest
    else lonePiece n :: pieces (.unit m :: rest)
  | .unit n :: rest => lonePiece n :: pieces rest

/-! ## Cutting a text into tokens -/

/-- The characters that separate tokens. -/
def isBlank (c : Char) : Bool := c = ' ' || c = '\n' || c = '\t' || c = '\r'

/-- The characters a number is written with. -/
def isNumeric (c : Char) : Bool :=
  c.isDigit || c = '-' || c = '+' || c = '.' || c = 'e' || c = 'E'

/-- The token of a single character. -/
def Token.ofChar? : Char → Option Token
  | '[' => some .openArray
  | ']' => some .closeArray
  | '{' => some .openObject
  | '}' => some .closeObject
  | ',' => some .comma
  | ':' => some .colon
  | _ => none

/-- The token of a word. -/
def Token.ofWord? (word : List Char) : Option Token :=
  if word = ['n', 'u', 'l', 'l'] then some .null
  else if word = ['t', 'r', 'u', 'e'] then some (.bool true)
  else if word = ['f', 'a', 'l', 's', 'e'] then some (.bool false)
  else none

/-- What follows a quoted text is shorter than the text. -/
theorem length_of_quoted? {cs rest : List Char} {ws : List Written}
    (h : quoted? cs = some (ws, rest)) : rest.length < cs.length := by
  fun_induction quoted? cs generalizing ws rest with
  | case1 => cases h
  | case2 cs => cases h; exact Nat.lt_succ_self _
  | case3 a b c d cs ih =>
    simp only [Option.bind_eq_bind, Option.bind_eq_some_iff] at h
    obtain ⟨unit, _, ⟨later, tail⟩, hq, h⟩ := h
    cases h
    have := ih hq
    simp only [List.length_cons]
    omega
  | case4 c cs _ ih =>
    simp only [Option.bind_eq_bind, Option.bind_eq_some_iff] at h
    obtain ⟨d, _, ⟨later, tail⟩, hq, h⟩ := h
    cases h
    have := ih hq
    simp only [List.length_cons]
    omega
  | case5 => cases h
  | case6 c cs _ _ _ _ ih =>
    simp only [Option.bind_eq_bind, Option.bind_eq_some_iff] at h
    obtain ⟨⟨later, tail⟩, hq, h⟩ := h
    cases h
    have := ih hq
    simp only [List.length_cons]
    omega

/-- **The tokens of a text**, if it is made of tokens. -/
def lex : List Char → Option (List Token)
  | [] => some []
  | c :: cs =>
    if isBlank c then lex cs
    else if c = '"' then
      match _h : quoted? cs with
      | none => none
      | some (written, rest) => (lex rest).map (.text (pieces written) :: ·)
    else if c.isDigit ∨ c = '-' then do
      let n ← Number.ofChars? (c :: cs.takeWhile isNumeric)
      let later ← lex (cs.dropWhile isNumeric)
      return .number n :: later
    else if c.isAlpha then do
      let word ← Token.ofWord? (c :: cs.takeWhile Char.isAlpha)
      let later ← lex (cs.dropWhile Char.isAlpha)
      return word :: later
    else do
      let t ← Token.ofChar? c
      let later ← lex cs
      return t :: later
termination_by cs => cs.length
decreasing_by
  · exact Nat.lt_succ_self _
  · exact Nat.lt_succ_of_lt (length_of_quoted? _h)
  · exact Nat.lt_succ_of_le (List.dropWhile_sublist isNumeric).length_le
  · exact Nat.lt_succ_of_le (List.dropWhile_sublist Char.isAlpha).length_le
  · exact Nat.lt_succ_self _

end Json

end FuzzyInference
