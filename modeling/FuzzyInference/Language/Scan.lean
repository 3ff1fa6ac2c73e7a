import FuzzyInference.Language.Fault

/-!
# Scanning a text of rules

`scan` cuts a text into its lexemes, each with the place it begins at. A
word is taken as far as it goes: it ends before the first character that
no word can contain, so that a keyword followed by a letter, a digit, an
underscore or a hyphen is part of a longer name.

All the classes of characters are of the ASCII repertoire. Any other
character may stand in a comment, and nowhere else.
-/

namespace FuzzyInference

namespace Scan

/-- The characters that separate lexemes. -/
def isBlank (c : Char) : Bool :=
  c = ' ' || c = '\t' || c = '\r' || c = '\n' || c = '\x0c'

/-- The characters a word can begin with. -/
def isWordStart (c : Char) : Bool := c.isAlpha || c = '_'

/-- The characters a word can contain. -/
def isWordPart (c : Char) : Bool := c.isAlphanum || c = '_' || c = '-'

/-- The characters of a comment that has begun. -/
def isComment (c : Char) : Bool := c ≠ '\n'

/-- **The lexemes of a text** that begins at a place. -/
def lexemes (p : Place) : List Char → Except LanguageFault (List Located)
  | [] => .ok []
  | c :: cs =>
    if isBlank c then lexemes (p.after c) cs
    else if c = '#' then
      lexemes (p.afterAll (c :: cs.takeWhile isComment)) (cs.dropWhile isComment)
    else if c = ';' then do
      let later ← lexemes (p.after c) cs
      return ⟨.semicolon, p⟩ :: later
    else if isWordStart c then do
      let word := c :: cs.takeWhile isWordPart
      let later ← lexemes (p.afterAll word) (cs.dropWhile isWordPart)
      return ⟨Lexeme.ofWord word, p⟩ :: later
    else .error (.unexpectedCharacter c p)
termination_by cs => cs.length
decreasing_by
  · exact Nat.lt_succ_self _
  · exact Nat.lt_succ_of_le (List.dropWhile_sublist isComment).length_le
  · exact Nat.lt_succ_self _
  · exact Nat.lt_succ_of_le (List.dropWhile_sublist isWordPart).length_le

end Scan

/-- **The lexemes of a text.** -/
def scan (source : String) : Except LanguageFault (List Located) :=
  Scan.lexemes .start source.toList

end FuzzyInference
