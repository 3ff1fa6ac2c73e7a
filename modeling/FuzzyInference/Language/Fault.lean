import FuzzyInference.Language.Lexeme

/-!
# What can be wrong with a text of rules

A text is refused at the first character that begins no lexeme, at the
first lexeme that no rule can have in its place, or at the first name
that nobody knows.
-/

namespace FuzzyInference

/-- **What a rule goes on with**, where it does not. -/
inductive Expectation where
  /-- The keyword that opens a rule. -/
  | ruleOpening
  /-- The name of a variable. -/
  | variableName
  /-- The keyword between a variable and its term. -/
  | copula
  /-- The name of a term. -/
  | termName
  /-- What follows a statement of a premise. -/
  | premiseLink
  /-- What follows a conclusion. -/
  | conclusionLink
deriving DecidableEq, Repr

namespace Expectation

/-- The text of an expectation. -/
def message : Expectation → String
  | .ruleOpening => "expected IF"
  | .variableName => "expected variable name"
  | .copula => "expected IS"
  | .termName => "expected term name"
  | .premiseLink => "expected AND, OR or THEN"
  | .conclusionLink => "expected AND, END or a new rule"

end Expectation

/-- What a name was to stand for. -/
inductive NameKind where
  /-- An input variable. -/
  | input
  /-- An output variable. -/
  | output
  /-- A term of a variable. -/
  | term
deriving DecidableEq, Repr

namespace NameKind

/-- The text of a kind of name. -/
def message : NameKind → String
  | .input => "input"
  | .output => "output"
  | .term => "term"

end NameKind

/-- **A fault of a text of rules.** -/
inductive LanguageFault where
  /-- A character that begins no lexeme. -/
  | unexpectedCharacter (c : Char) (place : Place)
  /-- A lexeme that cannot stand where it stands, or the end of the text
  where a rule has to go on. The place of the end is that of the last
  lexeme. -/
  | unexpectedLexeme (expected : Expectation) (found : Option Lexeme) (place : Place)
  /-- A name that nobody knows, with the line its statement begins on. -/
  | unknownName (kind : NameKind) (name : String) (line : Nat)
deriving DecidableEq, Repr

namespace LanguageFault

/-- How a message says what was found. -/
def found : Option Lexeme → String
  | some l => l.message
  | none => "end of input"

/-- The text of a fault. -/
def message : LanguageFault → String
  | .unexpectedCharacter c p =>
    s!"Lex error at {p.line}:{p.column}: Unexpected character: '" ++ c.toString ++ "'"
  | .unexpectedLexeme e l p =>
    s!"Parse error at {p.line}:{p.column}: {e.message}, found " ++ found l
  | .unknownName kind name line =>
    s!"Unknown {kind.message} '" ++ name ++ s!"' (line {line})"

end LanguageFault

end FuzzyInference
