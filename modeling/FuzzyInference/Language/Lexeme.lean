/-!
# Lexemes of the rule language

A text of rules is made of **words**, semicolons, blanks and comments. A
word is a keyword when it is spelled like one, in whatever mixture of
capitals and small letters, and a name otherwise. Blanks and comments
separate words and mean nothing.
-/

namespace FuzzyInference

/-- **A keyword** of the rule language. -/
inductive Keyword where
  /-- Opens a rule and its premise. -/
  | «if»
  /-- Separates a premise from its conclusions. -/
  | «then»
  /-- Joins what both has to hold, or two conclusions. -/
  | and
  /-- Joins what either has to hold. -/
  | or
  /-- Stands between a variable and its term. -/
  | is
  /-- Denies the term that follows. -/
  | not
  /-- Closes a rule. -/
  | «end»
deriving DecidableEq, Repr

namespace Keyword

/-- All the keywords. -/
def all : List Keyword := [.if, .then, .and, .or, .is, .not, .end]

/-- The keyword in small letters. -/
def spelling : Keyword → List Char
  | .if => ['i', 'f']
  | .then => ['t', 'h', 'e', 'n']
  | .and => ['a', 'n', 'd']
  | .or => ['o', 'r']
  | .is => ['i', 's']
  | .not => ['n', 'o', 't']
  | .end => ['e', 'n', 'd']

/-- The name of a keyword in a message. -/
def title : Keyword → String
  | .if => "If"
  | .then => "Then"
  | .and => "And"
  | .or => "Or"
  | .is => "Is"
  | .not => "Not"
  | .end => "End"

/-- The keyword a word is spelled like, capitals or not. -/
def ofWord? (word : List Char) : Option Keyword :=
  all.find? fun k => word.map Char.toLower = k.spelling

end Keyword

/-- **A lexeme.** -/
inductive Lexeme where
  /-- A keyword. -/
  | keyword (k : Keyword)
  /-- A semicolon, which closes a rule. -/
  | semicolon
  /-- The name of a variable or a term. -/
  | name (text : String)
deriving DecidableEq, Repr

namespace Lexeme

/-- The lexeme a word is. -/
def ofWord (word : List Char) : Lexeme :=
  match Keyword.ofWord? word with
  | some k => .keyword k
  | none => .name (String.ofList word)

/-- What kind of lexeme it is. -/
def kind : Lexeme → String
  | .keyword k => k.title
  | .semicolon => "Semi"
  | .name _ => "Ident"

/-- The lexeme as a message quotes it. -/
def message : Lexeme → String
  | .name text => "Ident(\"" ++ text ++ "\")"
  | l => l.kind

end Lexeme

/-! ## Places in a text -/

/-- **A place in a text.** Lines and columns count from one, and columns
count the bytes of the encoded text. -/
structure Place where
  /-- The line. -/
  line : Nat
  /-- The column within the line. -/
  column : Nat
deriving DecidableEq, Repr

namespace Place

/-- The beginning of a text. -/
def start : Place := ⟨1, 1⟩

/-- The place behind a character. -/
def after (p : Place) (c : Char) : Place :=
  if c = '\n' then ⟨p.line + 1, 1⟩ else ⟨p.line, p.column + c.utf8Size⟩

/-- The place behind a run of characters. -/
def afterAll (p : Place) (cs : List Char) : Place := cs.foldl after p

end Place

/-- A lexeme with the place it begins at. -/
structure Located where
  /-- The lexeme. -/
  lexeme : Lexeme
  /-- Where it begins. -/
  place : Place
deriving DecidableEq, Repr

end FuzzyInference
