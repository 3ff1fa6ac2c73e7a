import FuzzyInference.Rule.Basic
import FuzzyInference.Language.Names
import FuzzyInference.Language.Scan

/-!
# Reading rules

The rule language is

```text
text       ::= (rule | END | ;)*
rule       ::= IF statement ((AND | OR) statement)*
               THEN statement (AND statement)* [END | ;]
statement  ::= name IS [NOT] name
```

where a rule may follow a rule with nothing in between. The language is
regular, and its reader is an automaton: a `Reader.State` knows the part
of a rule read so far and what may come next, and `Reader.State.advance`
takes it past one lexeme. Names are resolved as soon as their statement
is complete, so of a misplaced lexeme and an unknown name the one that
comes first in the text is reported.
-/

namespace FuzzyInference

namespace Reader

/-- Where in its rule a statement stands. -/
inductive Role where
  /-- First in the premise. -/
  | opening
  /-- Later in the premise, behind a connective. -/
  | linked (c : Connective)
  /-- Among the conclusions. -/
  | conclusion
deriving DecidableEq, Repr

namespace Role

/-- The side a statement speaks about. -/
def side : Role → Side
  | .conclusion => .output
  | _ => .input

/-- The rule with a statement put in its place. -/
def extend : Role → Rule → Atom → Rule
  | .opening, r, a => { r with premise := some ⟨a, []⟩ }
  | .linked c, r, a => r.clause c a
  | .conclusion, r, a => r.concluding a

end Role

/-- The kind of name a variable of a side has. -/
def kindOf : Side → NameKind
  | .input => .input
  | .output => .output

/-- **What the names of a statement stand for.** The line is the one the
statement begins on. -/
def resolve (names : Resolver) (side : Side) (line : Nat) (name : String) (negated : Bool)
    (term : String) : Except LanguageFault Atom :=
  match names.subject? side name with
  | none => .error (.unknownName (kindOf side) name line)
  | some tag =>
    match names.term? side tag term with
    | none => .error (.unknownName .term term line)
    | some index => .ok ⟨tag, ⟨index, negated⟩⟩

/-- **The state of the reader**: the rule read so far, where a rule has
begun, and what has been read of the statement under way. -/
inductive State where
  /-- Between rules. -/
  | between
  /-- Before a statement. -/
  | statement (draft : Rule) (role : Role)
  /-- Behind the variable of a statement. -/
  | named (draft : Rule) (role : Role) (line : Nat) (name : String)
  /-- Behind the copula of a statement. -/
  | joined (draft : Rule) (role : Role) (line : Nat) (name : String)
  /-- Behind the denial in a statement. -/
  | denied (draft : Rule) (role : Role) (line : Nat) (name : String)
  /-- Behind a statement of the premise. -/
  | premise (draft : Rule)
  /-- Behind a conclusion. -/
  | conclusion (draft : Rule)
deriving DecidableEq, Repr

namespace State

/-- What a text has to go on with. Between rules anything but the opening
of one is skipped or refused. -/
def expectation : State → Expectation
  | .between => .ruleOpening
  | .statement _ _ => .variableName
  | .named _ _ _ _ => .copula
  | .joined _ _ _ _ => .termName
  | .denied _ _ _ _ => .termName
  | .premise _ => .premiseLink
  | .conclusion _ => .conclusionLink

/-- The state behind a complete statement. -/
def afterStatement (draft : Rule) (role : Role) (a : Atom) : State :=
  match role with
  | .conclusion => .conclusion (role.extend draft a)
  | _ => .premise (role.extend draft a)

/-- The state behind the term of a statement. -/
def complete (names : Resolver) (draft : Rule) (role : Role) (line : Nat) (name : String)
    (negated : Bool) (term : String) : Except LanguageFault State :=
  match resolve names role.side line name negated term with
  | .error f => .error f
  | .ok a => .ok (afterStatement draft role a)

/-- **One lexeme further**: the next state, and the rule that ends before
this lexeme or with it, if one does. -/
def advance (names : Resolver) (s : State) (l : Located) :
    Except LanguageFault (State × Option Rule) :=
  match s, l.lexeme with
  | .between, .keyword .if => .ok (.statement .empty .opening, none)
  | .between, .keyword .end => .ok (.between, none)
  | .between, .semicolon => .ok (.between, none)
  | .statement draft role, .name n => .ok (.named draft role l.place.line n, none)
  | .named draft role line n, .keyword .is => .ok (.joined draft role line n, none)
  | .joined draft role line n, .keyword .not => .ok (.denied draft role line n, none)
  | .joined draft role line n, .name t =>
    (complete names draft role line n false t).map (·, none)
  | .denied draft role line n, .name t =>
    (complete names draft role line n true t).map (·, none)
  | .premise draft, .keyword .and => .ok (.statement draft (.linked .and), none)
  | .premise draft, .keyword .or => .ok (.statement draft (.linked .or), none)
  | .premise draft, .keyword .then => .ok (.statement draft .conclusion, none)
  | .conclusion draft, .keyword .and => .ok (.statement draft .conclusion, none)
  | .conclusion draft, .keyword .end => .ok (.between, some draft)
  | .conclusion draft, .semicolon => .ok (.between, some draft)
  | .conclusion draft, .keyword .if => .ok (.statement .empty .opening, some draft)
  | s, _ => .error (.unexpectedLexeme s.expectation (some l.lexeme) l.place)

/-- What the end of the text makes of a state: a rule that has a
conclusion ends with it, and no other rule can. -/
def close (last : Place) : State → Except LanguageFault (List Rule)
  | .between => .ok []
  | .conclusion draft => .ok [draft]
  | s => .error (.unexpectedLexeme s.expectation none last)

/-- **The rules in the lexemes that follow a state.** `last` is the place
of the last lexeme of the whole text. -/
def read (names : Resolver) (last : Place) : State → List Located →
    Except LanguageFault (List Rule)
  | s, [] => s.close last
  | s, l :: ls =>
    match s.advance names l with
    | .error f => .error f
    | .ok (next, finished) =>
      match read names last next ls with
      | .error f => .error f
      | .ok rules => .ok (finished.toList ++ rules)

end State

/-- The place of the last lexeme of a text; the beginning if it has
none. -/
def lastPlace (ls : List Located) : Place :=
  match ls.getLast? with
  | some l => l.place
  | none => .start

end Reader

/-- **The rules of a list of lexemes.** -/
def readLexemes (names : Resolver) (ls : List Located) : Except LanguageFault (List Rule) :=
  Reader.State.between.read names (Reader.lastPlace ls) ls

/-- **The rules of a text.** -/
def readRules (names : Resolver) (source : String) : Except LanguageFault (List Rule) := do
  let ls ← scan source
  readLexemes names ls

end FuzzyInference
