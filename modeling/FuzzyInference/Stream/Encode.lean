import FuzzyInference.Stream.Token

/-!
# Rule streams

A **rule stream** is a rule base written as a table of raw tokens. It
opens with one mark, closes with another, and holds the rules one after
the other in between, each with its premise, the mark of consequence, and
its conclusions:

```text
opening   x t  and y u  or z v  consequence  o s  and p r   …   closing
```

A rule has no mark of its own at its end: the conclusions end where the
next token is not `and`. Nothing is checked when a table of integers is
taken as a stream; `FuzzyInference.Stream.Cursor` reads it.
-/

namespace FuzzyInference

namespace Atom

/-- The two raw tokens of a statement. -/
def encode (w : Width) (a : Atom) : Except EncodingFault (List (Raw w)) := do
  let subject ← encodeTag w a.subject
  let term ← a.term.encode w
  return [subject, term]

/-- The raw tokens of statements with connectives in front of them. -/
def encodeLinked (w : Width) : List (Connective × Atom) → Except EncodingFault (List (Raw w))
  | [] => .ok []
  | (c, a) :: rest => do
    let here ← a.encode w
    let there ← encodeLinked w rest
    return (Mark.ofConnective c).raw w :: here ++ there

end Atom

namespace Rule

/-- **The raw tokens of a rule.** -/
def encode (w : Width) (r : Rule) : Except EncodingFault (List (Raw w)) :=
  match r.premise, r.conclusions with
  | none, _ => .error .noPremise
  | some _, [] => .error .noConclusion
  | some p, a :: more => do
    let first ← p.first.encode w
    let rest ← Atom.encodeLinked w p.rest
    let conclusion ← a.encode w
    let others ← Atom.encodeLinked w (more.map (Connective.and, ·))
    return first ++ rest ++ Mark.consequence.raw w :: conclusion ++ others

end Rule

/-- **A rule stream** of a width. -/
structure RuleStream (w : Width) where
  /-- The table of raw tokens. -/
  table : List (Raw w)
deriving DecidableEq, Repr

namespace RuleStream

variable {w : Width}

/-- The stream of a list of rules. -/
def encode (w : Width) (rules : List Rule) : Except EncodingFault (RuleStream w) := do
  let bodies ← rules.mapM (Rule.encode w)
  return ⟨Mark.opening.raw w :: bodies.flatten ++ [Mark.closing.raw w]⟩

/-- **The tokens of a stream.** -/
def tokens (s : RuleStream w) : List Token := s.table.map Token.ofRaw

/-- The number of raw tokens. -/
def length (s : RuleStream w) : Nat := s.table.length

/-- **The number of rules**: the marks of consequence before the first
closing mark. -/
def ruleCount (s : RuleStream w) : Nat :=
  (s.tokens.takeWhile (· ≠ .mark .closing)).count (.mark .consequence)

/-- The text of a stream: its tokens, separated by blanks. -/
def text (s : RuleStream w) : String := " ".intercalate (s.tokens.map Token.text)

end RuleStream

end FuzzyInference
