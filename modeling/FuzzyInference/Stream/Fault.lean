import FuzzyInference.Stream.Token
import FuzzyInference.Style

/-!
# What can be wrong with a rule stream

A rule stream is refused at a **position**, the place of a token that cannot
stand where it stands, or the length of the stream when it stops too early.
The reasons fall into three groups: a token of the wrong
kind, a number that is out of range or reserved, and a term that the
system at hand does not have in the place referred to.
-/

namespace FuzzyInference

/-- **A reason to refuse a rule stream.** -/
inductive StreamFault.Reason where
  /-- The stream has no token. -/
  | noTokens
  /-- The stream does not begin with the opening mark. -/
  | notOpening (found : Token)
  /-- The stream stops before the closing mark. -/
  | truncated
  /-- The number of a variable is not below the number of variables. -/
  | subjectOutOfRange (side : Side) (value : Int) (limit : Nat)
  /-- A mark stands where the number of a variable is due. -/
  | notSubject (side : Side) (found : Token)
  /-- A reference refers to nothing. -/
  | reservedReference
  /-- A mark stands where a reference to a term is due. -/
  | notReference (found : Token)
  /-- A mark that cannot begin a statement of a premise. -/
  | notClause (found : Token)
  /-- A statement of a premise is followed by neither a connective nor the
  mark of consequence. -/
  | notLinked (found : Token)
  /-- A connective in front of the first statement of a premise. -/
  | danglingConnective
  /-- A conclusion is denied, and conclusions of this style cannot be. -/
  | negatedConclusion (style : Style)
  /-- No term is bound in the place referred to. -/
  | unboundTerm (side : Side) (index : Nat)
  /-- The term in the place referred to is one of another variable. -/
  | foreignTerm (side : Side) (index owner subject : Nat)
deriving DecidableEq, Repr

namespace StreamFault.Reason

/-- The text of a reason. -/
def message : StreamFault.Reason → String
  | .noTokens => "empty rule stream"
  | .notOpening found => s!"expected BEGIN, found {found.text}"
  | .truncated => "stream truncated before RULES_END"
  | .subjectOutOfRange side value limit =>
    s!"{side.name} tag {value} out of range (0..{limit})"
  | .notSubject side found => s!"expected {side.name} tag, found {found.text}"
  | .reservedReference => "membership reference 0 is reserved"
  | .notReference found => s!"expected membership reference, found {found.text}"
  | .notClause found => s!"unexpected {found.text} in antecedent"
  | .notLinked found => s!"expected AND, OR or THEN, found {found.text}"
  | .danglingConnective => "connector before the first clause of a rule"
  | .negatedConclusion style =>
    s!"negated consequents require a Mamdani system, not {style.title}"
  | .unboundTerm side index => s!"{side.name} membership function {index} is not bound"
  | .foreignTerm side index owner subject =>
    s!"{side.name} membership function {index} belongs to {side.name} {owner}, not {subject}"

end StreamFault.Reason

/-- **A fault of a rule stream**: where it is refused, and why. -/
structure StreamFault where
  /-- The place of the token that is objected to. -/
  position : Nat
  /-- Why it cannot. -/
  reason : StreamFault.Reason
deriving DecidableEq, Repr

namespace StreamFault

/-- The text of a fault. -/
def message (f : StreamFault) : String :=
  s!"Malformed rule stream at token {f.position}: {f.reason.message}"

end StreamFault

end FuzzyInference
