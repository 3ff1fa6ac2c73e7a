import FuzzyInference.Rule.Basic
import FuzzyInference.Stream.Width

/-!
# Tokens

What a raw token means does not depend on its width: it is one of five
**marks**, which give a rule stream its structure, or a **datum**, an
integer with a meaning of its own. A datum is the number of a variable or
a reference to a linguistic term: `k + 1` asserts term `k` and
`-(k + 1)` denies it, so that zero refers to nothing.

The marks are written as the five least integers of the width, in the
order of `Mark.rank`. A datum that would fall among them, or outside the
width, cannot be written, and `EncodingFault.tooLarge` says which number
it was that did not fit.
-/

namespace FuzzyInference

/-- **A mark of a rule stream.** -/
inductive Mark where
  /-- The beginning of the stream. -/
  | opening
  /-- The end of the rules. -/
  | closing
  /-- Joins what both has to hold, or two conclusions. -/
  | conjunction
  /-- Joins what either has to hold. -/
  | disjunction
  /-- Separates a premise from its conclusions. -/
  | consequence
deriving DecidableEq, Repr

namespace Mark

/-- All the marks, in the order of their ranks. -/
def all : List Mark := [.opening, .closing, .conjunction, .disjunction, .consequence]

/-- The place of a mark among the reserved integers. -/
def rank : Mark → Nat
  | .opening => 0
  | .closing => 1
  | .conjunction => 2
  | .disjunction => 3
  | .consequence => 4

/-- The mark at a place among the reserved integers. -/
def ofRank? : Nat → Option Mark
  | 0 => some .opening
  | 1 => some .closing
  | 2 => some .conjunction
  | 3 => some .disjunction
  | 4 => some .consequence
  | _ => none

/-- The mark that writes a connective. -/
def ofConnective : Connective → Mark
  | .and => .conjunction
  | .or => .disjunction

/-- The name of a mark. -/
def title : Mark → String
  | .opening => "BEGIN"
  | .closing => "RULES_END"
  | .conjunction => "AND"
  | .disjunction => "OR"
  | .consequence => "THEN"

/-- The raw token that writes a mark. -/
def raw (w : Width) (m : Mark) : Raw w :=
  ⟨w.least + m.rank, by cases w <;> cases m <;> decide⟩

end Mark

/-- **A token**: a mark or a datum. -/
inductive Token where
  /-- A mark. -/
  | mark (m : Mark)
  /-- A datum. -/
  | datum (v : Int)
deriving DecidableEq, Repr

/-- Why a rule base cannot be written at a width. -/
inductive EncodingFault where
  /-- The number of a variable or of a term does not fit. -/
  | tooLarge (number : Nat)
  /-- A rule has no premise. -/
  | noPremise
  /-- A rule has no conclusion. -/
  | noConclusion
deriving DecidableEq, Repr

namespace EncodingFault

/-- The text of a fault. -/
def message : EncodingFault → String
  | .tooLarge number => s!"Tag {number} does not fit the rule token type"
  | .noPremise => "Empty rule: rule has no antecedent"
  | .noConclusion => "Empty rule: rule has no consequent"

end EncodingFault

/-- The raw token of a datum. When there is none the fault names
`number`. -/
def Raw.ofDatum (w : Width) (number : Nat) (v : Int) : Except EncodingFault (Raw w) :=
  if h : w.HoldsData v then .ok ⟨v, by have := h.1; have := h.2; omega⟩
  else .error (.tooLarge number)

namespace Token

/-- **The meaning of a raw token.** -/
def ofRaw {w : Width} (r : Raw w) : Token :=
  match Mark.ofRank? (r.value - w.least).toNat with
  | some m => .mark m
  | none => .datum r.value

/-- **The raw token that means a token**, at a width. -/
def encode (w : Width) : Token → Except EncodingFault (Raw w)
  | .mark m => .ok (m.raw w)
  | .datum v => Raw.ofDatum w v.natAbs v

/-- Whether a token is a mark. -/
def isMark : Token → Bool
  | .mark _ => true
  | .datum _ => false

/-- The text of a token. -/
def text : Token → String
  | .mark m => m.title
  | .datum v => toString v

end Token

/-! ## Variables and terms as data -/

/-- The raw token for the number of a variable. -/
def encodeTag (w : Width) (tag : Nat) : Except EncodingFault (Raw w) :=
  Raw.ofDatum w tag tag

namespace TermRef

/-- The reference a datum stands for; zero stands for none. -/
def ofValue? (v : Int) : Option TermRef :=
  if v = 0 then none else some ⟨v.natAbs - 1, v < 0⟩

/-- **The datum that stands for a reference.** It is the place counted
from one, with the opposite sign for a denial, as a signed word of
sixty-four bits. -/
def toValue (r : TermRef) : Int :=
  Int.bmod (if r.negated then -(r.index + 1) else r.index + 1) (Nat.pow 2 64)

/-- The raw token for a reference. -/
def encode (w : Width) (r : TermRef) : Except EncodingFault (Raw w) :=
  Raw.ofDatum w r.index r.toValue

end TermRef

end FuzzyInference
