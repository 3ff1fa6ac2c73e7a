import FuzzyInference.Norm.Basic
import FuzzyInference.Rule.Basic

/-!
# Settings

A system uses one norm for each of four purposes, and samples the curves
of its outputs at so many points. A `Setting` is a choice of one of
these.
-/

namespace FuzzyInference

/-- **A choice** of a norm for a purpose, or of a number of points. -/
inductive Setting where
  /-- The norm that joins statements by `and`. -/
  | and (norm : Norm)
  /-- The norm that joins statements by `or`. -/
  | or (norm : Norm)
  /-- The norm that cuts a conclusion to the strength of its rule. -/
  | implication (norm : Norm)
  /-- The norm that unites the conclusions about one output. -/
  | aggregation (norm : Norm)
  /-- How many steps the universe of an output is divided into. -/
  | evalPoints (count : Nat)
deriving DecidableEq, Repr

namespace Setting

/-- A setting as a message shows it. -/
def message : Setting → String
  | .and n => s!"And({n.title})"
  | .or n => s!"Or({n.title})"
  | .implication n => s!"Implication({n.title})"
  | .aggregation n => s!"Aggregation({n.title})"
  | .evalPoints k => s!"EvalPoints({k})"

/-- The least number of points a system accepts. -/
def leastEvalPoints : Nat := 20

/-- The number of points a system has to begin with. -/
def defaultEvalPoints : Nat := 100

end Setting

/-- **The norms of a system.** -/
structure Norms where
  /-- For `and`. -/
  and : Norm
  /-- For `or`. -/
  or : Norm
  /-- For cutting a conclusion. -/
  implication : Norm
  /-- For uniting conclusions. -/
  aggregation : Norm
deriving DecidableEq, Repr

namespace Norms

/-- The norms a system has to begin with. -/
def initial : Norms := ⟨.minimum, .maximum, .minimum, .maximum⟩

/-- **The norms after a choice**, unless the norm chosen is not fit for
its purpose. A number of points is no choice of a norm. -/
def choose? (n : Norms) : Setting → Option Norms
  | .and op => if op.isTNorm then some { n with and := op } else none
  | .or op => if op.isSNorm then some { n with or := op } else none
  | .implication op => if op.isTNorm then some { n with implication := op } else none
  | .aggregation op => if op.isSNorm then some { n with aggregation := op } else none
  | .evalPoints _ => none

/-- The norm that joins statements by a connective. -/
def joining (n : Norms) : Connective → Norm
  | .and => n.and
  | .or => n.or

end Norms

end FuzzyInference
