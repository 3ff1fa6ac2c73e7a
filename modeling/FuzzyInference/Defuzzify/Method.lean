import FuzzyInference.Defuzzify.Samples
import FuzzyInference.Style

/-!
# Methods of defuzzification

A **defuzzifier** turns what inference has found about an output into one
crisp value. Five of them read a sampled curve, for Mamdani systems, and
two read a weighted sum, for the other styles. A defuzzifier that is
handed the wrong kind of finding answers that there is no such value, and
so does any of them when no rule has said anything.
-/

namespace FuzzyInference

/-- **A method of defuzzification.** -/
inductive Defuzzifier where
  /-- The centre of gravity. -/
  | centroid
  /-- The line that halves the area. -/
  | bisector
  /-- The middle of the first stretch at the top. -/
  | middleOfMaximum
  /-- The last point at the top. -/
  | largestOfMaximum
  /-- The first point at the top. -/
  | smallestOfMaximum
  /-- The average of the conclusions, weighted by their strengths. -/
  | weightedAverage
  /-- The sum of the conclusions, weighted by their strengths. -/
  | weightedSum
deriving DecidableEq, Repr

namespace Defuzzifier

/-- All the methods. -/
def all : List Defuzzifier :=
  [.centroid, .bisector, .middleOfMaximum, .largestOfMaximum, .smallestOfMaximum,
    .weightedAverage, .weightedSum]

/-- The name of a method in a message. -/
def title : Defuzzifier → String
  | .centroid => "Centroid"
  | .bisector => "Bisector"
  | .middleOfMaximum => "Mom"
  | .largestOfMaximum => "Lom"
  | .smallestOfMaximum => "Som"
  | .weightedAverage => "WeightedAverage"
  | .weightedSum => "WeightedSum"

/-- The name of a method in a description. -/
def name : Defuzzifier → String
  | .centroid => "centroid"
  | .bisector => "bisector"
  | .middleOfMaximum => "mom"
  | .largestOfMaximum => "lom"
  | .smallestOfMaximum => "som"
  | .weightedAverage => "weighted_average"
  | .weightedSum => "weighted_sum"

/-- Whether a method reads a sampled curve. -/
def isSampled : Defuzzifier → Bool
  | .weightedAverage | .weightedSum => false
  | _ => true

/-- The method a system has to begin with. -/
def initial : Style → Defuzzifier
  | .mamdani => .centroid
  | .sugeno | .tsukamoto => .weightedAverage

/-- **Whether a method suits a style.** -/
def suits (d : Defuzzifier) : Style → Bool
  | .mamdani => d.isSampled
  | .sugeno => d = .weightedAverage || d = .weightedSum
  | .tsukamoto => d = .weightedAverage

variable {α : Type} [Scalar α]

/-- **The crisp value of a sampled curve.** -/
def ofSamples? (d : Defuzzifier) (s : Samples α) : Option α :=
  match d with
  | .centroid => some s.centroid
  | .bisector => s.bisector?
  | .middleOfMaximum => some s.middleOfMaximum
  | .largestOfMaximum => some s.largestOfMaximum
  | .smallestOfMaximum => some s.smallestOfMaximum
  | .weightedAverage | .weightedSum => some Scalar.nan

/-- **The crisp value of weighted conclusions**, from their weighted sum
and the sum of the weights. -/
def ofWeighted (d : Defuzzifier) (weighted weight : α) : α :=
  if weight ≤ 0 then Scalar.nan
  else
    match d with
    | .weightedAverage => weighted / weight
    | .weightedSum => weighted
    | _ => Scalar.nan

end Defuzzifier

end FuzzyInference
