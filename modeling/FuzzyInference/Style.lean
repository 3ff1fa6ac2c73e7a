/-!
# Styles of inference and the two sides of a system

A fuzzy system has crisp inputs on one side and crisp outputs on the
other, and draws its conclusions in one of three styles.
-/

namespace FuzzyInference

/-- **A style of inference**, which is a reading of the conclusions of
rules. -/
inductive Style where
  /-- A conclusion is a fuzzy set over the universe of the output. -/
  | mamdani
  /-- A conclusion is a function of the inputs. -/
  | sugeno
  /-- A conclusion is the point at which a ramp reaches the strength of
  the rule. -/
  | tsukamoto
deriving DecidableEq, Repr

namespace Style

/-- All the styles. -/
def all : List Style := [.mamdani, .sugeno, .tsukamoto]

/-- The name of a style in a message. -/
def title : Style → String
  | .mamdani => "Mamdani"
  | .sugeno => "Sugeno"
  | .tsukamoto => "Tsukamoto"

/-- The name of a style in a description. -/
def name : Style → String
  | .mamdani => "mamdani"
  | .sugeno => "sugeno"
  | .tsukamoto => "tsukamoto"

end Style

/-- A side of a system. -/
inductive Side where
  /-- The variables a system reads. -/
  | input
  /-- The variables a system determines. -/
  | output
deriving DecidableEq, Repr

namespace Side

/-- Both sides. -/
def all : List Side := [.input, .output]

/-- The name of a side in front of a message. -/
def title : Side → String
  | .input => "Input"
  | .output => "Output"

/-- The name of a side in a description and within a message. -/
def name : Side → String
  | .input => "input"
  | .output => "output"

end Side

end FuzzyInference
