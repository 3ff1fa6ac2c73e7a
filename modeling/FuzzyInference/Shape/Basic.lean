/-!
# Shapes

A linguistic term is given by a **shape** and the coefficients that place
it on the universe of its variable. Shapes play three parts. Most are
*conventional*: they say to what degree a value has the term. One is a
*combination* of the inputs, for the conclusions of Sugeno systems. The
rest are *inverses* of conventional shapes that rise or fall throughout,
for the conclusions of Tsukamoto systems: they are given a degree and
answer with a point that has it.
-/

namespace FuzzyInference

/-- **The shapes that rise or fall throughout**, which are read backwards
in Tsukamoto systems. -/
inductive Ramp where
  /-- A straight rise. -/
  | linearS
  /-- A straight fall. -/
  | linearZ
  /-- A bend towards its end. -/
  | concave
  /-- A sigmoid, rising or falling. -/
  | sigmoid
  /-- A smooth rise. -/
  | smoothS
  /-- A smooth fall. -/
  | smoothZ
deriving DecidableEq, Repr

/-- **The built-in shapes.** -/
inductive Shape where
  /-- `[c]`: the same everywhere. -/
  | constant
  /-- `[a, b, c]`: from `a` up to `b` and down to `c`. -/
  | triangular
  /-- `[a, b, c, d]`: from `a` up to `b`, level to `c`, down to `d`. -/
  | trapezoidal
  /-- `[a, b, c]`: a bell of width `a` and steepness `b` around `c`. -/
  | bell
  /-- `[σ, c]`: the normal curve of width `σ` around `c`. -/
  | gaussian
  /-- `[σ₁, c₁, σ₂, c₂]`: a normal curve below `c₁`, another above `c₂`,
  and level in between. -/
  | gaussianPair
  /-- `[a, c]`: the logistic curve of slope `a` around `c`. -/
  | sigmoid
  /-- `[a₁, c₁, a₂, c₂]`: how far two sigmoids are apart. -/
  | sigmoidDifference
  /-- `[a₁, c₁, a₂, c₂]`: two sigmoids multiplied. -/
  | sigmoidProduct
  /-- `[a, b, c, d]`: a smooth rise from `a` to `b`, a smooth fall from
  `c` to `d`. -/
  | pi
  /-- `[a, b]`: a smooth rise. -/
  | smoothS
  /-- `[a, b]`: a smooth fall. -/
  | smoothZ
  /-- `[a]`: nothing but `a`. -/
  | singleton
  /-- `[i, e]`: a bend from `i` towards `e`, level beyond. -/
  | concave
  /-- `[w, c]`: a sharp peak of width `w` at `c`. -/
  | spike
  /-- `[a, b]`: a straight rise. -/
  | linearS
  /-- `[a, b]`: a straight fall. -/
  | linearZ
  /-- `[a, b]`: everything from `a` to `b`. -/
  | rectangle
  /-- `[c, w]`: one wave of width `w` around `c`. -/
  | cosine
  /-- `[c₁, …, cₙ, c₀]`: the sum of the inputs with these weights, and
  `c₀`. -/
  | combination
  /-- `[a, b]`: the inverse of a ramp. -/
  | inverse (ramp : Ramp)
deriving DecidableEq, Repr

/-- The part a shape plays. -/
inductive ShapePart where
  /-- A degree for every value. -/
  | conventional
  /-- A function of the inputs. -/
  | sugeno
  /-- A point for every degree. -/
  | tsukamoto
deriving DecidableEq, Repr

namespace ShapePart

/-- The name of a part. -/
def title : ShapePart → String
  | .conventional => "Conventional"
  | .sugeno => "Sugeno"
  | .tsukamoto => "Tsukamoto"

end ShapePart

namespace Ramp

/-- All the ramps. -/
def all : List Ramp := [.linearS, .linearZ, .concave, .sigmoid, .smoothS, .smoothZ]

/-- **The shape an inverse is the inverse of.** -/
def direct : Ramp → Shape
  | .linearS => .linearS
  | .linearZ => .linearZ
  | .concave => .concave
  | .sigmoid => .sigmoid
  | .smoothS => .smoothS
  | .smoothZ => .smoothZ

end Ramp

namespace Shape

/-- All the shapes. -/
def all : List Shape :=
  [.constant, .triangular, .trapezoidal, .bell, .gaussian, .gaussianPair, .sigmoid,
    .sigmoidDifference, .sigmoidProduct, .pi, .smoothS, .smoothZ, .singleton, .concave, .spike,
    .linearS, .linearZ, .rectangle, .cosine, .combination] ++ Ramp.all.map .inverse

/-- The part a shape plays. -/
def part : Shape → ShapePart
  | .combination => .sugeno
  | .inverse _ => .tsukamoto
  | _ => .conventional

/-- **How many coefficients a shape needs** in a system with so many
inputs. More may be given. -/
def coefficientCount (inputs : Nat) : Shape → Nat
  | .constant | .singleton => 1
  | .triangular | .bell => 3
  | .trapezoidal | .gaussianPair | .sigmoidDifference | .sigmoidProduct | .pi => 4
  | .combination => inputs + 1
  | _ => 2

/-- The name of a shape in a message. -/
def title : Shape → String
  | .constant => "Constant"
  | .triangular => "Triangular"
  | .trapezoidal => "Trapezoidal"
  | .bell => "GeneralizedBell"
  | .gaussian => "Gaussian"
  | .gaussianPair => "Gaussian2"
  | .sigmoid => "Sigmoid"
  | .sigmoidDifference => "DiffSigmoid"
  | .sigmoidProduct => "ProdSigmoid"
  | .pi => "Pi"
  | .smoothS => "S"
  | .smoothZ => "Z"
  | .singleton => "Singleton"
  | .concave => "Concave"
  | .spike => "Spike"
  | .linearS => "LinearS"
  | .linearZ => "LinearZ"
  | .rectangle => "Rectangle"
  | .cosine => "Cosine"
  | .combination => "Linear"
  | .inverse .linearS => "TLinearS"
  | .inverse .linearZ => "TLinearZ"
  | .inverse .concave => "TConcave"
  | .inverse .sigmoid => "TSigmoid"
  | .inverse .smoothS => "TS"
  | .inverse .smoothZ => "TZ"

/-- **The name of a shape in a description.** -/
def name : Shape → String
  | .constant => "constant"
  | .triangular => "triangular"
  | .trapezoidal => "trapezoidal"
  | .bell => "generalized_bell"
  | .gaussian => "gaussian"
  | .gaussianPair => "gaussian2"
  | .sigmoid => "sigmoid"
  | .sigmoidDifference => "diff_sigmoid"
  | .sigmoidProduct => "prod_sigmoid"
  | .pi => "pi"
  | .smoothS => "s"
  | .smoothZ => "z"
  | .singleton => "singleton"
  | .concave => "concave"
  | .spike => "spike"
  | .linearS => "linear_s"
  | .linearZ => "linear_z"
  | .rectangle => "rectangle"
  | .cosine => "cosine"
  | .combination => "linear"
  | .inverse .linearS => "t_linear_s"
  | .inverse .linearZ => "t_linear_z"
  | .inverse .concave => "t_concave"
  | .inverse .sigmoid => "t_sigmoid"
  | .inverse .smoothS => "t_s"
  | .inverse .smoothZ => "t_z"

/-- The classic name of a shape, which a description may use as well. -/
def classicName : Shape → String
  | .constant => "constantmf"
  | .triangular => "trimf"
  | .trapezoidal => "trapmf"
  | .bell => "gbellmf"
  | .gaussian => "gaussmf"
  | .gaussianPair => "gauss2mf"
  | .sigmoid => "sigmf"
  | .sigmoidDifference => "dsigmf"
  | .sigmoidProduct => "psigmf"
  | .pi => "pimf"
  | .smoothS => "smf"
  | .smoothZ => "zmf"
  | .singleton => "singletonmf"
  | .concave => "concavemf"
  | .spike => "spikemf"
  | .linearS => "linsmf"
  | .linearZ => "linzmf"
  | .rectangle => "rectmf"
  | .cosine => "cosmf"
  | .combination => "linearmf"
  | .inverse .linearS => "tlinsmf"
  | .inverse .linearZ => "tlinzmf"
  | .inverse .concave => "tconcavemf"
  | .inverse .sigmoid => "tsigmf"
  | .inverse .smoothS => "tsmf"
  | .inverse .smoothZ => "tzmf"

/-- The shape of a name, plain or classic. -/
def ofName? (name : String) : Option Shape :=
  all.find? fun shape => shape.name = name || shape.classicName = name

end Shape

end FuzzyInference
