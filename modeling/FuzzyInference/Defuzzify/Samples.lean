import FuzzyInference.Scalar

/-!
# Sampled curves

The curve of an output is known by its values at equally spaced points,
and a single point is read off it in one of five ways: the centre of
gravity, the line that halves the area, and three readings of where the
curve is highest. A curve with no area has no such point, and the answer
is then not a number.
-/

namespace FuzzyInference

/-- **A sampled curve**: the value `ys[k]` at the point `x0 + step · k`. -/
structure Samples (α : Type) where
  /-- The values. -/
  ys : List α
  /-- The first point. -/
  x0 : α
  /-- The distance between points. -/
  step : α

namespace Samples

variable {α : Type} [Scalar α]

open Scalar

/-- The point of a number. -/
def x (s : Samples α) (k : Nat) : α := s.x0 + s.step * (k : α)

/-- The values with their points, in order. -/
def points (s : Samples α) : List (α × α) :=
  s.ys.zipIdx.map fun (y, k) => (s.x k, y)

/-- The sum of the values, which is the area in units of the distance. -/
def area (s : Samples α) : α := sum s.ys

/-- Whether the curve has no area. -/
abbrev IsFlat (s : Samples α) : Prop := s.area ≤ 0

/-! ## The centre of gravity -/

/-- **The centre of gravity.** -/
def centroid (s : Samples α) : α :=
  let (moment, mass) := s.points.foldl (fun (moment, mass) (x, y) => (moment + x * y, mass + y))
    ((0 : α), (0 : α))
  if 0 < mass then moment / mass else nan

/-! ## The line that halves the area -/

/-- **Where two sweeps meet**: a sample, and the area gathered on either
side of it. -/
structure Balance (α : Type) where
  /-- The number of the sample. -/
  index : Nat
  /-- Its value. -/
  value : α
  /-- The area before it. -/
  before : α
  /-- The area behind it. -/
  behind : α

/-- **Two sweeps towards each other.** `front` and `back` are the samples
as seen from the left sweep and from the right one, `gap` is how many
samples they are apart, and whichever side would have gathered the
smaller area with its next sample takes it. -/
def sweep (gap index : Nat) (before behind : α) (front back : List α) : Option (Balance α) :=
  match gap, front, back with
  | 0, y :: _, _ => some ⟨index, y, before, behind⟩
  | gap + 1, a :: front, b :: back =>
    if before + a ≤ behind + b then
      sweep gap (index + 1) (before + a) behind front (b :: back)
    else sweep gap index before (behind + b) (a :: front) back
  | _, _, _ => none

/-- The point within the sample where two sweeps meet that makes up for
the difference of the areas; at most half a step from its middle. -/
def halfway (s : Samples α) (b : Balance α) : α :=
  let offset :=
    if 0 < b.value then clamp (-half) half ((b.behind - b.before) / (two * b.value)) else 0
  s.x b.index + s.step * offset

/-- **The point that halves the area.** -/
def bisector? (s : Samples α) : Option α :=
  if s.ys = [] ∨ s.IsFlat then some nan
  else (sweep (s.ys.length - 1) 0 0 0 s.ys s.ys.reverse).map s.halfway

/-! ## Where the curve is highest -/

/-- The value no sample of a curve is below, before any has been seen. -/
def underneath : α := -1

/-- **The last point at which the curve is highest.** -/
def largestOfMaximum (s : Samples α) : α :=
  if s.IsFlat then nan
  else
    (s.points.foldl (fun (top, best) (x, y) => if top ≤ y then (y, x) else (top, best))
      (underneath, s.x 0)).2

/-- **The first point at which the curve is highest.** -/
def smallestOfMaximum (s : Samples α) : α :=
  if s.IsFlat then nan
  else
    (s.points.foldl (fun (top, best) (x, y) => if top < y then (y, x) else (top, best))
      (underneath, s.x 0)).2

/-- **The first stretch on which the curve is near its top**, as far as it
has been seen. -/
structure Plateau (α : Type) where
  /-- The top. -/
  top : α
  /-- Where the stretch begins. -/
  first : α
  /-- Where it ends. -/
  last : α
  /-- Whether it goes on. -/
  ongoing : Bool

/-- The stretch after one more sample: a new top starts another, a value
near the top prolongs the stretch while it goes on, and any other value
ends it. -/
def Plateau.extend (p : Plateau α) (x y : α) : Plateau α :=
  if p.top < y ∧ ¬ Near y p.top then ⟨y, x, x, true⟩
  else if Near y p.top then if p.ongoing then { p with last := x } else p
  else { p with ongoing := false }

/-- The first stretch on which the curve is near its top. -/
def plateau (s : Samples α) : Plateau α :=
  s.points.foldl (fun p (x, y) => p.extend x y) ⟨underneath, s.x 0, s.x 0, false⟩

/-- **The middle of the first stretch at the top.** -/
def middleOfMaximum (s : Samples α) : α :=
  if s.IsFlat then nan else half * (s.plateau.first + s.plateau.last)

end Samples

end FuzzyInference
