import EllipticPlot.GroupLaw.Candidate

/-!
# Addition on Weierstrass curves

The chord through two points, or the tangent where they coincide, meets the curve in a third
point, whose mirror image is the sum. It is computed in the affine chart `z = 1` or `y = 1`; both
give the same point, and the threshold only says which of them is tried first.
-/

namespace EllipticPlot.Weierstrass

variable {α : Type} [Scalar α]

open Scalar

/-- The point at infinity, which is the neutral element. -/
def neutral : Point α := ⟨0.0, 1.0, 0.0⟩

/-- Above this magnitude of the line's second coordinate the chart `z = 1` is tried first. -/
def defaultThreshold : α := 0.1

def isNeutral (p : Point α) : Bool := abs p.z ≤ sqrt Point.sameAngleSq * p.norm

/-- The affine charts of the plane. -/
inductive Chart where
  | z
  | y

def Chart.other : Chart → Chart
  | .z => .y
  | .y => .z

/-- The chord through two points, or the tangent at the first if they are the same. -/
def line (a b : α) (p q : Point α) : Point α :=
  if p.same q then (Equation.weierstrass a b).gradient p else p.cross q

/-- In the chart `(x, y, 1)` the three `x` on a line of slope `s` sum to `s²`. -/
def sumInChartZ? (p q n : Point α) : Option (Point α) := do
  let s ← quotient? n.x n.y
  let x₁ ← quotient? p.x p.z
  let x₂ ← quotient? q.x q.z
  let x₃ := sq s - x₁ - x₂
  let y₃ ← quotient? (n.z + n.x * x₃) n.y
  Point.proper? ⟨x₃, y₃, 1.0⟩

/--
In the chart `(x, 1, z)` the three `z` on the line `x = -(u + s·z)` sum to
`(3s² + a)·u / (b - s³ - a·s)`. Of the two triples for the mirrored point the one with `0 ≤ z` is
taken.
-/
def sumInChartY? (a b : α) (p q n : Point α) : Option (Point α) := do
  let s ← quotient? n.z n.x
  let u ← quotient? n.y n.x
  let z₁ ← quotient? p.z p.y
  let z₂ ← quotient? q.z q.y
  let total ← quotient? ((3.0 * sq s + a) * u) (b - cube s - a * s)
  let z₃ := total - z₁ - z₂
  if z₃ < 0.0 then
    let x₃ ← quotient? (n.y + n.z * z₃) n.x
    Point.proper? ⟨x₃, 1.0, -z₃⟩
  else
    let x₃ ← quotient? (-(n.y + n.z * z₃)) n.x
    Point.proper? ⟨x₃, -1.0, z₃⟩

/-- The sum of `p` and `q` on the line `n`, as the chart gives it. -/
def candidate? (a b : α) (p q n : Point α) : Chart → Option (Point α)
  | .z => sumInChartZ? p q n
  | .y => sumInChartY? a b p q n

def preferredChart (threshold : α) (n : Point α) : Chart :=
  if threshold < abs n.y then .z else .y

/-- The sum of two points on the line `n`, neither of which is neutral. -/
def sumOnLine (a b threshold : α) (p q n : Point α) : Point α :=
  let chart := preferredChart threshold n
  let sum? := Sum.closer? (.weierstrass a b)
    (candidate? a b p q n chart) (candidate? a b p q n chart.other)
  -- a vertical tangent has no candidate
  sum?.getD neutral

def sum (a b threshold : α) (p q : Point α) : Sum α :=
  let n := line a b p q
  let point :=
    if isNeutral p then q.normalize
    else if isNeutral q then p.normalize
    else sumOnLine a b threshold p q n
  ⟨point, some n⟩

end EllipticPlot.Weierstrass
