import EllipticPlot.PlotError
import EllipticPlot.Scalar

/-!
# Depressed cubics

The distinct real roots of `x³ + p·x + q`, by Cardano's formulas. The sign of
`(q/2)² + (p/3)³` tells a repeated root, one real root and three real roots apart.
-/

namespace EllipticPlot

/-- The cubic `x³ + linear · x + constant`. -/
structure DepressedCubic (α : Type) where
  linear : α
  constant : α

namespace DepressedCubic

variable {α : Type} [Scalar α]

open Scalar

/-- Below this magnitude of the linear coefficient the trigonometric form divides by almost zero. -/
def degenerateLinear : α := 1e-12

/-- Negative for three real roots, zero for a repeated one, positive for a single one. -/
def delta (c : DepressedCubic α) : α := sq (0.5 * c.constant) + cube (third * c.linear)

def insertAscending (x : α) : List α → List α
  | [] => [x]
  | y :: ys => if x ≤ y then x :: y :: ys else y :: insertAscending x ys

def ascending (xs : List α) : List α := xs.foldr insertAscending []

/-- The roots of a cubic with a repeated root. -/
def repeatedRoots (c : DepressedCubic α) : List α :=
  if c.constant == 0.0 then [0.0]
  else
    let simple := cbrt (-4.0 * c.constant)
    ascending [simple, -0.5 * simple]

/-- The only real root of a cubic with positive `delta`. -/
def singleRoot (c : DepressedCubic α) : α :=
  let root := sqrt c.delta
  cbrt (-0.5 * c.constant + root) + cbrt (-0.5 * c.constant - root)

/-- The three roots of a cubic with negative `delta`: cosines of a third of an angle. -/
def threeRoots (c : DepressedCubic α) : List α :=
  let radius := sqrt (-4.0 * third * c.linear)
  let cosine := clamp (-1.0) 1.0 (-0.5 * c.constant * sqrt (cube (-3.0 / c.linear)))
  let angle := third * acos cosine
  [radius * cos angle,
    -radius * cos (angle + third * pi),
    -radius * cos (angle - third * pi)]

/-- The distinct real roots in ascending order. -/
def roots (c : DepressedCubic α) : Except PlotError (List α) :=
  if !isFinite c.linear || !isFinite c.constant then .error .invalidParameter
  else if c.delta == 0.0 then .ok c.repeatedRoots
  else if 0.0 < c.delta then .ok [c.singleRoot]
  else if abs c.linear < degenerateLinear then .error .degenerateCubic
  else if c.threeRoots.all isFinite then .ok (ascending c.threeRoots)
  else .error .degenerateCubic

end DepressedCubic

end EllipticPlot
