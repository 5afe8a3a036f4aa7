import EllipticPlot.Cubic
import EllipticPlot.Equation

/-!
# Curves

A curve is an equation with the seeds from which its branches are traced: the places where they
cross the axis `y = 0`, and for some Edwards curves the axis `x = 0`. A curve is refused if it is
singular at a seed.
-/

namespace EllipticPlot

/-- An equation and the points, of no particular scale, at which tracing starts. -/
structure Curve (α : Type) where
  equation : Equation α
  seeds : List (Point α)

namespace Curve

variable {α : Type} [Scalar α]

/-- A seed whose gradient at unit length is shorter than this is singular. -/
def singularGradient : α := 1e-10

/-- The seeds of an equation; those of a Weierstrass curve are the roots of its cubic. -/
def seedsOf : Equation α → Except PlotError (List (Point α))
  | .weierstrass a b => (DepressedCubic.mk a b).roots.map (·.map fun x => ⟨x, 0.0, 1.0⟩)
  | .edwards d =>
    let sides := [⟨-1.0, 0.0, 1.0⟩, ⟨1.0, 0.0, 1.0⟩]
    .ok (if 1.0 ≤ d then sides ++ [⟨0.0, -1.0, 1.0⟩, ⟨0.0, 1.0, 1.0⟩] else sides)

def isSingularAt (equation : Equation α) (seed : Point α) : Bool :=
  (equation.gradient seed.normalize).norm < singularGradient

/-- The curve of an equation with finite parameters that is smooth at its seeds. -/
def ofEquation (equation : Equation α) : Except PlotError (Curve α) :=
  if !equation.isFinite then .error .invalidParameter
  else
    match seedsOf equation with
    | .error e => .error e
    | .ok seeds =>
      if seeds.any (isSingularAt equation) then .error .invalidParameter
      else .ok ⟨equation, seeds⟩

end Curve

end EllipticPlot
