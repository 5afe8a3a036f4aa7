import EllipticPlot.Equation

/-!
# Sums and their candidates

Two formulas may give a sum. The second is consulted where the first fails or lands off the curve,
and the candidate closer to the curve is kept.
-/

namespace EllipticPlot

/-- The sum of two points, and the line through them that it was found on, if one was used. -/
structure Sum (α : Type) where
  point : Point α
  line? : Option (Point α)

namespace Sum

variable {α : Type} [Scalar α]

/-- The third point of the line on the curve: the mirror image of the sum. -/
def thirdIntersection? (s : Sum α) : Option (Point α) :=
  s.line?.map fun _ => s.point.mirrorY

/-- A candidate with a residual below this is taken without a second one. -/
def acceptedResidual : α := 1e-10

/-- `first` if it is on the curve, else whichever of the two is closer to it. -/
def closer? (equation : Equation α) (first second : Option (Point α)) : Option (Point α) :=
  match first with
  | none => second
  | some r =>
    if Scalar.abs (equation.residual r) < acceptedResidual then some r
    else
      match second with
      | none => some r
      | some s =>
        if Scalar.abs (equation.residual s) < Scalar.abs (equation.residual r) then some s
        else some r

end Sum

end EllipticPlot
