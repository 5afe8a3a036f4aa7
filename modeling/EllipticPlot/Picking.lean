import EllipticPlot.Message
import EllipticPlot.Projection

/-!
# Picking

Finding the curve point that is meant by a place near the unit sphere, and the place on the sphere
that is meant by a line of sight.
-/

namespace EllipticPlot

variable {α : Type} [Scalar α]

/-! ### Points of the curve -/

/-- The residual that a picked point has to reach. -/
def pickTolerance : α := 1e-14

/-- A pick this far below the plane `z = 0` still means a point at infinity. -/
def pickLowest : α := -0.01

namespace Equation

/-- The projection of `p`, with a warning if it did not converge. -/
def project (equation : Equation α) (tolerance : α) (p : Point α) : Logged α (Projection α) :=
  let projection := equation.projectWithin projectionLimit tolerance p
  let warning := Message.notProjected p projectionLimit projection.residual?
  ⟨projection, if projection.converged then #[] else #[warning]⟩

/-- Whether a projection is on the curve and not clearly in the lower half. -/
def acceptsPick (projection : Projection α) : Bool :=
  match projection.residual? with
  | some residual =>
    !decide (projection.point.z < pickLowest) && decide (Scalar.abs residual < pickTolerance)
  | none => false

/-- A point of the upper half as it is; any other means infinity on its side of `y = 0`. -/
def snapToInfinity (p : Point α) : Point α :=
  if p.z ≤ 0.0 then ⟨0.0, Scalar.unitSign p.y, 0.0⟩ else p

/-- The curve point meant by a place near the unit sphere, if there is one close enough. -/
def pick (equation : Equation α) (p : Point α) : Logged α (Option (Point α)) :=
  let projection := equation.projectWithin projectionLimit pickTolerance p
  if acceptsPick projection then ⟨some (snapToInfinity projection.point), #[]⟩
  else ⟨none, #[.pickMissed p projection.residual?]⟩

end Equation

/-! ### Points of the sphere -/

/-- Lines of sight that stay this far from the centre miss the sphere. -/
def pickRadius : α := 1.01

/--
The point of the unit sphere seen along a line of sight: the nearer intersection, unless only the
farther one is in the upper half. A line that just misses the sphere is met at its closest point.
-/
def spherePoint? (origin direction : Point α) : Option (Point α) :=
  match direction.unit? with
  | none => none
  | some unit =>
    let closest := origin - unit.scale (origin.dot unit)
    let distance := closest.norm
    if pickRadius ≤ distance then none
    else if 1.0 ≤ distance then some closest
    else
      let halfChord := Scalar.sqrt (1.0 - distance * distance)
      let near := closest - unit.scale halfChord
      let far := closest + unit.scale halfChord
      some (if 0.0 ≤ near.z then near else far)

end EllipticPlot
