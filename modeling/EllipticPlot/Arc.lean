import EllipticPlot.Point

/-!
# Great circle arcs

The arc of a great circle from one point towards another, by which a chord is drawn on the sphere.
-/

namespace EllipticPlot

variable {α : Type} [Scalar α]

/-- Two points whose cross product is shorter than this span no plane. -/
def leastPlaneNormal : α := 1e-8

/-- The fewest segments, at least one, whose length is at most `step`. -/
def segmentCount (length step : α) : Nat := max 1 (Scalar.ceilNat (length / step))

/--
The vertices from `p` along its circle to the direction of `q`, in segments no longer than `step`;
none if the two points are parallel or the step is not positive.
-/
def greatCircleArc? (p q : Point α) (step : α) : Option (List (Point α)) :=
  let normal := p.cross q
  let sine := normal.norm
  if sine < leastPlaneNormal || !decide (0.0 < step) then none
  else
    let angle := Scalar.atan2 sine (p.dot q)
    let side := (normal.divide sine).cross p
    let count := segmentCount (angle * p.norm) step
    some ((List.range (count + 1)).map fun i =>
      let turn := angle * Scalar.ofNat i / Scalar.ofNat count
      p.scale (Scalar.cos turn) + side.scale (Scalar.sin turn))

end EllipticPlot
