import EllipticPlot.GroupLaw.Candidate

/-!
# Addition on Edwards curves

The dedicated formulas do not involve the parameter, but are undefined where one summand is the
other turned by a right angle or by half a turn. The unified formula covers these pairs unless the
parameter is `1`. It has exceptional pairs of its own, where a denominator vanishes together with
its numerator: those with a singular point at infinity, and if the parameter is positive also some
pairs of finite points.
-/

namespace EllipticPlot.Edwards

variable {α : Type} [Scalar α]

open Scalar

/-- The double of a point. -/
def doubled (p : Point α) : Point α :=
  let b := sq (p.x + p.y)
  let c := sq p.x
  let d := sq p.y
  let e := c + d
  let h := sq p.z
  let j := e - 2.0 * h
  ⟨(b - e) * j, e * (c - d), e * j⟩

/-- The dedicated sum of two different points. -/
def dedicated (p q : Point α) : Point α :=
  let a := p.x * q.z
  let b := p.y * q.z
  let c := p.z * q.x
  let d := p.z * q.y
  let e := a * b
  let f := c * d
  let g := e + f
  let h := e - f
  let j := (a - c) * (b + d) - h
  let k := (a + d) * (b + c) - g
  ⟨g * j, h * k, j * k⟩

/-- The sum or the double, whichever formula fits the pair. -/
def dedicatedSum? (p q : Point α) : Option (Point α) :=
  (if p.same q then doubled p else dedicated p q).proper?

/--
The sum `x₃ = (x₁y₂ + y₁x₂) / (1 + m)`, `y₃ = (y₁y₂ - x₁x₂) / (1 - m)` for `m = d·x₁x₂y₁y₂`, with
the denominators multiplied out.
-/
def unifiedSum? (parameter : α) (p q : Point α) : Option (Point α) :=
  let a := p.z * q.z
  let b := sq a
  let c := p.x * q.x
  let e := p.y * q.y
  let t := parameter * c * e
  let f := b - t
  let g := b + t
  Point.proper? ⟨a * (p.x * q.y + p.y * q.x) * f, a * (e - c) * g, f * g⟩

/--
What is returned for a pair to which neither formula gives a sum: the summand with the smaller
`|z|`, the second one if the first is not smaller. A singular point at infinity absorbs a finite
point.
-/
def absorbing (p q : Point α) : Point α :=
  if abs p.z < abs q.z then p.normalize else q.normalize

/-- The sum of two points, on the side `0 ≤ z`. -/
def sum (parameter : α) (p q : Point α) : Point α :=
  let sum? := Sum.closer? (.edwards parameter) (dedicatedSum? p q) (unifiedSum? parameter p q)
  (sum?.getD (absorbing p q)).upper

end EllipticPlot.Edwards
