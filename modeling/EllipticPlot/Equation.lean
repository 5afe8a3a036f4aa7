import EllipticPlot.Point

/-!
# Curve equations

The two families of curves, each a homogeneous equation in the plane: Weierstrass curves
`z·y² = x³ + a·x·z² + b·z³` and Edwards curves `(x² + y²)·z² = z⁴ + d·x²·y²`. The residual of an
equation is the difference of its sides, and the gradient is the gradient of the residual.
-/

namespace EllipticPlot

/-- The equation of a plane curve, given by its parameters. -/
inductive Equation (α : Type) where
  | weierstrass (a b : α)
  | edwards (d : α)

namespace Equation

variable {α : Type} [Scalar α]

open Scalar

/-- Equality of the numbers themselves, as numbers compare. -/
instance : BEq (Equation α) where
  beq
    | .weierstrass a b, .weierstrass a' b' => a == a' && b == b'
    | .edwards d, .edwards d' => d == d'
    | _, _ => false

def isFinite : Equation α → Bool
  | .weierstrass a b => Scalar.isFinite a && Scalar.isFinite b
  | .edwards d => Scalar.isFinite d

/-- The difference of the two sides at `p`: zero exactly on the curve. -/
def residual (equation : Equation α) (p : Point α) : α :=
  match equation with
  | .weierstrass a b => cube p.x + a * p.x * sq p.z + b * cube p.z - p.z * sq p.y
  | .edwards d => (sq p.x + sq p.y) * sq p.z - sq (sq p.z) - d * sq p.x * sq p.y

/-- The gradient of the residual. -/
def gradient (equation : Equation α) (p : Point α) : Point α :=
  match equation with
  | .weierstrass a b =>
    ⟨3.0 * sq p.x + a * sq p.z,
      -2.0 * p.y * p.z,
      2.0 * a * p.x * p.z + 3.0 * b * sq p.z - sq p.y⟩
  | .edwards d =>
    ⟨2.0 * p.x * sq p.z - 2.0 * d * p.x * sq p.y,
      2.0 * p.y * sq p.z - 2.0 * d * sq p.x * p.y,
      2.0 * (sq p.x + sq p.y) * p.z - 4.0 * cube p.z⟩

/-- Cardano's discriminant of a Weierstrass equation: negative where the curve has an oval. -/
def discriminant? : Equation α → Option α
  | .weierstrass a b => some (sq (0.5 * b) + cube (a / 3.0))
  | .edwards _ => none

end Equation

end EllipticPlot
