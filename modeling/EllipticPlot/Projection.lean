import EllipticPlot.Equation

/-!
# Projection

Newton's iteration pulls a point onto the curve along the gradient. The iterate keeps its own
scale; the tolerance is judged on its unit representative, which is what a projection returns.
-/

namespace EllipticPlot

/-- Where a projection ended. -/
structure Projection (α : Type) where
  point : Point α
  /-- The residual at the point; none for a start that has no projection. -/
  residual? : Option α
  iterations : Nat
  converged : Bool

namespace Equation

variable {α : Type} [Scalar α]

/-- One Newton step along the gradient. -/
def newtonStep (equation : Equation α) (p : Point α) : Point α :=
  let gradient := equation.gradient p
  p.move (-equation.residual p / gradient.normSq) gradient

/-- Steps from `p`, after `taken` of them, until the tolerance is met or `left` more are taken. -/
def newton (equation : Equation α) (tolerance : α) : (left taken : Nat) → Point α → Projection α
  | 0, taken, p => ⟨p.normalize, some (equation.residual p.normalize), taken, false⟩
  | left + 1, taken, p =>
    let candidate := p.normalize
    let residual := equation.residual candidate
    if Scalar.abs residual < tolerance then ⟨candidate, some residual, taken, true⟩
    else equation.newton tolerance left (taken + 1) (equation.newtonStep p)

/-- The projection of `p` within a number of steps; zero and infinite triples stay as they are. -/
def projectWithin (equation : Equation α) (limit : Nat) (tolerance : α) (p : Point α) :
    Projection α :=
  if !p.isFinite || p == Point.zero then ⟨p, none, 0, false⟩
  else equation.newton tolerance limit 0 p

/-- The most Newton steps of a projection on request. -/
def projectionLimit : Nat := 20

end Equation

end EllipticPlot
