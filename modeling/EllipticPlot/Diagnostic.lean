import EllipticPlot.Point

/-!
# Diagnostics

What went wrong while a curve was tessellated. The geometry is produced all the same.
-/

namespace EllipticPlot

inductive Diagnostic (α : Type) where
  /-- A projection from `start` ended without meeting its tolerance; `result` is the best effort. -/
  | projectionStalled (start result : Point α) (residual? : Option α)
  /-- Half of an oval, traced from `seed`, was left without its other half. -/
  | unmatchedHalfLoop (seed : Point α) (vertices : Nat)
  /-- The tangent vanished, and the branch was cut there. -/
  | degenerateTangent (point : Point α)

end EllipticPlot
