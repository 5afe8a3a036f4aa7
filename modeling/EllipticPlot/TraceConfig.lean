import EllipticPlot.PlotError
import EllipticPlot.Scalar

/-!
# Tracing configurations

The numbers that steer a trace, and when they are accepted.
-/

namespace EllipticPlot

structure TraceConfig (α : Type) where
  /-- The length of one step along the unit sphere. -/
  step : α
  /-- The most steps of one trace. -/
  maxSteps : Nat
  /-- The residual below which a projected vertex counts as on the curve. -/
  vertexTolerance : α
  /-- The most Newton steps of one projection. -/
  maxIterations : Nat
  /-- Vertices below this `z` have no place in the plane `z = 1`. -/
  minAffineZ : α

namespace TraceConfig

variable {α : Type} [Scalar α]

def default : TraceConfig α where
  step := 0.01
  maxSteps := 1000
  vertexTolerance := 1e-8
  maxIterations := 20
  minAffineZ := 0.001

def isPositive (x : α) : Bool := Scalar.isFinite x && decide (0.0 < x)

/-- Every number is positive and finite. -/
def isValid (config : TraceConfig α) : Bool :=
  isPositive config.step && isPositive config.vertexTolerance && isPositive config.minAffineZ &&
    config.maxSteps != 0 && config.maxIterations != 0

def validate (config : TraceConfig α) : Except PlotError Unit :=
  if config.isValid then .ok () else .error .invalidConfig

end TraceConfig

end EllipticPlot
