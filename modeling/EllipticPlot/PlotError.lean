/-!
# Refusals

The reasons for which parameters, a window or a configuration are refused.
-/

namespace EllipticPlot

/-- Why a request cannot be served. -/
inductive PlotError where
  /-- Parameters that are not finite, or a curve that is singular at one of its seeds. -/
  | invalidParameter
  /-- A linear coefficient too small for the trigonometric solution of a cubic. -/
  | degenerateCubic
  /-- A window whose boundary is not a positive finite number. -/
  | invalidBoundary
  /-- A tracing configuration with a value that is not positive. -/
  | invalidConfig
  deriving DecidableEq, Repr

/-- The sentence shown for a refusal. -/
def PlotError.message : PlotError → String
  | .invalidParameter => "curve parameters must be finite and give a non-singular curve"
  | .degenerateCubic =>
    "cubic is degenerate: p is too close to zero for the trigonometric solution"
  | .invalidBoundary => "affine boundary must be a positive finite number"
  | .invalidConfig => "invalid tracing configuration"

end EllipticPlot
