import EllipticPlot.Decimal.Layout
import EllipticPlot.Equation.Title
import EllipticPlot.Message

/-!
# Message text

The line of text for each diagnostic and message. Coordinates are written positionally and
residuals with an exponent.
-/

namespace EllipticPlot

variable {α : Type}

def Level.name : Level → String
  | .warning => "WARN"
  | .debug => "DEBUG"

def Point.text (write : NumberText α) (p : Point α) : String :=
  "[" ++ ", ".intercalate (p.toList.map write.positional) ++ "]"

/-- A residual that does not exist is written as no number. -/
def NumberText.residual (write : NumberText α) (residual? : Option α) : String :=
  residual?.elim "NaN" write.scientific

def Diagnostic.text (write : NumberText α) : Diagnostic α → String
  | .projectionStalled start result residual? =>
    "cannot project point " ++ start.text write ++ " onto curve, best effort " ++
      result.text write ++ " (residual " ++ write.residual residual? ++ ")"
  | .unmatchedHalfLoop seed vertices =>
    "half-loop from seed " ++ seed.text write ++ " (" ++ toString vertices ++
      " vertices) has no counterpart"
  | .degenerateTangent point => "tangent vanishes at " ++ point.text write ++ ", branch cut"

def Message.text [Scalar α] (write : NumberText α) : Message α → String
  | .diagnosed diagnostic => diagnostic.text write
  | .notProjected point iterations residual? =>
    "cannot project point " ++ point.text write ++ " onto curve in " ++ toString iterations ++
      " iterations, residual " ++ write.residual residual?
  | .pickMissed point residual? =>
    "pick at " ++ point.text write ++ " missed the curve (residual " ++
      write.residual residual? ++ ")"
  | .seedTraced seed residual gradient =>
    "seed " ++ seed.text write ++ ": distance " ++ write.scientific residual ++ ", gradient " ++
      gradient.text write
  | .stepsExhausted seed steps =>
    "branch from " ++ seed.text write ++ " still open after " ++ toString steps ++ " steps"
  | .tessellated equation branches =>
    "tessellated " ++ equation.title .plain write.positional ++ " into " ++ toString branches ++
      " branches"

/-- The line of the log: the level and the text. -/
def Message.line [Scalar α] (write : NumberText α) (message : Message α) : String :=
  message.level.name ++ " " ++ message.text write

end EllipticPlot
