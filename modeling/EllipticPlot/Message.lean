import EllipticPlot.Diagnostic
import EllipticPlot.Equation

/-!
# Messages

The events that are logged while points are projected and curves are traced. A computation that
logs returns its value together with its messages in order.
-/

namespace EllipticPlot

inductive Level where
  | warning
  | debug
  deriving DecidableEq, Repr

/-- An event worth a line in the log. -/
inductive Message (α : Type) where
  | diagnosed (diagnostic : Diagnostic α)
  | notProjected (point : Point α) (iterations : Nat) (residual? : Option α)
  | pickMissed (point : Point α) (residual? : Option α)
  | seedTraced (seed : Point α) (residual : α) (gradient : Point α)
  | stepsExhausted (seed : Point α) (steps : Nat)
  | tessellated (equation : Equation α) (branches : Nat)

/-- Anomalies are warnings; the course of a computation is for debugging. -/
def Message.level {α : Type} : Message α → Level
  | .diagnosed _ | .notProjected .. => .warning
  | .pickMissed .. | .seedTraced .. | .stepsExhausted .. | .tessellated .. => .debug

/-- A value and the messages that were logged on the way to it. -/
structure Logged (α β : Type) where
  value : β
  messages : Array (Message α)

end EllipticPlot
