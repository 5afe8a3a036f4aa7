/-!
# Scalars

The arithmetic that every computation of this library is written over. A scalar type brings the
field operations, comparisons, decimal literals and a few elementary functions; it also says
which results count as numbers. Doubles are one such type and run; the real numbers are another
and give the same definitions their exact meaning.
-/

namespace EllipticPlot

/-- An arithmetic with comparisons, decimal literals and elementary functions. -/
class Scalar (α : Type) extends
    Add α, Sub α, Mul α, Div α, Neg α, LT α, LE α, BEq α, OfScientific α where
  decidableLT : DecidableLT α
  decidableLE : DecidableLE α
  /-- Whether the value is a finite number. -/
  isFinite : α → Bool
  /-- The quotient, where it exists as a finite number. -/
  quotient? : α → α → Option α
  ofNat : Nat → α
  /-- The least natural number that is not below the value, capped where counts are. -/
  ceilNat : α → Nat
  abs : α → α
  /-- One with the sign of the value; a zero without a sign counts as positive. -/
  unitSign : α → α
  sqrt : α → α
  cbrt : α → α
  pi : α
  sin : α → α
  cos : α → α
  acos : α → α
  /-- The angle from the first axis to the direction with the given second and first coordinate. -/
  atan2 : α → α → α

attribute [reducible, instance] Scalar.decidableLT Scalar.decidableLE

-- a type that has these operations by itself keeps its own instances
attribute [instance (100)] Scalar.toAdd Scalar.toSub Scalar.toMul Scalar.toDiv Scalar.toNeg
  Scalar.toLT Scalar.toLE Scalar.toBEq Scalar.toOfScientific Scalar.decidableLT Scalar.decidableLE

namespace Scalar

variable {α : Type} [Scalar α]

def sq (x : α) : α := x * x

def cube (x : α) : α := x * x * x

def third : α := 1.0 / 3.0

/-- `x` brought into the interval from `low` to `high`; a value that no bound excludes is kept. -/
def clamp (low high x : α) : α :=
  let raised := if x < low then low else x
  if high < raised then high else raised

end Scalar

end EllipticPlot
