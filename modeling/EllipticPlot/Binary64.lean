import EllipticPlot.Scalar
import EllipticPlot.Binary64.Angle

/-!
# Doubles as scalars

The arithmetic that runs: every operation rounds once, and a quotient that overflows or is
undefined is no number.
-/

namespace EllipticPlot.Binary64

/-- Counts stop at the largest 64-bit word; what is not above zero, or no number, counts as zero. -/
def ceilNat (x : Float) : Nat :=
  let whole := x.toUInt64
  if whole.toFloat < x then min (whole.toNat + 1) (UInt64.size - 1) else whole.toNat

/-- One with the sign bit of `x`. -/
def unitSign (x : Float) : Float :=
  if x.isNaN then x else if signBit x then -1.0 else 1.0

instance : Scalar Float where
  decidableLT := inferInstance
  decidableLE := inferInstance
  isFinite := Float.isFinite
  quotient? a b := let c := a / b; if c.isFinite then some c else none
  ofNat := Float.ofNat
  ceilNat := ceilNat
  abs := Float.abs
  unitSign := unitSign
  sqrt := Float.sqrt
  cbrt := cbrt
  pi := 3.141592653589793
  sin := sin
  cos := cos
  acos := acos
  atan2 := atan2

end EllipticPlot.Binary64
