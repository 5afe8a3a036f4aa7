/-!
# Rounding to a double

A finite double is `± mantissa · 2^exponent`. The elementary functions of doubles are computed as
such numbers with many more bits than a double holds, and rounded once at the end.
-/

namespace EllipticPlot.Binary64

open Float.Model (UnpackedFloat)
open Float.Model.UnpackedFloat (Sign)

def nan : Float := .ofBits 0x7ff8000000000000

/-- Whether the sign is negative, also of a zero. -/
def signBit (x : Float) : Bool := x.toBits >>> 63 != 0

/-- The double nearest to `± magnitude · 2^exponent`; a tie goes to the even mantissa. -/
def nearest (negative : Bool) (magnitude : Nat) (exponent : Int) : Float :=
  let sign := if negative then Sign.negative else Sign.positive
  .ofModel (.pack (UnpackedFloat.round .binary64 sign magnitude exponent))

/-- Mantissa and exponent of the magnitude of a finite double. -/
def magnitude? (x : Float) : Option (Nat × Int) :=
  match x.toModel.unpack with
  | .zero _ => some (0, 0)
  | .finite _ mantissa exponent _ => some (mantissa, exponent)
  | .infinity _ => none
  | .notANumber => none

end EllipticPlot.Binary64
