import EllipticPlot.Decimal.Shortest

/-!
# Number text

Doubles are written with the shortest digits that read back, either positionally, without an
exponent and without a point where no digit follows it, or with one digit before the point and a
power of ten. The sign of a zero is kept.
-/

namespace EllipticPlot

/-- The two ways in which messages and titles write the numbers of a scalar type. -/
structure NumberText (α : Type) where
  positional : α → String
  scientific : α → String

namespace Decimal

def digits (d : Decimal) : List Char := Nat.toDigits 10 d.significand

/-- `digits` with the point set after `before` of them, and zeros where there are none. -/
def pointAfter (before : Int) (digits : List Char) : List Char :=
  if before ≤ 0 then '0' :: '.' :: List.replicate (-before).toNat '0' ++ digits
  else if digits.length ≤ before.toNat then
    digits ++ List.replicate (before.toNat - digits.length) '0'
  else digits.take before.toNat ++ '.' :: digits.drop before.toNat

def positional (d : Decimal) : String :=
  if d.significand = 0 then "0"
  else String.ofList (pointAfter (d.digits.length + d.exponent) d.digits)

def scientific (d : Decimal) : String :=
  let power := d.exponent + (d.digits.length - 1)
  String.ofList (pointAfter 1 d.digits) ++ "e" ++ toString power

end Decimal

namespace Binary64

/-- The text of a double, given how its magnitude is laid out. -/
def text (layout : Decimal → String) (x : Float) : String :=
  if x.isNaN then "NaN"
  else
    let magnitude :=
      match magnitude? x with
      | some (mantissa, exponent) => layout (Decimal.shortest mantissa exponent)
      | none => "inf"
    if signBit x then "-" ++ magnitude else magnitude

def numberText : NumberText Float where
  positional := text Decimal.positional
  scientific := text Decimal.scientific

end Binary64

end EllipticPlot
