import EllipticPlot.Binary64.Rounding

/-!
# Roots

The whole part of a root of a natural number, found bit by bit, and from it the cube root of a
double.
-/

namespace EllipticPlot.Binary64

/-- The largest `r` with `r ^ degree ≤ n` that differs from `root` in its lowest `bits` bits only. -/
def refineRoot (degree n : Nat) : (bits root : Nat) → Nat
  | 0, root => root
  | bits + 1, root =>
    let next := root + 1 <<< bits
    refineRoot degree n bits (if Nat.pow next degree ≤ n then next else root)

/-- The whole part of the root of `n` of the given degree. -/
def floorRoot (degree n : Nat) : Nat := refineRoot degree n (n.log2 / degree + 1) 0

/-- The real cube root, rounded once. -/
def cbrt (x : Float) : Float :=
  match magnitude? x with
  | some (mantissa, exponent) =>
    -- the scaled exponent is a multiple of three, and the root has more than 60 bits
    let shift := 192 + ((exponent - 192) % 3).toNat
    let scaled := mantissa <<< shift
    let root := floorRoot 3 scaled
    -- an inexact root is marked by a lowest bit, so that it is never taken for a tie
    let marked := 2 * root + if root * root * root = scaled then 0 else 1
    nearest (signBit x) marked ((exponent - shift) / 3 - 1)
  | none => x

end EllipticPlot.Binary64
