import EllipticPlot.Binary64.Rounding

/-!
# Shortest decimals

The decimal with the fewest digits that reads back as a given double. The reals that round to a
double form an interval, and of the multiples of `10 ^ j` only the two next to the double need be
tried. The coarsest grid that meets the interval gives the fewest digits.
-/

namespace EllipticPlot

/-- The number `significand · 10^exponent`. -/
structure Decimal where
  significand : Nat
  exponent : Int
  deriving DecidableEq, Repr

namespace Decimal

/-- A positive double and the interval of reals that round to it, in fractions of one unit. -/
structure Interval where
  value : Nat
  lower : Nat
  upper : Nat
  unit : Nat
  /-- Whether the ends round to the value too. -/
  closed : Bool

/-- The interval of `mantissa · 2^exponent`, in quarters of the spacing of its neighbours. -/
def Interval.of (mantissa : Nat) (exponent : Int) : Interval :=
  let scale := (exponent - 2).toNat
  -- below a power of two the neighbours are twice as dense
  let gapBelow := if mantissa = 1 <<< 52 ∧ -1074 < exponent then 1 else 2
  { value := (4 * mantissa) <<< scale
    lower := (4 * mantissa - gapBelow) <<< scale
    upper := (4 * mantissa + 2) <<< scale
    unit := 1 <<< (2 - exponent).toNat
    closed := mantissa % 2 = 0 }

/-- Whether `n` units of a grid lie in the interval, all ends brought to that grid. -/
def Interval.holds (t : Interval) (fine coarse n : Nat) : Bool :=
  let point := n * (t.unit * coarse)
  if t.closed then t.lower * fine ≤ point ∧ point ≤ t.upper * fine
  else t.lower * fine < point ∧ point < t.upper * fine

/-- The multiple of `10^j` in the interval nearest to the value; a tie goes up. -/
def Interval.nearest? (t : Interval) (j : Int) : Option Nat :=
  let fine := Nat.pow 10 (-j).toNat
  let coarse := Nat.pow 10 j.toNat
  let below := t.value * fine / (t.unit * coarse)
  let rest := t.value * fine % (t.unit * coarse)
  match t.holds fine coarse below, t.holds fine coarse (below + 1) with
  | true, true => some (if 2 * rest < t.unit * coarse then below else below + 1)
  | true, false => some below
  | false, true => some (below + 1)
  | false, false => none

/-- The first hit on the grids `10^j`, `10^(j-1)`, …; the last grid is taken as it is. -/
def Interval.search (t : Interval) : (grids : Nat) → (j : Int) → Decimal
  | 0, j => ⟨t.value * Nat.pow 10 (-j).toNat / (t.unit * Nat.pow 10 j.toNat), j⟩
  | grids + 1, j =>
    match t.nearest? j with
    | some n => ⟨n, j⟩
    | none => t.search grids (j - 1)

/-- The shortest decimal that rounds to `mantissa · 2^exponent`, and the nearest of those. -/
def shortest (mantissa : Nat) (exponent : Int) : Decimal :=
  if mantissa = 0 then ⟨0, 0⟩
  else
    -- a grid above the value: log₁₀ 2 < 30103 / 100000
    let top := (mantissa.log2 + 1 + exponent) * 30103 / 100000 + 1
    (Interval.of mantissa exponent).search 20 top

end Decimal

end EllipticPlot
