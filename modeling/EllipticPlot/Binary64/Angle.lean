import EllipticPlot.Binary64.Root

/-!
# Angles

Arc functions and the sine and cosine of doubles. Values are whole numbers of units of
`2 ^ (-bits)`, summed from power series with about 180 correct bits and rounded once at the end.
-/

namespace EllipticPlot.Binary64

/-- Bits behind the binary point beyond those that the size of a value asks for. -/
def guardBits : Nat := 192

/-! ### Arc functions -/

/-- The terms from the `k`-th on of the arc tangent series, each `2k/(2k+1) · ratio` of the last. -/
def arctanTail (bits ratio : Nat) : (terms k term : Nat) → Nat
  | 0, _, _ => 0
  | terms + 1, k, term =>
    if term = 0 then 0
    else
      let next := term * ratio * (2 * k) / ((2 * k + 1) <<< bits)
      term + arctanTail bits ratio terms (k + 1) next

/-- The arc tangent of `rise / run`, at most one, in units. -/
def arctan (bits rise run : Nat) : Nat :=
  let square := rise * rise + run * run
  arctanTail bits ((rise * rise) <<< bits / square) bits 1 ((rise * run) <<< bits / square)

/-- The number π in units. -/
def halfTurn (bits : Nat) : Nat := 16 * arctan bits 1 5 - 4 * arctan bits 1 239

/-- The angle in units from the first axis to `(± run, rise)`. -/
def angle (bits rise run : Nat) (backward : Bool) : Nat :=
  let acute := if rise ≤ run then arctan bits rise run else halfTurn bits / 2 - arctan bits run rise
  if backward then halfTurn bits - acute else acute

/-- The angle as a double, with more bits the flatter it is. -/
def angleOf (rise run : Nat) (below backward : Bool) : Float :=
  let bits := guardBits + (run.log2 - rise.log2)
  nearest below (angle bits rise run backward) (-bits)

/-- The angle of the direction `(x, y)`; infinite coordinates outweigh finite ones. -/
def atan2 (y x : Float) : Float :=
  if y.isNaN || x.isNaN then nan
  else
    let of rise run := angleOf rise run (signBit y) (signBit x)
    match magnitude? y, magnitude? x with
    | none, none => of 1 1
    | none, some _ => of 1 0
    | some _, none => of 0 1
    | some (0, _), some (0, _) => of 0 1
    | some (rise, i), some (run, j) => of (rise <<< (i - j).toNat) (run <<< (j - i).toNat)

/-- The arc cosine: the angle of `(x, √(1 - x²))`. -/
def acos (x : Float) : Float :=
  match magnitude? x with
  | none => nan
  | some (mantissa, exponent) =>
    let places := (-exponent).toNat
    if 1 <<< places < mantissa then nan
    else
      let square := 1 <<< (2 * places) - mantissa * mantissa
      angleOf (floorRoot 2 (square <<< (2 * guardBits))) (mantissa <<< guardBits) false (signBit x)

/-! ### Sine and cosine -/

/-- The sum of the alternating series of an angle from its `term` of degree `k` on. -/
def alternatingTail (bits square : Nat) : (terms k : Nat) → (term : Int) → Int
  | 0, _, _ => 0
  | terms + 1, k, term =>
    if term = 0 then 0
    else
      let next := -(term * square).tdiv (((k + 1) * (k + 2)) <<< bits : Nat)
      term + alternatingTail bits square terms (k + 2) next

/-- Bits behind the binary point with which a double of this magnitude can be reduced. -/
def reductionBits (mantissa : Nat) (exponent : Int) : Nat :=
  guardBits + (mantissa.log2 + exponent).natAbs

/-- The number of right angles nearest to the given angle, and what is left over. -/
def reduce (bits mantissa : Nat) (exponent : Int) : Nat × Int :=
  let angle := mantissa <<< (exponent + bits).toNat
  let right := halfTurn bits / 2
  let turns := (angle + right / 2) / right
  (turns, angle - turns * right)

/-- The sine of `turns` right angles and a rest, in units. -/
def sine (bits turns : Nat) (rest : Int) : Int :=
  let square := (rest.natAbs * rest.natAbs) >>> bits
  let (degree, first) := if turns % 2 = 0 then (1, rest) else (0, Int.ofNat (1 <<< bits))
  let value := alternatingTail bits square bits degree first
  if turns % 4 < 2 then value else -value

/-- The sine; that of a zero is the same zero. -/
def sin (x : Float) : Float :=
  match magnitude? x with
  | none => nan
  | some (0, _) => x
  | some (mantissa, exponent) =>
    let bits := reductionBits mantissa exponent
    let (turns, rest) := reduce bits mantissa exponent
    let value := sine bits turns rest
    nearest (signBit x != decide (value < 0)) value.natAbs (-bits)

/-- The cosine: the sine a right angle further. -/
def cos (x : Float) : Float :=
  match magnitude? x with
  | none => nan
  | some (mantissa, exponent) =>
    let bits := reductionBits mantissa exponent
    let (turns, rest) := reduce bits mantissa exponent
    let value := sine bits (turns + 1) rest
    nearest (value < 0) value.natAbs (-bits)

end EllipticPlot.Binary64
