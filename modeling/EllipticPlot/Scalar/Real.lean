import EllipticPlot.Scalar
import Mathlib.Analysis.SpecialFunctions.Complex.Arg
import Mathlib.Analysis.SpecialFunctions.Pow.Real
import Mathlib.Analysis.SpecialFunctions.Trigonometric.Inverse

/-!
# Real numbers as scalars

The exact reading of every computation: each number is finite, and the quotients that do not exist
are those by zero.
-/

namespace EllipticPlot

noncomputable instance : Scalar ℝ where
  decidableLT := inferInstance
  decidableLE := inferInstance
  toBEq := instBEqOfDecidableEq
  isFinite _ := true
  quotient? x y := if y = 0 then none else some (x / y)
  ofNat n := n
  ceilNat x := ⌈x⌉₊
  abs x := |x|
  unitSign x := if x < 0 then -1 else 1
  sqrt := Real.sqrt
  cbrt x := if 0 ≤ x then x ^ (1 / 3 : ℝ) else -(-x) ^ (1 / 3 : ℝ)
  pi := Real.pi
  sin := Real.sin
  cos := Real.cos
  acos := Real.arccos
  atan2 y x := Complex.arg ⟨x, y⟩

end EllipticPlot
