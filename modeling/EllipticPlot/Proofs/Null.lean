import EllipticPlot.Point
import EllipticPlot.Scalar.Real

/-!
# Zeros and no numbers

A product with zero is zero, except that it may be no number at all: `Scalar.Null` names both. The
laws below are what the exact numbers and the doubles have in common around such values; with them
a step of a trace can be followed without knowing how results are rounded.
-/

namespace EllipticPlot

def Scalar.Null {α : Type} [Scalar α] (x : α) : Prop := (x == 0.0) = true ∨ (x == x) = false

open Scalar in
/-- The laws of a scalar type around zero. -/
class Scalar.LawfulZero (α : Type) [Scalar α] : Prop where
  null_zero : Null (0.0 : α)
  null_mul_right : ∀ {x : α}, Null x → ∀ y : α, Null (x * y)
  null_mul_left : ∀ {y : α}, Null y → ∀ x : α, Null (x * y)
  null_add : ∀ {x y : α}, Null x → Null y → Null (x + y)
  null_sub : ∀ {x y : α}, Null x → Null y → Null (x - y)
  null_sqrt : ∀ {x : α}, Null x → Null (sqrt x)
  quotient?_null : ∀ {y : α}, Null y → ∀ x : α, quotient? x y = none
  /-- A sum with such a value is zero only if the other summand is such a value as well. -/
  null_of_add : ∀ {x y : α}, Null y → (x + y == 0.0) = true → Null x
  /-- A sum is zero only if its summands are finite. -/
  isFinite_of_add : ∀ {x y : α}, (x + y == 0.0) = true → isFinite x = true
  /-- The product of a finite value with zero is not above zero. -/
  mul_zero_le : ∀ {x y : α}, isFinite x = true → (y == 0.0) = true → x * y ≤ 0.0

namespace Scalar

theorem null_real (x : ℝ) : Null x ↔ x = 0 := by
  rw [Null]
  norm_num

noncomputable instance : LawfulZero ℝ where
  null_zero := by norm_num [null_real]
  null_mul_right := by
    intro x hx y
    rw [null_real] at hx ⊢
    rw [hx, zero_mul]
  null_mul_left := by
    intro y hy x
    rw [null_real] at hy ⊢
    rw [hy, mul_zero]
  null_add := by
    intro x y hx hy
    rw [null_real] at hx hy ⊢
    rw [hx, hy, add_zero]
  null_sub := by
    intro x y hx hy
    rw [null_real] at hx hy ⊢
    rw [hx, hy, sub_zero]
  null_sqrt := by
    intro x hx
    rw [null_real] at hx ⊢
    rw [hx]
    exact Real.sqrt_zero
  quotient?_null := by
    intro y hy x
    rw [null_real] at hy
    exact if_pos hy
  null_of_add := by
    intro x y hy hsum
    rw [null_real] at hy ⊢
    rw [hy, add_zero] at hsum
    norm_num at hsum
    exact hsum
  isFinite_of_add := by
    intro x y hsum
    rfl
  mul_zero_le := by
    intro x y hx hy
    norm_num at hy
    norm_num [hy]

end Scalar

end EllipticPlot
