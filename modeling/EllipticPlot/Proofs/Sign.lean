import EllipticPlot.Point
import EllipticPlot.Scalar.Real

/-!
# Signs

Turning the sign of what goes into a computation turns the sign of what comes out, however results
are rounded: `Scalar.LawfulSign` collects the laws that exact numbers and doubles have in common
here. The sign of a zero is left open, since a sum that cancels has the same zero for both signs.
-/

namespace EllipticPlot

variable {α : Type} [Scalar α]

namespace Scalar

/-- Equal, or both zero. -/
def Alike (x y : α) : Prop := x = y ∨ (x == 0.0) = true ∧ (y == 0.0) = true

/-- `y` is `x`, or the negative of `x` if the sign is turned; zeros are not told apart. -/
def Reflects : (turned : Bool) → α → α → Prop
  | false, x, y => Alike x y
  | true, x, y => Alike (-x) y

theorem Alike.refl (x : α) : Alike x x := .inl rfl

theorem reflects_self (x : α) : Reflects false x x := Alike.refl x

theorem reflects_neg (x : α) : Reflects true x (-x) := Alike.refl (-x)

/-- The laws of a scalar type under turned signs. -/
class LawfulSign (α : Type) [Scalar α] : Prop where
  zero_beq_zero : ((0.0 : α) == 0.0) = true
  neg_zero_beq_zero : (-(0.0 : α) == 0.0) = true
  symm : ∀ {turned : Bool} {x y : α}, Reflects turned x y → Reflects turned y x
  add : ∀ {turned : Bool} {x x' y y' : α}, Reflects turned x x' → Reflects turned y y' →
    Reflects turned (x + y) (x' + y')
  sub : ∀ {turned : Bool} {x x' y y' : α}, Reflects turned x x' → Reflects turned y y' →
    Reflects turned (x - y) (x' - y')
  mul : ∀ {turned other : Bool} {x x' y y' : α}, Reflects turned x x' → Reflects other y y' →
    Reflects (turned ^^ other) (x * y) (x' * y')
  sq : ∀ {turned : Bool} {x y : α}, Reflects turned x y → sq x = sq y
  abs_div : ∀ {turned : Bool} {x y : α}, Reflects turned x y → ∀ z : α,
    Scalar.abs (x / z) = Scalar.abs (y / z)
  isFinite : ∀ {turned : Bool} {x y : α}, Reflects turned x y →
    Scalar.isFinite x = Scalar.isFinite y
  beq_zero : ∀ {turned : Bool} {x y : α}, Reflects turned x y → (x == 0.0) = (y == 0.0)
  lt : ∀ {x y : α}, Alike x y → ∀ z : α, x < z ↔ y < z
  le : ∀ {x y : α}, Alike x y → ∀ z : α, x ≤ z ↔ y ≤ z

/-- The laws of a scalar type by which a negative factor can be taken out of a sum. -/
class LawfulNeg (α : Type) [Scalar α] : Prop where
  add_neg : ∀ x y : α, x + -y = x - y
  mul_neg : ∀ x y : α, x * -y = -(x * y)
  neg_div : ∀ x y : α, -x / y = -(x / y)

theorem reflects_zero [LawfulSign α] (turned : Bool) : Reflects turned (0.0 : α) 0.0 := by
  cases turned
  · exact reflects_self 0.0
  · exact .inr ⟨LawfulSign.neg_zero_beq_zero, LawfulSign.zero_beq_zero⟩

/-! ### Exact numbers -/

theorem alike_real (x y : ℝ) : Alike x y ↔ x = y := by
  rw [Alike]
  constructor
  · rintro (h | ⟨hx, hy⟩)
    · exact h
    · norm_num at hx hy
      rw [hx, hy]
  · exact .inl

theorem reflects_real (turned : Bool) (x y : ℝ) :
    Reflects turned x y ↔ y = if turned then -x else x := by
  cases turned <;> simp [Reflects, alike_real, eq_comm]

noncomputable instance : LawfulNeg ℝ where
  add_neg := fun x y => (sub_eq_add_neg x y).symm
  mul_neg := mul_neg
  neg_div := fun x y => neg_div y x

noncomputable instance : LawfulSign ℝ where
  zero_beq_zero := by norm_num
  neg_zero_beq_zero := by norm_num
  symm := by
    intro turned x y h
    rw [reflects_real] at h ⊢
    rw [h]
    cases turned <;> simp
  add := by
    intro turned x x' y y' hx hy
    rw [reflects_real] at hx hy ⊢
    rw [hx, hy]
    cases turned <;> simp [add_comm]
  sub := by
    intro turned x x' y y' hx hy
    rw [reflects_real] at hx hy ⊢
    rw [hx, hy]
    cases turned
    · simp
    · simp only [if_true]
      ring
  mul := by
    intro turned other x x' y y' hx hy
    rw [reflects_real] at hx hy ⊢
    rw [hx, hy]
    cases turned <;> cases other <;> simp
  sq := by
    intro turned x y h
    rw [reflects_real] at h
    rw [h]
    cases turned <;> simp [Scalar.sq]
  abs_div := by
    intro turned x y h z
    rw [reflects_real] at h
    rw [h]
    cases turned
    · rfl
    · change |x / z| = |(-x) / z|
      rw [neg_div, abs_neg]
  isFinite := fun _ => rfl
  beq_zero := by
    intro turned x y h
    rw [reflects_real] at h
    rw [h, Bool.eq_iff_iff]
    cases turned <;> norm_num
  lt := by
    intro x y h z
    rw [(alike_real x y).mp h]
  le := by
    intro x y h z
    rw [(alike_real x y).mp h]

end Scalar

end EllipticPlot
