import Mathlib
import EllipticPlot.Proofs.Binary64Null

/-!
# Comparisons that chain

What the exact numbers and the doubles have in common as ordered types. Doubles compare as the ranks
of their values do, in a linear order; a value that is no number has no rank and compares with
nothing, not even with itself.
-/

namespace EllipticPlot

/-- The law of a scalar type by which a bound can be raised. -/
class Scalar.LawfulOrder (α : Type) [Scalar α] : Prop where
  lt_of_lt_of_le : ∀ {x y z : α}, x < y → y ≤ z → x < z

noncomputable instance : Scalar.LawfulOrder ℝ where
  lt_of_lt_of_le := by
    intro x y z hxy hyz
    exact LT.lt.trans_le hxy hyz

/-- The value is a number: it equals itself. -/
def Scalar.IsNumber {α : Type} [Scalar α] (x : α) : Prop := (x == x) = true

open Scalar in
/-- The laws of a scalar type by which numbers are in a linear order. -/
class Scalar.LawfulComparison (α : Type) [Scalar α] : Prop extends LawfulOrder α where
  le_of_lt : ∀ {x y : α}, x < y → x ≤ y
  not_lt_of_le : ∀ {x y : α}, x ≤ y → ¬ y < x
  le_of_not_lt : ∀ {x y : α}, IsNumber x → IsNumber y → ¬ y < x → x ≤ y
  beq_of_le_of_le : ∀ {x y : α}, x ≤ y → y ≤ x → (x == y) = true
  isNumber_of_le : ∀ {x y : α}, x ≤ y → IsNumber y

theorem Scalar.IsNumber.le_self {α : Type} [Scalar α] [LawfulComparison α] {x : α}
    (h : IsNumber x) : x ≤ x := by
  refine LawfulComparison.le_of_not_lt h h ?_
  intro hlt
  exact LawfulComparison.not_lt_of_le (LawfulComparison.le_of_lt hlt) hlt

noncomputable instance : Scalar.LawfulComparison ℝ where
  le_of_lt := LT.lt.le
  not_lt_of_le := fun h => h.not_gt
  le_of_not_lt := fun _ _ h => not_lt.mp h
  beq_of_le_of_le := fun hxy hyx => beq_iff_eq.mpr (le_antisymm hxy hyx)
  isNumber_of_le := fun _ => beq_self_eq_true _

namespace Binary64

open Float.Model (UnpackedFloat)
open Float.Model.UnpackedFloat

theorem lt_iff (x y : Float) : x < y ↔ (value x).lt (value y) = true := decide_eq_true_iff

/-- The place of a value among all: by its sign and whether it is finite, then by exponent and
mantissa. -/
def rank? : UnpackedFloat → Option (ℤ ×ₗ ℤ ×ₗ ℤ)
  | .infinity .negative => some (toLex (-2, toLex (0, 0)))
  | .finite .negative m e _ => some (toLex (-1, toLex (-e, -m)))
  | .zero _ => some (toLex (0, toLex (0, 0)))
  | .finite .positive m e _ => some (toLex (1, toLex (e, m)))
  | .infinity .positive => some (toLex (2, toLex (0, 0)))
  | .notANumber => none

private theorem compare_neg (a b : ℤ) : compare (-a) (-b) = (compare a b).swap := by
  rw [Std.OrientedOrd.eq_swap]
  congr 1
  simp [compare, compareOfLessAndEq, eq_comm]

private theorem compare_natCast (m n : ℕ) : compare (m : ℤ) (n : ℤ) = compare m n := by
  simp [compare, compareOfLessAndEq]

theorem compare_eq (u v : UnpackedFloat) :
    u.compare v = (rank? u).bind fun a => (rank? v).map (compare a) := by
  cases u with
  | notANumber => cases v <;> rfl
  | zero s =>
    cases v with
    | notANumber => rfl
    | zero t => rfl
    | infinity t => cases t <;> rfl
    | finite t n f hn => cases t <;> rfl
  | infinity s =>
    cases v with
    | notANumber => cases s <;> rfl
    | zero t => cases s <;> rfl
    | infinity t => cases s <;> cases t <;> rfl
    | finite t n f hn => cases s <;> cases t <;> rfl
  | finite s m e hm =>
    cases v with
    | notANumber => cases s <;> rfl
    | zero t => cases s <;> rfl
    | infinity t => cases s <;> cases t <;> rfl
    | finite t n f hn =>
      cases s <;> cases t
      case negative.positive => rfl
      case positive.negative => rfl
      case negative.negative =>
        have hsame : compare (toLex ((-1 : ℤ), toLex (-e, -(m : ℤ))))
            (toLex ((-1 : ℤ), toLex (-f, -(n : ℤ)))) =
            (compare (-e) (-f)).then (compare (-(m : ℤ)) (-(n : ℤ))) := rfl
        simp only [UnpackedFloat.compare, rank?, Option.bind_some, Option.map_some]
        rw [hsame, compare_neg, compare_neg, compare_natCast, Ordering.swap_then]
      case positive.positive =>
        have hsame : compare (toLex ((1 : ℤ), toLex (e, (m : ℤ))))
            (toLex ((1 : ℤ), toLex (f, (n : ℤ)))) =
            (compare e f).then (compare (m : ℤ) (n : ℤ)) := rfl
        simp only [UnpackedFloat.compare, rank?, Option.bind_some, Option.map_some]
        rw [hsame, compare_natCast]

theorem lt_iff_rank (x y : Float) :
    x < y ↔ ∃ a b, rank? (value x) = some a ∧ rank? (value y) = some b ∧ a < b := by
  rw [lt_iff, UnpackedFloat.lt, compare_eq]
  cases rank? (value x) <;> cases rank? (value y) <;> simp [compare_lt_iff_lt]

theorem le_iff_rank (x y : Float) :
    x ≤ y ↔ ∃ a b, rank? (value x) = some a ∧ rank? (value y) = some b ∧ a ≤ b := by
  rw [le_iff, UnpackedFloat.le, compare_eq]
  cases rank? (value x) <;> cases rank? (value y) <;>
    simp [Ordering.isLE_iff_ne_gt, compare_le_iff_le]

instance : Scalar.LawfulOrder Float where
  lt_of_lt_of_le := by
    intro x y z hxy hyz
    obtain ⟨a, b, ha, hb, hab⟩ := (lt_iff_rank x y).mp hxy
    obtain ⟨b', c, hb', hc, hbc⟩ := (le_iff_rank y z).mp hyz
    obtain rfl : b = b' := Option.some.inj (hb.symm.trans hb')
    exact (lt_iff_rank x z).mpr ⟨a, c, ha, hc, hab.trans_le hbc⟩

theorem beq_iff_rank (x y : Float) :
    (x == y) = true ↔ ∃ a, rank? (value x) = some a ∧ rank? (value y) = some a := by
  have hbeq : (x == y) = (value x).beq (value y) := rfl
  rw [hbeq, UnpackedFloat.beq, compare_eq]
  cases rank? (value x) with
  | none => simp
  | some a =>
    cases rank? (value y) with
    | none => simp
    | some b => simpa [compare_eq_iff_eq] using eq_comm

theorem isNumber_iff_rank (x : Float) : Scalar.IsNumber x ↔ ∃ a, rank? (value x) = some a := by
  rw [Scalar.IsNumber, beq_iff_rank]
  simp only [and_self]

instance : Scalar.LawfulComparison Float where
  le_of_lt := by
    intro x y h
    obtain ⟨a, b, ha, hb, hab⟩ := (lt_iff_rank x y).mp h
    exact (le_iff_rank x y).mpr ⟨a, b, ha, hb, hab.le⟩
  not_lt_of_le := by
    intro x y hle hlt
    obtain ⟨a, b, ha, hb, hab⟩ := (le_iff_rank x y).mp hle
    obtain ⟨b', a', hb', ha', hba⟩ := (lt_iff_rank y x).mp hlt
    obtain rfl : a = a' := Option.some.inj (ha.symm.trans ha')
    obtain rfl : b = b' := Option.some.inj (hb.symm.trans hb')
    exact hab.not_gt hba
  le_of_not_lt := by
    intro x y hx hy h
    obtain ⟨a, ha⟩ := (isNumber_iff_rank x).mp hx
    obtain ⟨b, hb⟩ := (isNumber_iff_rank y).mp hy
    refine (le_iff_rank x y).mpr ⟨a, b, ha, hb, ?_⟩
    by_contra hab
    exact h ((lt_iff_rank y x).mpr ⟨b, a, hb, ha, not_le.mp hab⟩)
  beq_of_le_of_le := by
    intro x y hxy hyx
    obtain ⟨a, b, ha, hb, hab⟩ := (le_iff_rank x y).mp hxy
    obtain ⟨b', a', hb', ha', hba⟩ := (le_iff_rank y x).mp hyx
    obtain rfl : a = a' := Option.some.inj (ha.symm.trans ha')
    obtain rfl : b = b' := Option.some.inj (hb.symm.trans hb')
    obtain rfl : a = b := le_antisymm hab hba
    exact (beq_iff_rank x y).mpr ⟨a, ha, hb⟩
  isNumber_of_le := by
    intro x y h
    obtain ⟨a, b, ha, hb, hab⟩ := (le_iff_rank x y).mp h
    exact (isNumber_iff_rank y).mpr ⟨b, hb⟩

end Binary64

end EllipticPlot
