import Mathlib
import EllipticPlot.Binary64
import EllipticPlot.Proofs.Null

/-!
# Doubles around zero

The laws of zero for doubles, read off the operations on unpacked values. Signed zeros, infinities
and the value that is no number survive packing; of a finite value it is enough to know that it is
never packed as a zero.
-/

namespace EllipticPlot.Binary64

open Float.Model (UnpackedFloat)
open Float.Model.UnpackedFloat

/-- The value behind the bits. -/
def value (x : Float) : UnpackedFloat := x.toModel.unpack

/-- A value as it comes back from its bits. -/
def stored (u : UnpackedFloat) : UnpackedFloat := (Float.Model.pack u).unpack

theorem value_add (x y : Float) : value (x + y) = stored (add .binary64 (value x) (value y)) := rfl

theorem value_sub (x y : Float) : value (x - y) = stored (sub .binary64 (value x) (value y)) := rfl

theorem value_mul (x y : Float) : value (x * y) = stored (mul .binary64 (value x) (value y)) := rfl

theorem value_zero : value 0.0 = .zero .positive := rfl

/-! ### What packing keeps -/

@[simp] theorem stored_zero (s : Sign) : stored (.zero s) = .zero s := by
  cases s <;> rfl

@[simp] theorem stored_infinity (s : Sign) : stored (.infinity s) = .infinity s := by
  cases s <;> rfl

@[simp] theorem stored_notANumber : stored .notANumber = .notANumber := rfl

/-! ### Comparisons with zero -/

theorem beq_zero_iff (x : Float) : (x == 0.0) = true ↔ ∃ s, value x = .zero s := by
  have hbeq : (x == 0.0) = (value x).beq (value 0.0) := rfl
  rw [hbeq, value_zero]
  cases value x with
  | infinity s => cases s <;> simp [UnpackedFloat.beq, UnpackedFloat.compare]
  | notANumber => simp [UnpackedFloat.beq, UnpackedFloat.compare]
  | zero s => simp [UnpackedFloat.beq, UnpackedFloat.compare]
  | finite s m e hm => cases s <;> simp [UnpackedFloat.beq, UnpackedFloat.compare]

theorem beq_self_eq_false_iff (x : Float) : (x == x) = false ↔ value x = .notANumber := by
  have hbeq : (x == x) = (value x).beq (value x) := rfl
  rw [hbeq]
  cases value x with
  | infinity s => cases s <;> simp [UnpackedFloat.beq, UnpackedFloat.compare] <;> rfl
  | notANumber => simp [UnpackedFloat.beq, UnpackedFloat.compare]
  | zero s => simp [UnpackedFloat.beq, UnpackedFloat.compare]
  | finite s m e hm => cases s <;> simp [UnpackedFloat.beq, UnpackedFloat.compare]

theorem le_iff (x y : Float) : x ≤ y ↔ (value x).le (value y) = true := decide_eq_true_iff

theorem null_iff (x : Float) :
    Scalar.Null x ↔ (∃ s, value x = .zero s) ∨ value x = .notANumber := by
  rw [← beq_zero_iff, ← beq_self_eq_false_iff]
  rfl

/-! ### Finite values -/

theorem exponentBias_eq : Float.Model.Format.binary64.exponentBias = 1023 := rfl

/-- A double has 53 bits, and an exponent that is not below that of the subnormal numbers. -/
theorem value_bounds {x : Float} {s : Sign} {m : Nat} {e : Int} {hm : 0 < m}
    (hx : value x = .finite s m e hm) : m < 2 ^ 53 ∧ -1074 ≤ e := by
  have hfraction : (@unpackMantissa .binary64 x.toModel.toBits.toBitVec).toNat < 2 ^ 52 :=
    (@unpackMantissa .binary64 x.toModel.toBits.toBitVec).isLt
  unfold value Float.Model.unpack UnpackedFloat.unpack at hx
  dsimp only at hx
  split_ifs at hx with _ _ hexponent _
  · simp only [finite.injEq] at hx
    obtain ⟨-, rfl, rfl⟩ := hx
    rw [exponentBias_eq]
    omega
  · simp only [finite.injEq] at hx
    obtain ⟨-, rfl, rfl⟩ := hx
    have hpos : (@unpackExponent .binary64 x.toModel.toBits.toBitVec).toNat ≠ 0 :=
      fun h => hexponent (BitVec.eq_of_toNat_eq h)
    rw [exponentBias_eq]
    refine ⟨?_, by omega⟩
    exact (1#1 ++ @unpackMantissa .binary64 x.toModel.toBits.toBitVec).isLt

theorem unpack_ne_zero {b : BitVec 64} (h : @unpackExponent .binary64 b ≠ 0#11 ∨
    @unpackMantissa .binary64 b ≠ 0#52) (t : Sign) :
    UnpackedFloat.unpack .binary64 b ≠ .zero t := by
  unfold UnpackedFloat.unpack
  dsimp only
  split_ifs <;> simp_all

/-- A finite value of a double is never stored as a zero. -/
theorem stored_ne_zero {x : Float} {s : Sign} {m : Nat} {e : Int} {hm : 0 < m}
    (hx : value x = .finite s m e hm) (t : Sign) : stored (.finite s m e hm) ≠ .zero t := by
  obtain ⟨hm53, he⟩ := value_bounds hx
  change UnpackedFloat.unpack .binary64 (UnpackedFloat.pack .binary64 (.finite s m e hm)) ≠ _
  apply unpack_ne_zero
  unfold UnpackedFloat.pack
  dsimp only
  rw [exponentBias_eq]
  split_ifs with hover hnormal
  · left
    rw [packedInfinity, unpackExponent_packComponents]
    decide
  · left
    rw [unpackExponent_packComponents]
    intro h
    have hzero := congrArg BitVec.toNat h
    rw [BitVec.toNat_ofNat, BitVec.toNat_ofNat] at hzero
    omega
  · -- a subnormal number keeps its mantissa, which is not zero and has at most 52 bits
    right
    rw [unpackMantissa_packComponents]
    intro h
    have hsmall : m < 2 ^ 52 := by
      have hlog : m.log2 < 53 := (Nat.log2_lt hm.ne').mpr hm53
      have hne : m.log2 + 1 ≠ 53 := hnormal
      exact (Nat.log2_lt hm.ne').mp (by omega)
    have hzero := congrArg BitVec.toNat h
    rw [BitVec.toNat_ofNat, BitVec.toNat_ofNat] at hzero
    omega

/-! ### The laws of zero -/

def IsNull : UnpackedFloat → Prop
  | .zero _ | .notANumber => True
  | _ => False

@[simp] theorem isNull_zero (s : Sign) : IsNull (.zero s) := trivial

@[simp] theorem isNull_notANumber : IsNull .notANumber := trivial

theorem null_iff_isNull (x : Float) : Scalar.Null x ↔ IsNull (value x) := by
  rw [null_iff]
  cases value x <;> simp [IsNull]

theorem isNull_stored {u : UnpackedFloat} (h : IsNull u) : IsNull (stored u) := by
  cases u with
  | zero s => simp
  | notANumber => simp
  | _ => cases h

theorem isNull_mul_left {u : UnpackedFloat} (h : IsNull u) (v : UnpackedFloat) :
    IsNull (mul .binary64 u v) := by
  cases u with
  | zero s => cases v <;> simp [mul]
  | notANumber => cases v <;> simp [mul]
  | _ => cases h

theorem isNull_mul_right {v : UnpackedFloat} (h : IsNull v) (u : UnpackedFloat) :
    IsNull (mul .binary64 u v) := by
  cases v with
  | zero s => cases u <;> simp [mul]
  | notANumber => cases u <;> simp [mul]
  | _ => cases h

theorem isNull_add {u v : UnpackedFloat} (hu : IsNull u) (hv : IsNull v) :
    IsNull (add .binary64 u v) := by
  cases u with
  | zero s =>
    cases v with
    | zero t =>
      change IsNull (if s == t then .zero s else .zero .positive)
      split <;> simp
    | notANumber => simp [add]
    | _ => cases hv
  | notANumber => simp [add]
  | _ => cases hu

theorem isNull_sub {u v : UnpackedFloat} (hu : IsNull u) (hv : IsNull v) :
    IsNull (sub .binary64 u v) := by
  cases u with
  | zero s =>
    cases v with
    | zero t =>
      change IsNull (if s == -t then .zero s else .zero .positive)
      split <;> simp
    | notANumber => simp [sub]
    | _ => cases hv
  | notANumber => simp [sub]
  | _ => cases hu

theorem isNull_sqrt {u : UnpackedFloat} (h : IsNull u) : IsNull (sqrt .binary64 u) := by
  cases u with
  | zero s => simp [sqrt]
  | notANumber => simp [sqrt]
  | _ => cases h

/-- Next to a zero or no number, only such a value adds up to a zero. -/
theorem isNull_of_add {x : Float} {v : UnpackedFloat} (hv : IsNull v) {s : Sign}
    (h : stored (add .binary64 (value x) v) = .zero s) : IsNull (value x) := by
  cases v with
  | zero t =>
    cases hx : value x with
    | infinity r => simp [hx, add] at h
    | notANumber => simp
    | zero r => simp
    | finite r m e hm =>
      rw [hx] at h
      exact absurd h (stored_ne_zero hx s)
  | notANumber => cases hx : value x <;> simp [hx, add] at h
  | _ => cases hv

theorem isFinite_of_add {u v : UnpackedFloat} {s : Sign}
    (h : stored (add .binary64 u v) = .zero s) : u.isFinite = true := by
  cases u with
  | infinity r =>
    cases v with
    | infinity t =>
      change stored (if r == t then .infinity r else .notANumber) = _ at h
      split at h <;> simp at h
    | _ => simp [add] at h
  | notANumber => simp [add] at h
  | zero r => rfl
  | finite r m e hm => rfl

theorem mul_zero_of_isFinite {u : UnpackedFloat} (h : u.isFinite = true) (s : Sign) :
    ∃ t, mul .binary64 u (.zero s) = .zero t := by
  cases u with
  | infinity r => cases h
  | notANumber => cases h
  | zero r => exact ⟨r * s, rfl⟩
  | finite r m e hm => exact ⟨r * s, rfl⟩

theorem div_not_finite {v : UnpackedFloat} (h : IsNull v) (u : UnpackedFloat) :
    (stored (div .binary64 u v)).isFinite = false := by
  cases v with
  | zero s => cases u <;> simp [div, UnpackedFloat.isFinite]
  | notANumber => cases u <;> simp [div, UnpackedFloat.isFinite]
  | _ => cases h

instance : Scalar.LawfulZero Float where
  null_zero := (null_iff_isNull _).mpr trivial
  null_mul_right := by
    intro x hx y
    rw [null_iff_isNull] at hx ⊢
    rw [value_mul]
    exact isNull_stored (isNull_mul_left hx _)
  null_mul_left := by
    intro y hy x
    rw [null_iff_isNull] at hy ⊢
    rw [value_mul]
    exact isNull_stored (isNull_mul_right hy _)
  null_add := by
    intro x y hx hy
    rw [null_iff_isNull] at hx hy ⊢
    rw [value_add]
    exact isNull_stored (isNull_add hx hy)
  null_sub := by
    intro x y hx hy
    rw [null_iff_isNull] at hx hy ⊢
    rw [value_sub]
    exact isNull_stored (isNull_sub hx hy)
  null_sqrt := by
    intro x hx
    rw [null_iff_isNull] at hx ⊢
    exact isNull_stored (isNull_sqrt hx)
  quotient?_null := by
    intro y hy x
    rw [null_iff_isNull] at hy
    have hdiv : (x / y).isFinite = false := div_not_finite hy (value x)
    change (if (x / y).isFinite then some (x / y) else none) = none
    rw [if_neg (by rw [hdiv]; exact Bool.false_ne_true)]
  null_of_add := by
    intro x y hy hsum
    rw [null_iff_isNull] at hy ⊢
    obtain ⟨s, hs⟩ := (beq_zero_iff _).mp hsum
    exact isNull_of_add hy hs
  isFinite_of_add := by
    intro x y hsum
    obtain ⟨s, hs⟩ := (beq_zero_iff _).mp hsum
    exact isFinite_of_add hs
  mul_zero_le := by
    intro x y hx hy
    obtain ⟨s, hs⟩ := (beq_zero_iff _).mp hy
    obtain ⟨t, ht⟩ := mul_zero_of_isFinite (u := value x) hx s
    apply (le_iff _ _).mpr
    rw [value_mul, hs, ht, stored_zero, value_zero]
    rfl

end EllipticPlot.Binary64
