import Mathlib
import EllipticPlot.Proofs.Order
import EllipticPlot.Proofs.Sign

/-!
# Signs of doubles

Rounding looks at magnitudes only, so every operation on doubles carries a turned sign to its
result; packing keeps it. What is left open is the sign of a zero.
-/

namespace EllipticPlot.Binary64

open Float.Model (Format UnpackedFloat)
open Float.Model.UnpackedFloat

/-! ### Values and their bits -/

theorem stored_value (x : Float) : stored (value x) = value x := by
  change UnpackedFloat.unpack .binary64 (UnpackedFloat.pack .binary64
    (UnpackedFloat.unpack .binary64 x.toModel.toBits.toBitVec)) = _
  rw [pack_unpack_of_valid x.toModel.valid]
  rfl

theorem value_of_toBits {x : Float} {b : UInt64} (h : x.toBits = b) :
    value x = UnpackedFloat.unpack .binary64 b.toBitVec := by
  rw [← h]
  rfl

theorem value_injective {x y : Float} (h : value x = value y) : x = y := by
  apply Float.toBits_inj.mp
  apply UInt64.toBitVec_inj.mp
  exact (unpack_inj_of_valid x.toModel.valid y.toModel.valid).mp h

theorem unpack_packComponents_neg (s : Sign) (e : BitVec 11) (m : BitVec 52) :
    UnpackedFloat.unpack .binary64 (packComponents .binary64 (-s) e m) =
      (UnpackedFloat.unpack .binary64 (packComponents .binary64 s e m)).neg := by
  have hsign : Sign.ofBitVec (-s).toBitVec = -Sign.ofBitVec s.toBitVec := by
    cases s <;> rfl
  unfold UnpackedFloat.unpack
  simp only [unpackMantissa_packComponents, unpackExponent_packComponents,
    unpackSign_packComponents, hsign]
  split_ifs <;> rfl

theorem stored_neg (u : UnpackedFloat) : stored u.neg = (stored u).neg := by
  cases u with
  | infinity s => simp [UnpackedFloat.neg]
  | notANumber => simp [UnpackedFloat.neg]
  | zero s => simp [UnpackedFloat.neg]
  | finite s m e hm =>
    change UnpackedFloat.unpack .binary64 (UnpackedFloat.pack .binary64 (.finite (-s) m e hm)) =
      (UnpackedFloat.unpack .binary64 (UnpackedFloat.pack .binary64 (.finite s m e hm))).neg
    unfold UnpackedFloat.pack
    dsimp only
    split_ifs
    · exact unpack_packComponents_neg s _ _
    · exact unpack_packComponents_neg s _ _
    · exact unpack_packComponents_neg s _ _

theorem value_neg (x : Float) : value (-x) = (value x).neg := by
  have hneg : value (-x) = stored (value x).neg := rfl
  rw [hneg, stored_neg, stored_value]

theorem value_abs (x : Float) : value x.abs = stored (value x).abs := rfl

theorem value_div (x y : Float) : value (x / y) = stored (div .binary64 (value x) (value y)) := rfl

theorem signBit_of_finite {x : Float} {s : Sign} {m : ℕ} {e : ℤ} {hm : 0 < m}
    (hx : value x = .finite s m e hm) : signBit x = (s == .negative) := by
  have hsign : Sign.ofBitVec (@unpackSign .binary64 x.toBits.toBitVec) = s := by
    change UnpackedFloat.unpack .binary64 x.toBits.toBitVec = _ at hx
    unfold UnpackedFloat.unpack at hx
    dsimp only at hx
    split_ifs at hx
    · exact (finite.inj hx).1
    · exact (finite.inj hx).1
  have hnat : (@unpackSign .binary64 x.toBits.toBitVec).toNat = x.toBits.toNat / 2 ^ 63 := by
    have hlt := x.toBits.toNat_lt
    change x.toBits.toNat >>> 63 % 2 = _
    rw [Nat.shiftRight_eq_div_pow]
    omega
  have hshift : signBit x = (x.toBits.toNat / 2 ^ 63 != 0) := by
    rw [signBit, ← Nat.shiftRight_eq_div_pow, Bool.eq_iff_iff, bne_iff_ne, bne_iff_ne, Ne, Ne,
      ← UInt64.toNat_inj, UInt64.toNat_shiftRight]
    rfl
  rw [hshift, ← hnat, ← hsign]
  generalize @unpackSign .binary64 x.toBits.toBitVec = b
  rw [Sign.ofBitVec]
  split_ifs with hzero
  · rw [hzero]
    rfl
  · exact bne_iff_ne.mpr fun h => hzero (BitVec.eq_of_toNat_eq h)

/-! ### Turned signs -/

/-- The value with its sign turned if so asked. -/
def turn (turned : Bool) (u : UnpackedFloat) : UnpackedFloat := if turned then u.neg else u

/-- Equal, or both zero. -/
def Same (u v : UnpackedFloat) : Prop := u = v ∨ (∃ s, u = .zero s) ∧ ∃ s, v = .zero s

theorem same_zero (s t : Sign) : Same (.zero s) (.zero t) := .inr ⟨⟨s, rfl⟩, ⟨t, rfl⟩⟩

theorem Same.refl (u : UnpackedFloat) : Same u u := .inl rfl

theorem Same.symm {u v : UnpackedFloat} (h : Same u v) : Same v u := by
  obtain rfl | ⟨hu, hv⟩ := h
  · exact .refl u
  · exact .inr ⟨hv, hu⟩

theorem Same.trans {u v w : UnpackedFloat} (huv : Same u v) (hvw : Same v w) : Same u w := by
  obtain rfl | ⟨hu, hv⟩ := huv
  · exact hvw
  · obtain rfl | ⟨-, hw⟩ := hvw
    · exact .inr ⟨hu, hv⟩
    · exact .inr ⟨hu, hw⟩

theorem Same.packed {u v : UnpackedFloat} (h : Same u v) : Same (stored u) (stored v) := by
  obtain rfl | ⟨⟨s, rfl⟩, ⟨t, rfl⟩⟩ := h
  · exact .refl _
  · rw [stored_zero, stored_zero]
    exact same_zero s t

theorem Same.neg {u v : UnpackedFloat} (h : Same u v) : Same u.neg v.neg := by
  obtain rfl | ⟨⟨s, rfl⟩, ⟨t, rfl⟩⟩ := h
  · exact .refl _
  · exact same_zero (-s) (-t)

theorem Same.turn {u v : UnpackedFloat} (h : Same u v) (turned : Bool) :
    Same (turn turned u) (turn turned v) := by
  cases turned
  · exact h
  · exact h.neg

theorem neg_neg_eq (u : UnpackedFloat) : u.neg.neg = u := by
  cases u with
  | notANumber => rfl
  | infinity s | zero s | finite s => cases s <;> rfl

theorem turn_turn (turned : Bool) (u : UnpackedFloat) : turn turned (turn turned u) = u := by
  cases turned
  · rfl
  · exact neg_neg_eq u

theorem stored_turn (turned : Bool) (u : UnpackedFloat) :
    stored (turn turned u) = turn turned (stored u) := by
  cases turned
  · rfl
  · exact stored_neg u

theorem alike_iff (x y : Float) : Scalar.Alike x y ↔ Same (value x) (value y) := by
  rw [Scalar.Alike, Same, beq_zero_iff, beq_zero_iff]
  exact or_congr_left ⟨congrArg value, value_injective⟩

theorem reflects_iff (turned : Bool) (x y : Float) :
    Scalar.Reflects turned x y ↔ Same (turn turned (value x)) (value y) := by
  cases turned
  · exact alike_iff x y
  · rw [Scalar.Reflects, alike_iff, value_neg]
    rfl

/-! ### Rounding -/

theorem roundWithAccuracy_neg (s : Sign) (m : Nat) (e : Int) (a : Accuracy) :
    roundWithAccuracy .binary64 (-s) m e a = (roundWithAccuracy .binary64 s m e a).neg := by
  unfold roundWithAccuracy
  dsimp only
  split_ifs <;> rfl

theorem normalize_neg (m : Int) (e : Int) (zero : Sign) :
    Same (UnpackedFloat.normalize .binary64 (-m) e zero)
      (UnpackedFloat.normalize .binary64 m e zero).neg := by
  unfold UnpackedFloat.normalize
  obtain hm | rfl | hm := lt_trichotomy m 0
  · rw [compare_lt_iff_lt.mpr hm, compare_gt_iff_gt.mpr (neg_pos.mpr hm)]
    exact .inl (roundWithAccuracy_neg .negative _ _ _)
  · exact same_zero zero (-zero)
  · rw [compare_gt_iff_gt.mpr hm, compare_lt_iff_lt.mpr (neg_neg_of_pos hm), neg_neg]
    exact .inl (roundWithAccuracy_neg .positive _ _ _)

/-! ### Operations on values -/

theorem apply_neg (s : Sign) (n : Int) : (-s).apply n = -s.apply n := by
  cases s
  · exact (neg_neg n).symm
  · rfl

theorem add_neg_neg (u v : UnpackedFloat) :
    Same (add .binary64 u.neg v.neg) (add .binary64 u v).neg := by
  cases u with
  | infinity s =>
    cases v with
    | infinity t => cases s <;> cases t <;> exact .refl _
    | _ => exact .refl _
  | notANumber => exact .refl _
  | zero s =>
    cases v with
    | zero t => cases s <;> cases t <;> exact same_zero _ _
    | _ => exact .refl _
  | finite s m e hm =>
    cases v with
    | finite t n f hn =>
      simp only [UnpackedFloat.neg, add, apply_neg, ← neg_add]
      exact normalize_neg _ _ _
    | _ => exact .refl _

theorem add_zero_left (s t : Sign) (v : UnpackedFloat) :
    Same (add .binary64 (.zero s) v) (add .binary64 (.zero t) v) := by
  cases v with
  | zero r => cases s <;> cases t <;> cases r <;> exact same_zero _ _
  | _ => exact .refl _

theorem add_zero_right (s t : Sign) (u : UnpackedFloat) :
    Same (add .binary64 u (.zero s)) (add .binary64 u (.zero t)) := by
  cases u with
  | zero r => cases s <;> cases t <;> cases r <;> exact same_zero _ _
  | _ => exact .refl _

theorem Same.add {u u' v v' : UnpackedFloat} (hu : Same u u') (hv : Same v v') :
    Same (add .binary64 u v) (UnpackedFloat.add .binary64 u' v') := by
  have hleft : Same (UnpackedFloat.add .binary64 u v) (UnpackedFloat.add .binary64 u' v) := by
    obtain rfl | ⟨⟨s, rfl⟩, ⟨t, rfl⟩⟩ := hu
    · exact .refl _
    · exact add_zero_left s t v
  have hright : Same (UnpackedFloat.add .binary64 u' v) (UnpackedFloat.add .binary64 u' v') := by
    obtain rfl | ⟨⟨s, rfl⟩, ⟨t, rfl⟩⟩ := hv
    · exact .refl _
    · exact add_zero_right s t u'
  exact hleft.trans hright

theorem add_turn (turned : Bool) (u v : UnpackedFloat) :
    Same (turn turned (add .binary64 u v))
      (add .binary64 (turn turned u) (turn turned v)) := by
  cases turned
  · exact .refl _
  · exact (add_neg_neg u v).symm

/-- A difference is the sum with the negative. -/
theorem sub_eq_add (u v : UnpackedFloat) : sub .binary64 u v = add .binary64 u v.neg := by
  cases u with
  | finite s m e hm =>
    cases v with
    | finite t n f hn => simp only [UnpackedFloat.neg, sub, add, apply_neg, Int.sub_eq_add_neg]
    | zero t => rfl
    | _ => rfl
  | zero s => cases v <;> rfl
  | infinity s => cases v <;> rfl
  | notANumber => cases v <;> rfl

theorem mul_neg_left (u v : UnpackedFloat) :
    mul .binary64 u.neg v = (mul .binary64 u v).neg := by
  have hsign : ∀ s t : Sign, -s * t = -(s * t) := by
    intro s t
    cases s <;> cases t <;> rfl
  cases u <;> cases v <;>
    simp only [UnpackedFloat.neg, mul, hsign, roundWithAccuracy_neg]

theorem mul_neg_right (u v : UnpackedFloat) :
    mul .binary64 u v.neg = (mul .binary64 u v).neg := by
  have hsign : ∀ s t : Sign, s * -t = -(s * t) := by
    intro s t
    cases s <;> cases t <;> rfl
  cases u <;> cases v <;>
    simp only [UnpackedFloat.neg, mul, hsign, roundWithAccuracy_neg]

theorem div_neg_left (u v : UnpackedFloat) :
    div .binary64 u.neg v = (div .binary64 u v).neg := by
  have hsign : ∀ s t : Sign, -s / t = -(s / t) := by
    intro s t
    cases s <;> cases t <;> rfl
  cases u <;> cases v <;>
    simp only [UnpackedFloat.neg, div, hsign, roundWithAccuracy_neg]

theorem mul_turn (turned other : Bool) (u v : UnpackedFloat) :
    mul .binary64 (turn turned u) (turn other v) = turn (turned ^^ other) (mul .binary64 u v) := by
  cases turned <;> cases other <;> simp [turn, mul_neg_left, mul_neg_right, neg_neg_eq]

theorem mul_zero_left (s t : Sign) (v : UnpackedFloat) :
    Same (mul .binary64 (.zero s) v) (mul .binary64 (.zero t) v) := by
  cases v with
  | zero r => exact same_zero _ _
  | finite r m e hm => exact same_zero _ _
  | _ => exact .refl _

theorem mul_zero_right (s t : Sign) (u : UnpackedFloat) :
    Same (mul .binary64 u (.zero s)) (mul .binary64 u (.zero t)) := by
  cases u with
  | zero r => exact same_zero _ _
  | finite r m e hm => exact same_zero _ _
  | _ => exact .refl _

theorem Same.mul {u u' v v' : UnpackedFloat} (hu : Same u u') (hv : Same v v') :
    Same (mul .binary64 u v) (UnpackedFloat.mul .binary64 u' v') := by
  have hleft : Same (UnpackedFloat.mul .binary64 u v) (UnpackedFloat.mul .binary64 u' v) := by
    obtain rfl | ⟨⟨s, rfl⟩, ⟨t, rfl⟩⟩ := hu
    · exact .refl _
    · exact mul_zero_left s t v
  have hright : Same (UnpackedFloat.mul .binary64 u' v) (UnpackedFloat.mul .binary64 u' v') := by
    obtain rfl | ⟨⟨s, rfl⟩, ⟨t, rfl⟩⟩ := hv
    · exact .refl _
    · exact mul_zero_right s t u'
  exact hleft.trans hright

/-- Squares do not tell zeros apart. -/
theorem Same.mul_self {u v : UnpackedFloat} (h : Same u v) :
    UnpackedFloat.mul .binary64 u u = UnpackedFloat.mul .binary64 v v := by
  obtain rfl | ⟨⟨s, rfl⟩, ⟨t, rfl⟩⟩ := h
  · rfl
  · cases s <;> cases t <;> rfl

/-- Nor do the magnitudes of quotients. -/
theorem Same.abs_div {u v : UnpackedFloat} (h : Same u v) (w : UnpackedFloat) :
    (stored (div .binary64 u w)).abs = (stored (div .binary64 v w)).abs := by
  obtain rfl | ⟨⟨s, rfl⟩, ⟨t, rfl⟩⟩ := h
  · rfl
  · cases w with
    | infinity r => simp [div, UnpackedFloat.abs]
    | notANumber => rfl
    | zero r => rfl
    | finite r m e hm => simp [div, UnpackedFloat.abs]

theorem abs_neg_eq (u : UnpackedFloat) : u.neg.abs = u.abs := by
  cases u <;> rfl

theorem abs_turn (turned : Bool) (u : UnpackedFloat) : (turn turned u).abs = u.abs := by
  cases turned
  · rfl
  · exact abs_neg_eq u

theorem div_turn (turned : Bool) (u v : UnpackedFloat) :
    div .binary64 (turn turned u) v = turn turned (div .binary64 u v) := by
  cases turned
  · rfl
  · exact div_neg_left u v

theorem isFinite_turn (turned : Bool) (u : UnpackedFloat) :
    (turn turned u).isFinite = u.isFinite := by
  cases turned
  · rfl
  · cases u <;> rfl

theorem Same.isFinite {u v : UnpackedFloat} (h : Same u v) : u.isFinite = v.isFinite := by
  obtain rfl | ⟨⟨s, rfl⟩, ⟨t, rfl⟩⟩ := h <;> rfl

theorem exists_zero_turn (turned : Bool) (u : UnpackedFloat) :
    (∃ s, turn turned u = .zero s) ↔ ∃ s, u = .zero s := by
  cases turned
  · exact Iff.rfl
  · cases u <;> simp [turn, UnpackedFloat.neg]

theorem Same.exists_zero {u v : UnpackedFloat} (h : Same u v) :
    (∃ s, u = .zero s) ↔ ∃ s, v = .zero s := by
  obtain rfl | ⟨hu, hv⟩ := h
  · exact Iff.rfl
  · exact iff_of_true hu hv

/-- Comparisons do not tell zeros apart. -/
theorem Same.compare {u v : UnpackedFloat} (h : Same u v) (w : UnpackedFloat) :
    u.compare w = v.compare w := by
  obtain rfl | ⟨⟨s, rfl⟩, ⟨t, rfl⟩⟩ := h
  · rfl
  · cases w with
    | infinity r => cases r <;> rfl
    | finite r m e hm => cases r <;> rfl
    | _ => rfl

/-! ### Negative operands -/

theorem mul_neg_eq (x y : Float) : x * -y = -(x * y) := by
  apply value_injective
  rw [value_neg, value_mul, value_mul, value_neg, mul_neg_right, stored_neg]

theorem neg_mul_eq (x y : Float) : -x * y = -(x * y) := by
  apply value_injective
  rw [value_neg, value_mul, value_mul, value_neg, mul_neg_left, stored_neg]

theorem cube_neg (x : Float) : Scalar.cube (-x) = -Scalar.cube x := by
  apply value_injective
  simp only [Scalar.cube, value_mul, value_neg, mul_neg_left, mul_neg_right, neg_neg_eq, stored_neg]

theorem neg_div_eq (x y : Float) : -x / y = -(x / y) := by
  apply value_injective
  rw [value_neg, value_div, value_div, value_neg, div_neg_left, stored_neg]

theorem neg_neg_float (x : Float) : - -x = x := by
  apply value_injective
  rw [value_neg, value_neg, neg_neg_eq]

theorem add_neg_eq (x y : Float) : x + -y = x - y := by
  apply value_injective
  rw [value_add, value_sub, value_neg, sub_eq_add]

/-! ### The laws of signs -/

instance : Scalar.LawfulNeg Float where
  add_neg := add_neg_eq
  mul_neg := mul_neg_eq
  neg_div := neg_div_eq

instance : Scalar.LawfulSign Float where
  zero_beq_zero := rfl
  neg_zero_beq_zero := rfl
  symm := by
    intro turned x y h
    rw [reflects_iff] at h ⊢
    have hback := (h.turn turned).symm
    rwa [turn_turn] at hback
  add := by
    intro turned x x' y y' hx hy
    rw [reflects_iff] at hx hy ⊢
    rw [value_add, value_add, ← stored_turn]
    exact ((add_turn turned _ _).trans (hx.add hy)).packed
  sub := by
    intro turned x x' y y' hx hy
    rw [reflects_iff] at hx hy ⊢
    have hneg : Same (turn turned (value y).neg) (value y').neg := by
      cases turned
      · exact hy.neg
      · exact hy.neg
    rw [value_sub, value_sub, ← stored_turn, sub_eq_add, sub_eq_add]
    exact ((add_turn turned _ _).trans (hx.add hneg)).packed
  mul := by
    intro turned other x x' y y' hx hy
    rw [reflects_iff] at hx hy ⊢
    rw [value_mul, value_mul, ← stored_turn, ← mul_turn]
    exact (hx.mul hy).packed
  sq := by
    intro turned x y h
    rw [reflects_iff] at h
    apply value_injective
    rw [Scalar.sq, Scalar.sq, value_mul, value_mul, ← h.mul_self, mul_turn, Bool.xor_self]
    rfl
  abs_div := by
    intro turned x y h z
    rw [reflects_iff] at h
    apply value_injective
    have hvalue : ∀ w : Float, value (Scalar.abs w) = stored (value w).abs := value_abs
    rw [hvalue, hvalue, value_div, value_div, ← h.abs_div, div_turn, stored_turn, abs_turn]
  isFinite := by
    intro turned x y h
    rw [reflects_iff] at h
    exact (isFinite_turn turned (value x)).symm.trans h.isFinite
  beq_zero := by
    intro turned x y h
    rw [reflects_iff] at h
    rw [Bool.eq_iff_iff, beq_zero_iff, beq_zero_iff, ← exists_zero_turn turned]
    exact h.exists_zero
  lt := by
    intro x y h z
    rw [alike_iff] at h
    rw [lt_iff, lt_iff, UnpackedFloat.lt, UnpackedFloat.lt, h.compare]
  le := by
    intro x y h z
    rw [alike_iff] at h
    rw [le_iff, le_iff, UnpackedFloat.le, UnpackedFloat.le, h.compare]

end EllipticPlot.Binary64
