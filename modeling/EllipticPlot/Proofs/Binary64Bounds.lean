import Mathlib
import EllipticPlot.Proofs.Binary64Sign

/-!
# Magnitudes of doubles

Bounds by powers of two. A power of two that is a double is kept by rounding, from above and from
below, so a bound on the exact result of an operation is a bound on the double that comes out.
-/

namespace EllipticPlot.Binary64

open Float.Model (Format UnpackedFloat totalExponent)
open Float.Model.UnpackedFloat

/-! ### Numbers with a binary exponent -/

/-- The number `m · 2 ^ e`. -/
def dyadic (m : ℕ) (e : ℤ) : ℚ := m * 2 ^ e

theorem two_zpow_pos (n : ℤ) : (0 : ℚ) < 2 ^ n := zpow_pos (by norm_num) n

theorem two_zpow_le {i j : ℤ} : (2 : ℚ) ^ i ≤ 2 ^ j ↔ i ≤ j :=
  zpow_le_zpow_iff_right₀ (by norm_num)

theorem two_zpow_add (i j : ℤ) : (2 : ℚ) ^ (i + j) = 2 ^ i * 2 ^ j := zpow_add₀ (by norm_num) i j

theorem two_zpow_eq_dyadic {e n : ℤ} (h : e ≤ n) : (2 : ℚ) ^ n = dyadic (2 ^ (n - e).toNat) e := by
  rw [dyadic, Nat.cast_pow, Nat.cast_ofNat, ← zpow_natCast, ← two_zpow_add]
  congr 1
  omega

theorem dyadic_le_dyadic {m k : ℕ} {e : ℤ} : dyadic m e ≤ dyadic k e ↔ m ≤ k := by
  rw [dyadic, dyadic, mul_le_mul_iff_left₀ (two_zpow_pos e), Nat.cast_le]

theorem dyadic_mul (m k : ℕ) (e f : ℤ) : dyadic (m * k) (e + f) = dyadic m e * dyadic k f := by
  rw [dyadic, dyadic, dyadic, two_zpow_add, Nat.cast_mul]
  ring

/-- A smaller exponent with as many more bits gives the same number. -/
theorem dyadic_shift (m k : ℕ) (e : ℤ) : dyadic (m <<< k) (e - k) = dyadic m e := by
  rw [dyadic, dyadic, Nat.shiftLeft_eq, Nat.cast_mul, mul_assoc]
  congr 1
  rw [Nat.cast_pow, Nat.cast_ofNat, ← zpow_natCast, ← two_zpow_add]
  congr 1
  omega

theorem dyadic_carry (e : ℤ) : dyadic (2 ^ 52) (e + 1) = dyadic (2 ^ 53) e := by
  rw [dyadic, dyadic, two_zpow_add]
  norm_num
  ring

theorem two_zpow_log2_le {m : ℕ} (hm : 0 < m) (e : ℤ) : (2 : ℚ) ^ (m.log2 + e) ≤ dyadic m e := by
  rw [two_zpow_eq_dyadic (by omega : e ≤ m.log2 + e), dyadic_le_dyadic]
  have hlog : ((m.log2 : ℤ) + e - e).toNat = m.log2 := by omega
  rw [hlog]
  exact Nat.log2_self_le hm.ne'

theorem dyadic_pos {m : ℕ} (hm : 0 < m) (e : ℤ) : 0 < dyadic m e :=
  (two_zpow_pos _).trans_le (two_zpow_log2_le hm e)

theorem dyadic_lt_two_zpow_log2 (m : ℕ) (e : ℤ) : dyadic m e < 2 ^ (m.log2 + 1 + e) := by
  rw [two_zpow_eq_dyadic (by omega : e ≤ m.log2 + 1 + e), ← not_le, dyadic_le_dyadic, not_le]
  have hlog : ((m.log2 : ℤ) + 1 + e - e).toNat = m.log2 + 1 := by omega
  rw [hlog]
  exact Nat.lt_log2_self

theorem log2_le_of_dyadic_le {m : ℕ} (hm : 0 < m) {e n : ℤ} (h : dyadic m e ≤ 2 ^ n) :
    m.log2 + e ≤ n :=
  two_zpow_le.mp ((two_zpow_log2_le hm e).trans h)

theorem le_log2_of_le_dyadic {m : ℕ} {e n : ℤ} (h : 2 ^ n ≤ dyadic m e) : n < m.log2 + 1 + e := by
  have hlt := h.trans_lt (dyadic_lt_two_zpow_log2 m e)
  exact (zpow_lt_zpow_iff_right₀ (by norm_num)).mp hlt

/-! ### Rounding a mantissa -/

theorem targetExponent_eq (m : ℕ) (e : ℤ) :
    Format.binary64.targetExponent (totalExponent m e) = max (m.log2 + e - 52) (-1074) := by
  have hbits : (Format.binary64.mantissaBits : ℤ) = 53 := rfl
  have hmin : Format.binary64.minExponent = -1074 := rfl
  rw [Format.targetExponent, totalExponent, hbits, hmin]
  congr 1
  omega

theorem mantissa_shiftRight (em : ExtendedMantissa) (k : ℕ) :
    (em >>> k).mantissa = em.mantissa / 2 ^ k := by
  induction k with
  | zero => simp [HShiftRight.hShiftRight, Nat.repeat]
  | succ k ih =>
    change (em >>> k).mantissa / 2 = _
    rw [ih, Nat.div_div_eq_div_mul, Nat.pow_succ]

theorem roundedMantissa_bounds (em : ExtendedMantissa) :
    em.mantissa ≤ em.roundedMantissa ∧ em.roundedMantissa ≤ em.mantissa + 1 := by
  obtain ⟨m, r, s⟩ := em
  cases r <;> cases s <;>
    simp [ExtendedMantissa.roundedMantissa, ExtendedMantissa.accuracy, Accuracy.roundToNearestEven]
  omega

/-- Nothing is rounded where only zeros are shifted out. -/
theorem exact_shiftRight {m k : ℕ} (h : 2 ^ k ∣ m) :
    (ExtendedMantissa.mk m false false) >>> k = ⟨m / 2 ^ k, false, false⟩ := by
  induction k with
  | zero => simp [HShiftRight.hShiftRight, Nat.repeat]
  | succ k ih =>
    change ExtendedMantissa.shiftRightOne (ExtendedMantissa.mk m false false >>> k) = _
    rw [ih ((pow_dvd_pow 2 (Nat.le_succ k)).trans h), ExtendedMantissa.shiftRightOne]
    obtain ⟨c, rfl⟩ := h
    have hhalf : 2 ^ (k + 1) * c / 2 ^ k = 2 * c := by
      rw [pow_succ, mul_assoc, Nat.mul_div_cancel_left _ (Nat.two_pow_pos k)]
    have hfull : 2 ^ (k + 1) * c / 2 ^ (k + 1) = c :=
      Nat.mul_div_cancel_left _ (Nat.two_pow_pos (k + 1))
    simp [hhalf, hfull]

/-- The mantissa after the first shift and its rounding. -/
def shortened (m : ℕ) (e : ℤ) (a : Accuracy) : ℕ :=
  (shiftToTargetExponent .binary64 m e a).1.roundedMantissa

/-- The bits that the first shift drops. -/
def dropped (m : ℕ) (e : ℤ) : ℕ := (max ((m.log2 : ℤ) + e - 52) (-1074) - e).toNat

theorem shiftToTargetExponent_eq (m : ℕ) (e : ℤ) (a : Accuracy) :
    shiftToTargetExponent .binary64 m e a =
      (ExtendedMantissa.ofMantissaAndAccuracy m a >>> dropped m e, e + dropped m e) := by
  rw [shiftToTargetExponent, targetExponent_eq]
  rfl

theorem shortened_bounds (m : ℕ) (e : ℤ) (a : Accuracy) :
    m / 2 ^ dropped m e ≤ shortened m e a ∧ shortened m e a ≤ m / 2 ^ dropped m e + 1 := by
  have hmantissa : (ExtendedMantissa.ofMantissaAndAccuracy m a).mantissa = m := by
    obtain _ | _ | _ | _ := a <;> rfl
  rw [shortened, shiftToTargetExponent_eq]
  have hbounds := roundedMantissa_bounds
    (ExtendedMantissa.ofMantissaAndAccuracy m a >>> dropped m e)
  rwa [mantissa_shiftRight, hmantissa] at hbounds

theorem shortened_of_dvd {m : ℕ} {e : ℤ} (h : 2 ^ dropped m e ∣ m) :
    shortened m e .exact = m / 2 ^ dropped m e := by
  rw [shortened, shiftToTargetExponent_eq, ExtendedMantissa.ofMantissaAndAccuracy,
    exact_shiftRight h]
  rfl

theorem div_two_pow_dropped_lt (m : ℕ) (e : ℤ) : m / 2 ^ dropped m e < 2 ^ 53 := by
  apply (Nat.div_lt_iff_lt_mul (Nat.two_pow_pos _)).mpr
  rw [← pow_add]
  apply Nat.lt_log2_self.trans_le
  apply Nat.pow_le_pow_right (by norm_num)
  rw [dropped]
  omega

theorem shortened_le (m : ℕ) (e : ℤ) (a : Accuracy) : shortened m e a ≤ 2 ^ 53 := by
  have hlt := div_two_pow_dropped_lt m e
  have hbounds := (shortened_bounds m e a).2
  omega

/-- The value with a mantissa of at most 53 bits, or of one bit more for a power of two. -/
def ofShortened (s : Sign) (r : ℕ) (e : ℤ) : UnpackedFloat :=
  if h : r = 0 then .zero s
  else if r < 2 ^ 53 then .finite s r e (Nat.pos_of_ne_zero h)
  else .finite s (2 ^ 52) (e + 1) (by norm_num)

theorem dropped_of_lt {r : ℕ} {e : ℤ} (hr : r < 2 ^ 53) (he : -1074 ≤ e) : dropped r e = 0 := by
  have hlog : r.log2 < 53 := by
    obtain rfl | hpos := Nat.eq_zero_or_pos r
    · norm_num
    · exact (Nat.log2_lt hpos.ne').mpr hr
  rw [dropped]
  omega

theorem dropped_two_pow {e : ℤ} (he : -1074 ≤ e) : dropped (2 ^ 53) e = 1 := by
  rw [dropped, Nat.log2_two_pow]
  omega

/-- Rounding shortens the mantissa; only a carry into the 54th bit needs a second shift. -/
theorem roundWithAccuracy_eq (s : Sign) (m : ℕ) (e : ℤ) (a : Accuracy) :
    roundWithAccuracy .binary64 s m e a = ofShortened s (shortened m e a) (e + dropped m e) := by
  have hle := shortened_le m e a
  have hlow : -1074 ≤ e + dropped m e := by
    rw [dropped]
    omega
  have hfirst : (ExtendedMantissa.ofMantissaAndAccuracy m a >>> dropped m e).roundedMantissa =
      shortened m e a := by
    rw [shortened, shiftToTargetExponent_eq]
  rw [roundWithAccuracy, shiftToTargetExponent_eq]
  dsimp only
  rw [hfirst, shiftToTargetExponent_eq]
  dsimp only
  simp only [mantissa_shiftRight, ExtendedMantissa.ofMantissaAndAccuracy]
  generalize shortened m e a = r at hle
  rw [ofShortened]
  by_cases hr : r < 2 ^ 53
  · simp only [dropped_of_lt hr hlow, pow_zero, Nat.div_one, Nat.cast_zero, add_zero, if_pos hr]
  · obtain rfl : r = 2 ^ 53 := by omega
    simp only [dropped_two_pow hlow]
    norm_num

/-! ### Bounds -/

/-- The magnitude is a number and at most `2 ^ n`. -/
def AtMost (n : ℤ) : UnpackedFloat → Prop
  | .zero _ => True
  | .finite _ m e _ => dyadic m e ≤ 2 ^ n
  | _ => False

/-- The magnitude is at least `2 ^ n`, or infinite. -/
def AtLeast (n : ℤ) : UnpackedFloat → Prop
  | .infinity _ => True
  | .finite _ m e _ => 2 ^ n ≤ dyadic m e
  | _ => False

instance (n : ℤ) (u : UnpackedFloat) : Decidable (AtMost n u) :=
  match u with
  | .zero _ => .isTrue trivial
  | .finite _ m e _ => inferInstanceAs (Decidable (dyadic m e ≤ 2 ^ n))
  | .infinity _ | .notANumber => .isFalse id

instance (n : ℤ) (u : UnpackedFloat) : Decidable (AtLeast n u) :=
  match u with
  | .infinity _ => .isTrue trivial
  | .finite _ m e _ => inferInstanceAs (Decidable (2 ^ n ≤ dyadic m e))
  | .zero _ | .notANumber => .isFalse id

theorem value_one : value 1.0 = .finite .positive (2 ^ 52) (-52) (by norm_num) := by
  have hbits : (1.0 : Float).toBits = 0x3ff0000000000000 := rfl
  rw [value_of_toBits hbits]
  rfl

theorem value_half : value 0.5 = .finite .positive (2 ^ 52) (-53) (by norm_num) := by
  have hbits : (0.5 : Float).toBits = 0x3fe0000000000000 := rfl
  rw [value_of_toBits hbits]
  rfl

theorem value_four : value 4.0 = .finite .positive (2 ^ 52) (-50) (by norm_num) := by
  have hbits : (4.0 : Float).toBits = 0x4010000000000000 := rfl
  rw [value_of_toBits hbits]
  rfl

theorem value_three : value 3.0 = .finite .positive (3 * 2 ^ 51) (-51) (by norm_num) := by
  have hbits : (3.0 : Float).toBits = 0x4008000000000000 := rfl
  rw [value_of_toBits hbits]
  rfl

theorem value_third :
    value Scalar.third = .finite .positive 6004799503160661 (-54) (by norm_num) := by
  have hbits : (Scalar.third : Float).toBits = 0x3fd5555555555555 := rfl
  rw [value_of_toBits hbits]
  rfl

/-- How large the constants are by which the equations and the solver multiply. -/
structure ConstantBounds : Prop where
  one : AtLeast 0 (value 1.0) ∧ AtMost 0 (value 1.0)
  two : AtMost 1 (value 2.0) ∧ AtMost 1 (value (-2.0))
  three : AtMost 2 (value 3.0)
  neg_four : AtMost 2 (value (-4.0))
  half : AtLeast (-1) (value 0.5) ∧ AtMost (-1) (value 0.5)
  neg_half : AtMost (-1) (value (-0.5))
  third : AtLeast (-2) (value Scalar.third)

theorem constantBounds : ConstantBounds := by
  constructor <;> decide +kernel

theorem AtMost.mono {i j : ℤ} (hij : i ≤ j) {u : UnpackedFloat} (h : AtMost i u) : AtMost j u := by
  cases u with
  | zero s => trivial
  | finite s m e hm => exact le_trans h (two_zpow_le.mpr hij)
  | _ => cases h

theorem AtLeast.mono {i j : ℤ} (hij : i ≤ j) {u : UnpackedFloat} (h : AtLeast j u) :
    AtLeast i u := by
  cases u with
  | infinity s => trivial
  | finite s m e hm => exact (two_zpow_le.mpr hij).trans h
  | _ => cases h

theorem atMost_or_atLeast (n : ℤ) {u : UnpackedFloat} (h : u.isFinite = true) :
    AtMost n u ∨ AtLeast n u := by
  cases u with
  | zero s => exact .inl trivial
  | finite s m e hm => exact le_total _ _
  | _ => cases h

theorem isFinite_of_value {x : Float} {s : Sign} {m : ℕ} {e : ℤ} {hm : 0 < m}
    (h : value x = .finite s m e hm) : Scalar.isFinite x = true := by
  change (value x).isFinite = true
  rw [h]
  rfl

theorem isFinite_of_atMost {n : ℤ} {x : Float} (h : AtMost n (value x)) :
    Scalar.isFinite x = true := by
  change (value x).isFinite = true
  cases hx : value x with
  | zero s => rfl
  | finite s m e hm => rfl
  | _ =>
    rw [hx] at h
    cases h

theorem atMost_ofShortened {n : ℤ} {r : ℕ} {e : ℤ} (s : Sign) (hr : r ≤ 2 ^ 53)
    (h : dyadic r e ≤ 2 ^ n) : AtMost n (ofShortened s r e) := by
  rw [ofShortened]
  split_ifs with hzero hlt
  · trivial
  · exact h
  · obtain rfl : r = 2 ^ 53 := by omega
    exact (dyadic_carry e).trans_le h

theorem atLeast_ofShortened {n : ℤ} {r : ℕ} {e : ℤ} (s : Sign) (hr : r ≤ 2 ^ 53)
    (h : 2 ^ n ≤ dyadic r e) : AtLeast n (ofShortened s r e) := by
  rw [ofShortened]
  split_ifs with hzero hlt
  · rw [hzero, dyadic, Nat.cast_zero, zero_mul] at h
    exact absurd h (not_le.mpr (two_zpow_pos n))
  · exact h
  · obtain rfl : r = 2 ^ 53 := by omega
    exact h.trans_eq (dyadic_carry e).symm

theorem two_pow_split {n e : ℤ} {k : ℕ} (h : e + k ≤ n) :
    (2 : ℕ) ^ (n - e).toNat = 2 ^ (n - (e + k)).toNat * 2 ^ k := by
  rw [← pow_add]
  congr 1
  omega

/-- A power of two in the range of doubles bounds the rounded value if it bounds the exact one. An
inexact value lies above its mantissa, which then has to be below the bound. -/
theorem atMost_round {n : ℤ} (s : Sign) {m : ℕ} (hm : 0 < m) {e : ℤ} {a : Accuracy}
    (hn : -1074 ≤ n) (h : dyadic m e < 2 ^ n ∨ a = .exact ∧ dyadic m e ≤ 2 ^ n) :
    AtMost n (roundWithAccuracy .binary64 s m e a) := by
  rw [roundWithAccuracy_eq]
  apply atMost_ofShortened s (shortened_le m e a)
  have hle : dyadic m e ≤ 2 ^ n := h.elim le_of_lt (·.2)
  have hlog := log2_le_of_dyadic_le hm hle
  have hdropped : e + dropped m e ≤ n := by
    rw [dropped]
    omega
  rw [two_zpow_eq_dyadic hdropped, dyadic_le_dyadic]
  have hsplit := two_pow_split hdropped
  rw [two_zpow_eq_dyadic (by omega : e ≤ n), ← not_le, dyadic_le_dyadic, dyadic_le_dyadic,
    not_le] at h
  by_cases hlt : m < 2 ^ (n - e).toNat
  · have hquotient : m / 2 ^ dropped m e < 2 ^ (n - (e + dropped m e)).toNat :=
      (Nat.div_lt_iff_lt_mul (Nat.two_pow_pos _)).mpr (hlt.trans_eq hsplit)
    exact (shortened_bounds m e a).2.trans hquotient
  · -- only an exact power of two is left, and it loses zeros only
    obtain ⟨rfl, hpower⟩ := h.resolve_left hlt
    have heq : m = 2 ^ (n - (e + dropped m e)).toNat * 2 ^ dropped m e :=
      (le_antisymm hpower (not_lt.mp hlt)).trans hsplit
    rw [shortened_of_dvd (Dvd.intro_left _ heq.symm)]
    exact (Nat.div_le_iff_le_mul_add_pred (Nat.two_pow_pos _)).mpr (by rw [mul_comm]; omega)

/-- It is a lower bound of the rounded value if it is one of the mantissa. -/
theorem atLeast_round {n : ℤ} (s : Sign) {m : ℕ} {e : ℤ} (a : Accuracy)
    (hn : -1074 ≤ n) (h : 2 ^ n ≤ dyadic m e) :
    AtLeast n (roundWithAccuracy .binary64 s m e a) := by
  rw [roundWithAccuracy_eq]
  apply atLeast_ofShortened s (shortened_le m e a)
  have hpos : 0 < m := by
    by_contra hzero
    obtain rfl : m = 0 := by omega
    rw [dyadic, Nat.cast_zero, zero_mul] at h
    exact absurd h (not_le.mpr (two_zpow_pos n))
  by_cases hdropped : e + dropped m e ≤ n
  · rw [two_zpow_eq_dyadic hdropped, dyadic_le_dyadic]
    rw [two_zpow_eq_dyadic (by omega : e ≤ n), dyadic_le_dyadic] at h
    have hsplit := two_pow_split hdropped
    refine le_trans ?_ (shortened_bounds m e a).1
    exact (Nat.le_div_iff_mul_le (Nat.two_pow_pos _)).mpr (hsplit.symm.trans_le h)
  · -- the mantissa is so long that a bit of it is left
    have hbits : 2 ^ dropped m e ≤ m := by
      refine le_trans (Nat.pow_le_pow_right (by norm_num) ?_) (Nat.log2_self_le hpos.ne')
      rw [dropped] at hdropped ⊢
      omega
    have hone : 1 ≤ shortened m e a :=
      le_trans ((Nat.le_div_iff_mul_le (Nat.two_pow_pos _)).mpr (by omega))
        (shortened_bounds m e a).1
    calc (2 : ℚ) ^ n ≤ 2 ^ (e + dropped m e) := two_zpow_le.mpr (by omega)
      _ = dyadic 1 (e + dropped m e) := by rw [dyadic, Nat.cast_one, one_mul]
      _ ≤ dyadic (shortened m e a) (e + dropped m e) := dyadic_le_dyadic.mpr hone

/-! ### Canonical values -/

/-- A double has 53 bits, unless it has the least exponent. -/
def Canonical : UnpackedFloat → Prop
  | .finite _ m e _ => m < 2 ^ 53 ∧ -1074 ≤ e ∧ (2 ^ 52 ≤ m ∨ e = -1074)
  | _ => True

theorem canonical_value (x : Float) : Canonical (value x) := by
  cases hx : value x with
  | finite s m e hm =>
    obtain ⟨hm53, he⟩ := value_bounds hx
    refine ⟨hm53, he, ?_⟩
    unfold value Float.Model.unpack UnpackedFloat.unpack at hx
    dsimp only at hx
    split_ifs at hx with _ _ hexponent _
    · simp only [finite.injEq] at hx
      right
      rw [← hx.2.2, hexponent, exponentBias_eq]
      rfl
    · simp only [finite.injEq] at hx
      left
      rw [← hx.2.1, BitVec.toNat_append, ← Nat.shiftLeft_add_eq_or_of_lt (BitVec.isLt _)]
      exact Nat.le_add_right _ _
  | _ => trivial

theorem canonical_round (s : Sign) {m : ℕ} {e : ℤ} (a : Accuracy)
    (hm : 52 ≤ m.log2 ∨ e ≤ -1074) : Canonical (roundWithAccuracy .binary64 s m e a) := by
  have hlow : -1074 ≤ e + dropped m e := by
    rw [dropped]
    omega
  have hlong : 2 ^ 52 ≤ shortened m e a ∨ e + dropped m e = -1074 := by
    by_cases hleast : e + dropped m e = -1074
    · exact .inr hleast
    left
    have hbits : m.log2 = 52 + dropped m e := by
      rw [dropped] at hleast ⊢
      omega
    refine le_trans ?_ (shortened_bounds m e a).1
    apply (Nat.le_div_iff_mul_le (Nat.two_pow_pos _)).mpr
    rw [← pow_add, ← hbits]
    apply Nat.log2_self_le
    rintro rfl
    rw [Nat.log2_zero] at hbits
    omega
  rw [roundWithAccuracy_eq, ofShortened]
  split_ifs with hzero hlt
  · trivial
  · exact ⟨hlt, hlow, hlong⟩
  · exact ⟨by norm_num, by omega, .inl le_rfl⟩

/-- The leading bit of a long mantissa is not packed, and comes back. -/
theorem toNat_leading_bit {m : ℕ} (hlow : 2 ^ 52 ≤ m) (hhigh : m < 2 ^ 53) :
    (1#1 ++ BitVec.ofNat 52 m).toNat = m := by
  have hrest : (BitVec.ofNat 52 m).toNat = m - 2 ^ 52 := by
    rw [BitVec.toNat_ofNat]
    omega
  rw [BitVec.toNat_append, ← Nat.shiftLeft_add_eq_or_of_lt (BitVec.isLt _), hrest]
  change 1 <<< 52 + (m - 2 ^ 52) = m
  rw [Nat.shiftLeft_eq]
  omega

theorem unpack_normal (s : Sign) {m k : ℕ} (hlow : 2 ^ 52 ≤ m) (hhigh : m < 2 ^ 53) (hk : 0 < k)
    (hk' : k < 2047) :
    UnpackedFloat.unpack .binary64
        (packComponents .binary64 s (BitVec.ofNat 11 k) (BitVec.ofNat 52 m)) =
      .finite s m (k - 1075) (by omega) := by
  have hexponent : (BitVec.ofNat 11 k).toNat = k := by
    rw [BitVec.toNat_ofNat]
    omega
  have hnotLast : BitVec.ofNat 11 k ≠ -1#11 := by
    intro h
    rw [h] at hexponent
    revert hexponent
    simp
    omega
  have hnotZero : BitVec.ofNat 11 k ≠ 0#11 := by
    intro h
    rw [h] at hexponent
    simp at hexponent
    omega
  unfold UnpackedFloat.unpack
  simp only [unpackMantissa_packComponents, unpackExponent_packComponents,
    unpackSign_packComponents, Sign.ofBitVec_toBitVec]
  rw [if_neg hnotLast, if_neg hnotZero]
  simp only [hexponent, toNat_leading_bit hlow hhigh, exponentBias_eq]
  congr 1

theorem unpack_subnormal (s : Sign) {m : ℕ} (hm : 0 < m) (hhigh : m < 2 ^ 52) :
    UnpackedFloat.unpack .binary64 (packComponents .binary64 s 0#11 (BitVec.ofNat 52 m)) =
      .finite s m (-1074) hm := by
  have hmantissa : (BitVec.ofNat 52 m).toNat = m := by
    rw [BitVec.toNat_ofNat]
    omega
  have hne : BitVec.ofNat 52 m ≠ 0#52 := by
    intro h
    rw [h] at hmantissa
    simp at hmantissa
    omega
  unfold UnpackedFloat.unpack
  simp only [unpackMantissa_packComponents, unpackExponent_packComponents,
    unpackSign_packComponents, Sign.ofBitVec_toBitVec]
  rw [if_neg (by decide), if_pos trivial, dif_neg hne]
  simp only [hmantissa, exponentBias_eq]
  congr 1

theorem stored_of_exponent_le {s : Sign} {m : ℕ} {e : ℤ} {hm : 0 < m}
    (hcanonical : Canonical (.finite s m e hm)) (he : e ≤ 971) :
    stored (.finite s m e hm) = .finite s m e hm := by
  obtain ⟨hm53, hlow, hlong⟩ := hcanonical
  have hbits : Format.binary64.mantissaBits = 53 := rfl
  change UnpackedFloat.unpack .binary64 (UnpackedFloat.pack .binary64 (.finite s m e hm)) = _
  unfold UnpackedFloat.pack
  dsimp only
  rw [exponentBias_eq, hbits]
  split_ifs with hover hnormal
  · norm_num at hover
    omega
  · have hleading : 2 ^ 52 ≤ m := (Nat.le_log2 hm.ne').mp (by omega)
    refine (unpack_normal s hleading hm53 (by omega) (by omega)).trans ?_
    congr 1
    omega
  · have hshort : m < 2 ^ 52 := by
      have hlog : m.log2 < 53 := (Nat.log2_lt hm.ne').mpr hm53
      exact (Nat.log2_lt hm.ne').mp (by omega)
    obtain rfl : e = -1074 := hlong.resolve_left (by omega)
    exact unpack_subnormal s hm hshort

theorem stored_of_lt_exponent {s : Sign} {m : ℕ} {e : ℤ} {hm : 0 < m} (he : 971 < e) :
    stored (.finite s m e hm) = .infinity s := by
  change UnpackedFloat.unpack .binary64 (UnpackedFloat.pack .binary64 (.finite s m e hm)) = _
  unfold UnpackedFloat.pack
  dsimp only
  rw [exponentBias_eq, if_pos (by norm_num; omega)]
  exact stored_infinity s

theorem exponent_le_of_value {x : Float} {s : Sign} {m : ℕ} {e : ℤ} {hm : 0 < m}
    (hx : value x = .finite s m e hm) : e ≤ 971 := by
  by_contra he
  have hstored := stored_value x
  rw [hx, stored_of_lt_exponent (by omega)] at hstored
  cases hstored

/-- A finite double is below `2 ^ 1024`. -/
theorem atMost_value {x : Float} (h : Scalar.isFinite x = true) : AtMost 1024 (value x) := by
  have hfinite : (value x).isFinite = true := h
  cases hx : value x with
  | zero s => trivial
  | finite s m e hm =>
    have he := exponent_le_of_value hx
    obtain ⟨hm53, -⟩ := value_bounds hx
    have hlog : m.log2 < 53 := (Nat.log2_lt hm.ne').mpr hm53
    exact (dyadic_lt_two_zpow_log2 m e).le.trans (two_zpow_le.mpr (by omega))
  | _ =>
    rw [hx] at hfinite
    cases hfinite

/-- A finite double that is not zero is at least `2 ^ (-1074)`. -/
theorem atLeast_value {x : Float} (h : Scalar.isFinite x = true) (hne : (x == 0.0) = false) :
    AtLeast (-1074) (value x) := by
  have hfinite : (value x).isFinite = true := h
  cases hx : value x with
  | zero s =>
    have hzero : (x == 0.0) = true := (beq_zero_iff x).mpr ⟨s, hx⟩
    rw [hne] at hzero
    cases hzero
  | finite s m e hm =>
    obtain ⟨-, he⟩ := value_bounds hx
    exact (two_zpow_le.mpr (by omega)).trans (two_zpow_log2_le hm e)
  | _ =>
    rw [hx] at hfinite
    cases hfinite

theorem atMost_stored {n : ℤ} {u : UnpackedFloat} (hcanonical : Canonical u) (hn : n ≤ 1023)
    (h : AtMost n u) : AtMost n (stored u) := by
  cases u with
  | zero s => simpa using h
  | finite s m e hm =>
    have hlog : m.log2 + e ≤ n := log2_le_of_dyadic_le hm h
    have he : e ≤ 971 := by
      obtain ⟨-, -, hlong | hleast⟩ := hcanonical
      · have hbits : 52 ≤ m.log2 := (Nat.le_log2 hm.ne').mpr hlong
        omega
      · omega
    rwa [stored_of_exponent_le hcanonical he]
  | _ => cases h

theorem atLeast_stored {n : ℤ} {u : UnpackedFloat} (hcanonical : Canonical u)
    (h : AtLeast n u) : AtLeast n (stored u) := by
  cases u with
  | infinity s => simpa using h
  | finite s m e hm =>
    by_cases he : e ≤ 971
    · rwa [stored_of_exponent_le hcanonical he]
    · rw [stored_of_lt_exponent (by omega)]
      trivial
  | _ => cases h

theorem not_isFinite_of_atLeast {x : Float} (h : AtLeast 1024 (value x)) :
    Scalar.isFinite x = false := by
  change (value x).isFinite = false
  cases hx : value x with
  | infinity s => rfl
  | finite s m e hm =>
    rw [hx] at h
    have hlog := le_log2_of_le_dyadic h
    have he := exponent_le_of_value hx
    obtain ⟨hm53, -⟩ := value_bounds hx
    have hbits : m.log2 < 53 := (Nat.log2_lt hm.ne').mpr hm53
    omega
  | notANumber => rfl
  | zero s =>
    rw [hx] at h
    cases h

theorem ne_zero_of_atLeast {n : ℤ} {x : Float} (h : AtLeast n (value x)) : (x == 0.0) = false := by
  rw [← Bool.not_eq_true, beq_zero_iff]
  rintro ⟨s, hx⟩
  rw [hx] at h
  exact h

end EllipticPlot.Binary64
