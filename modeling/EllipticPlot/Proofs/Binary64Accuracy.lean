import EllipticPlot.Proofs.Binary64Real

/-!
# How exact the operations on doubles are

An operation on finite doubles gives a double next to the exact result: it is off by at most half a
unit in the last place. That is at most `2 ^ (-53)` of the result, or `2 ^ (-1075)` where the result
is too small for all bits.
-/

namespace EllipticPlot.Binary64

open Float.Model (UnpackedFloat)
open Float.Model.UnpackedFloat

/-! ### Rounding -/

/-- The largest share of a number that rounding takes away from it or adds to it. -/
noncomputable def roundoff : ℝ := dyadic 1 (-53)

/-- What rounding takes away or adds where a number has fewer bits. -/
noncomputable def underflow : ℝ := dyadic 1 (-1075)

theorem roundoff_eq_zpow : roundoff = 2 ^ (-53 : ℤ) := by
  rw [roundoff, cast_dyadic, Nat.cast_one, one_mul]

theorem underflow_eq_zpow : underflow = 2 ^ (-1075 : ℤ) := by
  rw [underflow, cast_dyadic, Nat.cast_one, one_mul]

theorem roundoff_eq : roundoff = 1 / 2 ^ 53 := by
  rw [roundoff_eq_zpow, zpow_neg, one_div]
  norm_cast

theorem roundoff_pos : 0 < roundoff := roundoff_eq_zpow ▸ real_zpow_pos _

theorem underflow_pos : 0 < underflow := underflow_eq_zpow ▸ real_zpow_pos _

theorem abs_roundedMantissa_sub_le {em : ExtendedMantissa} {x : ℝ} (h : Represents em x) :
    |(em.roundedMantissa : ℝ) - x| ≤ 1 / 2 := by
  obtain ⟨m, r, s⟩ := em
  rw [abs_le]
  cases r <;> cases s <;>
    simp only [Represents, ExtendedMantissa.accuracy, ExtendedMantissa.roundedMantissa,
      Accuracy.roundToNearestEven] at h ⊢
  case true.false =>
    -- a tie: one of the neighbours is even
    have hrest : (m % 2 : ℕ) < 2 := Nat.mod_lt m two_pos
    have hle : ((m % 2 : ℕ) : ℝ) ≤ 1 := by exact_mod_cast Nat.lt_succ_iff.mp hrest
    have hpos : (0 : ℝ) ≤ (m % 2 : ℕ) := Nat.cast_nonneg _
    push_cast at hle hpos ⊢
    constructor <;> linarith
  all_goals push_cast; constructor <;> linarith

theorem abs_roundedSize_sub_le {m : ℕ} {e : ℤ} {a : Accuracy} {x : ℝ}
    (hx : Represents (.ofMantissaAndAccuracy m a) x) :
    |(roundedSize m e a : ℝ) - x * 2 ^ e| ≤ 2 ^ (e + dropped m e) / 2 := by
  have hshortened : |(shortened m e a : ℝ) - x / 2 ^ dropped m e| ≤ 1 / 2 := by
    rw [shortened, shiftToTargetExponent_eq]
    exact abs_roundedMantissa_sub_le (hx.shiftRight _)
  have hscale : (roundedSize m e a : ℝ) - x * 2 ^ e =
      (shortened m e a - x / 2 ^ dropped m e) * 2 ^ (e + dropped m e) := by
    rw [roundedSize, cast_dyadic, sub_mul, zpow_add₀ two_ne_zero, zpow_natCast]
    field_simp
  rw [hscale, abs_mul, abs_of_pos (real_zpow_pos _)]
  linarith [mul_le_mul_of_nonneg_right hshortened (real_zpow_pos (e + dropped m e)).le]

theorem half_unit_le {m : ℕ} {e : ℤ} {a : Accuracy} {x : ℝ}
    (hx : Represents (.ofMantissaAndAccuracy m a) x) (hlong : 52 ≤ m.log2 ∨ e ≤ -1074) :
    (2 : ℝ) ^ (e + dropped m e) / 2 ≤ roundoff * (x * 2 ^ e) + underflow := by
  have hmantissa : (m : ℝ) ≤ x := by
    have hle := hx.le
    obtain _ | _ | _ | _ := a <;> exact hle
  have hx0 : 0 ≤ x := (Nat.cast_nonneg m).trans hmantissa
  have hshare : 0 ≤ roundoff * (x * 2 ^ e) :=
    mul_nonneg roundoff_pos.le (mul_nonneg hx0 (real_zpow_pos e).le)
  rw [add_dropped hlong, half_zpow]
  obtain hleast | hbits := le_total ((m.log2 : ℤ) + e - 52) (-1074)
  · rw [max_eq_right hleast, underflow_eq_zpow]
    exact le_add_of_nonneg_left hshare
  · have hpos : 0 < m := by
      rw [Nat.pos_iff_ne_zero]
      rintro rfl
      rw [Nat.log2_zero] at hlong hbits
      omega
    have hlow : (2 : ℝ) ^ (m.log2 + e) ≤ x * 2 ^ e := by
      rw [zpow_add₀ two_ne_zero, zpow_natCast]
      refine mul_le_mul_of_nonneg_right (le_trans ?_ hmantissa) (real_zpow_pos e).le
      exact_mod_cast Nat.log2_self_le hpos.ne'
    have hunit : (2 : ℝ) ^ ((m.log2 : ℤ) + e - 52 - 1) = roundoff * 2 ^ ((m.log2 : ℤ) + e) := by
      rw [roundoff_eq_zpow, ← zpow_add₀ two_ne_zero]
      congr 1
      omega
    rw [max_eq_left hbits, hunit]
    linarith [mul_le_mul_of_nonneg_left hlow roundoff_pos.le, underflow_pos]

theorem number_ofShortened (s : Sign) {r : ℕ} (hr : r ≤ 2 ^ 53) (e : ℤ) :
    number (ofShortened s r e) = signed s (dyadic r e : ℚ) := by
  rw [ofShortened]
  split_ifs with hzero hlt
  · rw [hzero, dyadic, Nat.cast_zero, zero_mul, Rat.cast_zero, signed_zero]
    rfl
  · rfl
  · obtain rfl : r = 2 ^ 53 := by omega
    rw [← dyadic_carry]
    rfl

theorem number_round (s : Sign) (m : ℕ) (e : ℤ) (a : Accuracy) :
    number (roundWithAccuracy .binary64 s m e a) = signed s (roundedSize m e a : ℚ) := by
  rw [roundWithAccuracy_eq, number_ofShortened s (shortened_le m e a), roundedSize]

theorem stored_of_isFinite {u : UnpackedFloat} (hcanonical : Canonical u)
    (hfinite : u.isFinite = true) (hstored : (stored u).isFinite = true) : stored u = u := by
  cases u with
  | zero s => exact stored_zero s
  | finite s m e hm =>
    by_cases he : e ≤ 971
    · exact stored_of_exponent_le hcanonical he
    · rw [stored_of_lt_exponent (by omega)] at hstored
      cases hstored
  | _ => cases hfinite

theorem isFinite_roundWithAccuracy (s : Sign) (m : ℕ) (e : ℤ) (a : Accuracy) :
    (roundWithAccuracy .binary64 s m e a).isFinite = true := by
  rw [roundWithAccuracy_eq, ofShortened]
  split_ifs <;> rfl

theorem real_of_round {x : Float} {s : Sign} {m : ℕ} {e : ℤ} {a : Accuracy}
    (hvalue : value x = stored (roundWithAccuracy .binary64 s m e a))
    (hlong : 52 ≤ m.log2 ∨ e ≤ -1074) (hfinite : Scalar.isFinite x = true) :
    real x = signed s (roundedSize m e a : ℚ) := by
  have hstored : (stored (roundWithAccuracy .binary64 s m e a)).isFinite = true := hvalue ▸ hfinite
  rw [real, hvalue, stored_of_isFinite (canonical_round s a hlong)
    (isFinite_roundWithAccuracy s m e a) hstored, number_round]

/-- The double holds a value next to the number, as far as it can hold that value. -/
def Rounded (x : Float) (r : ℝ) : Prop :=
  ∃ u : UnpackedFloat, value x = stored u ∧ Canonical u ∧ u.isFinite = true ∧
    |number u - r| ≤ roundoff * |r| + underflow

namespace Rounded

variable {x : Float} {r : ℝ}

theorem error (h : Rounded x r) (hx : Scalar.isFinite x = true) :
    |real x - r| ≤ roundoff * |r| + underflow := by
  obtain ⟨u, hvalue, hcanonical, hfinite, herror⟩ := h
  have hstored : (stored u).isFinite = true := hvalue ▸ hx
  rwa [real, hvalue, stored_of_isFinite hcanonical hfinite hstored]

/-- A number that is not too large is rounded to a number. -/
theorem isFinite (h : Rounded x r) (hsmall : |r| ≤ 2 ^ (1023 : ℤ)) : Scalar.isFinite x = true := by
  obtain ⟨u, hvalue, hcanonical, hfinite, herror⟩ := h
  change (value x).isFinite = true
  rw [hvalue]
  cases u with
  | zero s =>
    rw [stored_zero]
    rfl
  | finite s m e hm =>
    have hlt : |number (.finite s m e hm)| < 2 ^ (1024 : ℤ) := by
      have hroundoff : roundoff ≤ 1 / 4 := by
        rw [roundoff_eq]
        norm_num
      have hunderflow : underflow ≤ 2 ^ (1021 : ℤ) :=
        underflow_eq_zpow ▸ zpow_le_zpow_right₀ one_le_two (by norm_num)
      have hquarter : (2 : ℝ) ^ (1023 : ℤ) = 2 ^ (2 : ℤ) * 2 ^ (1021 : ℤ) := by
        rw [← zpow_add₀ two_ne_zero]
        rfl
      have hdouble : (2 : ℝ) ^ (1024 : ℤ) = 2 ^ (3 : ℤ) * 2 ^ (1021 : ℤ) := by
        rw [← zpow_add₀ two_ne_zero]
        rfl
      have hpower := real_zpow_pos 1021
      rw [hdouble]
      rw [hquarter] at hsmall
      generalize (2 : ℝ) ^ (1021 : ℤ) = power at hunderflow hsmall hpower ⊢
      norm_num at hsmall ⊢
      linarith [abs_sub_abs_le_abs_sub (number (.finite s m e hm)) r,
        mul_le_mul hroundoff hsmall (abs_nonneg r) (by norm_num)]
    rw [number, abs_signed, abs_of_pos (by exact_mod_cast dyadic_pos hm e)] at hlt
    have he := (exponent_le_iff hcanonical).mpr (by exact_mod_cast hlt)
    rw [stored_of_exponent_le hcanonical he]
    rfl
  | _ => cases hfinite

end Rounded

theorem rounded_real {x : Float} (h : Scalar.isFinite x = true) : Rounded x (real x) := by
  refine ⟨value x, (stored_value x).symm, canonical_value x, h, ?_⟩
  rw [← real, sub_self, abs_zero]
  exact add_nonneg (mul_nonneg roundoff_pos.le (abs_nonneg _)) underflow_pos.le

/-- What every operation comes down to: an exact magnitude and its first bits. -/
theorem rounded_of_value {x : Float} {s : Sign} {m : ℕ} {e : ℤ} {a : Accuracy} {r : ℝ}
    (hvalue : value x = stored (roundWithAccuracy .binary64 s m e a))
    (hr : Represents (.ofMantissaAndAccuracy m a) r) (hlong : 52 ≤ m.log2 ∨ e ≤ -1074) :
    Rounded x (signed s (r * 2 ^ e)) := by
  have hr0 : 0 ≤ r * 2 ^ e :=
    mul_nonneg ((Nat.cast_nonneg _).trans hr.le) (real_zpow_pos e).le
  refine ⟨_, hvalue, canonical_round s a hlong, isFinite_roundWithAccuracy s m e a, ?_⟩
  rw [number_round, signed_sub, abs_signed, abs_signed, abs_of_nonneg hr0]
  exact (abs_roundedSize_sub_le hr).trans (half_unit_le hr hlong)

theorem rounded_of_zero {x : Float} {s : Sign} (h : value x = .zero s) : Rounded x 0 := by
  have hfinite : Scalar.isFinite x = true := isFinite_of_beq_zero ((beq_zero_iff x).mpr ⟨s, h⟩)
  have hreal : real x = 0 := by
    rw [real, h]
    rfl
  exact hreal ▸ rounded_real hfinite

theorem rounded_of_round {x : Float} {s : Sign} {m : ℕ} {e : ℤ}
    (hvalue : value x = stored (UnpackedFloat.round .binary64 s m e)) :
    Rounded x (signed s (m * 2 ^ e)) := by
  obtain rfl | hm := Nat.eq_zero_or_pos m
  · rw [round_zero, stored_zero] at hvalue
    rw [Nat.cast_zero, zero_mul, signed_zero]
    exact rounded_of_zero hvalue
  · generalize hshift : (e - max (m.log2 + e - 52) (-1074)).toNat = shift
    have hround := round_eq s m e
    dsimp only at hround
    rw [hshift] at hround
    have hexact : ((m <<< shift : ℕ) : ℝ) * 2 ^ (e - shift : ℤ) = m * 2 ^ e := by
      rw [← cast_dyadic, dyadic_shift, cast_dyadic]
    rw [← hexact]
    refine rounded_of_value (hvalue.trans (congrArg stored hround)) (represents_exact _) ?_
    rw [log2_shiftLeft hm]
    omega

theorem rounded_of_normalize {x : Float} {m : ℤ} {e : ℤ} {zero : Sign}
    (hvalue : value x = stored (UnpackedFloat.normalize .binary64 m e zero)) :
    Rounded x (m * 2 ^ e) := by
  obtain hm | rfl | hm := lt_trichotomy m 0
  · obtain ⟨n, rfl⟩ := Int.exists_eq_neg_ofNat hm.le
    have hround : UnpackedFloat.normalize .binary64 (-(n : ℤ)) e zero =
        UnpackedFloat.round .binary64 .negative n e := by
      rw [UnpackedFloat.normalize, compare_lt_iff_lt.mpr hm, neg_neg]
      rfl
    rw [hround] at hvalue
    rw [Int.cast_neg, Int.cast_natCast, neg_mul]
    exact rounded_of_round hvalue
  · have hzero : UnpackedFloat.normalize .binary64 0 e zero = .zero zero := rfl
    rw [hzero, stored_zero] at hvalue
    rw [Int.cast_zero, zero_mul]
    exact rounded_of_zero hvalue
  · obtain ⟨n, rfl⟩ := Int.eq_ofNat_of_zero_le hm.le
    rw [normalize_of_pos hm, Int.toNat_natCast] at hvalue
    rw [Int.cast_natCast]
    exact rounded_of_round hvalue

/-! ### Operations -/

section

variable {x y : Float}

theorem rounded_mul (hx : Scalar.isFinite x = true) (hy : Scalar.isFinite y = true) :
    Rounded (x * y) (real x * real y) := by
  obtain ⟨s, hvx⟩ | ⟨s, m, e, hm, hvx⟩ := cases_of_isFinite hx
  · rw [real_of_zero hvx, zero_mul]
    obtain ⟨t, hvy⟩ | ⟨t, k, f, hk, hvy⟩ := cases_of_isFinite hy
    all_goals
      refine rounded_of_zero (s := s * t) ?_
      rw [value_mul, hvx, hvy]
      exact stored_zero _
  · obtain ⟨t, hvy⟩ | ⟨t, k, f, hk, hvy⟩ := cases_of_isFinite hy
    · rw [real_of_zero hvy, mul_zero]
      refine rounded_of_zero (s := s * t) ?_
      rw [value_mul, hvx, hvy]
      exact stored_zero _
    · have hexact : real x * real y = signed (s * t) ((m * k : ℕ) * 2 ^ (e + f)) := by
        rw [real_of_finite hvx, real_of_finite hvy, ← signed_mul, zpow_add₀ two_ne_zero]
        push_cast
        ring_nf
      rw [hexact]
      have hlong := log2_product (hvx ▸ canonical_value x) (hvy ▸ canonical_value y)
      refine rounded_of_value ?_ (represents_exact _) hlong
      rw [value_mul, hvx, hvy]
      rfl

theorem rounded_add (hx : Scalar.isFinite x = true) (hy : Scalar.isFinite y = true) :
    Rounded (x + y) (real x + real y) := by
  have hvalue := value_add x y
  obtain ⟨s, hvx⟩ | ⟨s, m, e, hm, hvx⟩ := cases_of_isFinite hx
  · rw [real_of_zero hvx, zero_add]
    obtain ⟨t, hvy⟩ | ⟨t, k, f, hk, hvy⟩ := cases_of_isFinite hy
    · rw [real_of_zero hvy]
      rw [hvx, hvy, UnpackedFloat.add] at hvalue
      split at hvalue
      · exact rounded_of_zero (hvalue.trans (stored_zero _))
      · exact rounded_of_zero (hvalue.trans (stored_zero _))
    · have hsum : add .binary64 (value x) (value y) = value y := by
        rw [hvx, hvy]
        rfl
      rw [hsum, stored_value] at hvalue
      rw [value_injective hvalue]
      exact rounded_real hy
  · obtain ⟨t, hvy⟩ | ⟨t, k, f, hk, hvy⟩ := cases_of_isFinite hy
    · have hsum : add .binary64 (value x) (value y) = value x := by
        rw [hvx, hvy]
        rfl
      rw [hsum, stored_value] at hvalue
      rw [real_of_zero hvy, add_zero, value_injective hvalue]
      exact rounded_real hx
    · rw [hvx, hvy] at hvalue
      simp only [UnpackedFloat.add] at hvalue
      have hleft : ((decreaseExponent m e (min e f)).1 : ℝ) * 2 ^ min e f = m * 2 ^ e := by
        rw [← cast_dyadic, dyadic_decreaseExponent (min_le_left e f), cast_dyadic]
      have hright : ((decreaseExponent k f (min e f)).1 : ℝ) * 2 ^ min e f = k * 2 ^ f := by
        rw [← cast_dyadic, dyadic_decreaseExponent (min_le_right e f), cast_dyadic]
      have hexact : real x + real y =
          ((s.apply (decreaseExponent m e (min e f)).1 +
            t.apply (decreaseExponent k f (min e f)).1 : ℤ) : ℝ) * 2 ^ min e f := by
        rw [real_of_finite hvx, real_of_finite hvy, ← hleft, ← hright, Int.cast_add, cast_apply,
          cast_apply, add_mul, signed_mul_right, signed_mul_right]
        rfl
      rw [hexact]
      exact rounded_of_normalize hvalue

theorem isFinite_neg (h : Scalar.isFinite x = true) : Scalar.isFinite (-x) = true :=
  (Scalar.LawfulSign.isFinite (Scalar.reflects_neg x)).symm.trans h

theorem rounded_sub (hx : Scalar.isFinite x = true) (hy : Scalar.isFinite y = true) :
    Rounded (x - y) (real x - real y) := by
  have hneg : real x - real y = real x + real (-y) := by
    rw [real_neg]
    ring
  rw [hneg, ← add_neg_eq]
  exact rounded_add hx (isFinite_neg hy)

theorem rounded_div (hx : Scalar.isFinite x = true) (hy : Scalar.isFinite y = true)
    (hy0 : real y ≠ 0) : Rounded (x / y) (real x / real y) := by
  obtain ⟨t, hvy⟩ | ⟨t, k, f, hk, hvy⟩ := cases_of_isFinite hy
  · exact absurd (real_of_zero hvy) hy0
  obtain ⟨s, hvx⟩ | ⟨s, m, e, hm, hvx⟩ := cases_of_isFinite hx
  · rw [real_of_zero hvx, zero_div]
    refine rounded_of_zero (s := s / t) ?_
    rw [value_div, hvx, hvy]
    exact stored_zero _
  · have hquotient : (m * 2 ^ e : ℝ) / (k * 2 ^ f) =
        (numerator m e k f : ℝ) / k * 2 ^ quotientExponent m e k f := by
      rw [← cast_dyadic, ← cast_dyadic, ← Rat.cast_div, ← quotient_eq m e hk f]
      push_cast
      rfl
    rw [real_of_finite hvx, real_of_finite hvy, ← signed_div, hquotient]
    refine rounded_of_value ?_ (represents_quotient _ hk) (log2_quotient hm hk e f)
    rw [value_div, hvx, hvy, UnpackedFloat.div, divCore_eq]

theorem represents_root (n : ℕ) :
    Represents (.ofMantissaAndAccuracy n.sqrt (accuracyOfRoot n)) √(n : ℝ) := by
  have hlow : n.sqrt * n.sqrt ≤ n := Nat.sqrt_le n
  have hhigh : n < (n.sqrt + 1) * (n.sqrt + 1) := Nat.lt_succ_sqrt n
  rw [accuracyOfRoot]
  generalize n.sqrt = r at hlow hhigh
  have hr : (0 : ℝ) ≤ r := Nat.cast_nonneg r
  split_ifs with hexact hbelow
  · obtain rfl : n = r * r := by omega
    change √((r * r : ℕ) : ℝ) = r
    rw [Nat.cast_mul, Real.sqrt_mul_self hr]
  · have hmore : ((r * r : ℕ) : ℝ) + 1 ≤ n := by exact_mod_cast (by omega : r * r + 1 ≤ n)
    have hless : (n : ℝ) ≤ (r * r + r : ℕ) := by exact_mod_cast (by omega : n ≤ r * r + r)
    push_cast at hmore hless
    change (r : ℝ) < √(n : ℝ) ∧ √(n : ℝ) < r + 1 / 2
    rw [Real.lt_sqrt hr, Real.sqrt_lt' (by linarith)]
    constructor <;> linarith
  · have hmore : ((r * r + r : ℕ) : ℝ) + 1 ≤ n := by
      exact_mod_cast (by omega : r * r + r + 1 ≤ n)
    have hless : (n : ℝ) < ((r + 1) * (r + 1) : ℕ) := by exact_mod_cast hhigh
    push_cast at hmore hless
    change (r : ℝ) + 1 / 2 < √(n : ℝ) ∧ √(n : ℝ) < r + 1
    rw [Real.lt_sqrt (by linarith), Real.sqrt_lt' (by linarith)]
    constructor <;> linarith

theorem sqrt_real {m : ℕ} {e : ℤ} {hm : 0 < m} (hx : value x = .finite .positive m e hm) :
    √(real x) = √(radicand m e : ℝ) * 2 ^ rootExponent m e := by
  have hpower := (real_zpow_pos (rootExponent m e)).le
  rw [real_of_finite hx]
  change √((m : ℝ) * 2 ^ e) = _
  rw [← cast_dyadic, ← dyadic_radicand, cast_dyadic, zpow_add₀ two_ne_zero,
    Real.sqrt_mul (Nat.cast_nonneg _), Real.sqrt_mul_self hpower]

theorem rounded_sqrt (hx : Scalar.isFinite x = true) (hpos : 0 ≤ real x) :
    Rounded x.sqrt √(real x) := by
  obtain ⟨s, hvx⟩ | ⟨s, m, e, hm, hvx⟩ := cases_of_isFinite hx
  · rw [real_of_zero hvx, Real.sqrt_zero]
    refine rounded_of_zero (s := s) ?_
    rw [value_sqrt, hvx]
    exact stored_zero s
  · have hm' : (0 : ℝ) < m * 2 ^ e := mul_pos (by exact_mod_cast hm) (real_zpow_pos e)
    obtain rfl : s = .positive := by
      cases s with
      | positive => rfl
      | negative =>
        rw [real_of_finite hvx] at hpos
        exact absurd hpos (not_le.mpr (neg_neg_of_pos hm'))
    rw [sqrt_real hvx]
    refine rounded_of_value (s := .positive) ?_ (represents_root _) (log2_root hm e)
    rw [value_sqrt, hvx, UnpackedFloat.sqrt, sqrtCore_eq]

/-- The square root of a finite double is far from the largest doubles. -/
theorem isFinite_sqrt (hx : Scalar.isFinite x = true) (hpos : 0 ≤ real x) :
    Scalar.isFinite x.sqrt = true := by
  refine (rounded_sqrt hx hpos).isFinite ?_
  rw [abs_of_nonneg (Real.sqrt_nonneg _), Real.sqrt_le_left (real_zpow_pos _).le, ← zpow_natCast,
    ← zpow_mul]
  have hle := (le_abs_self _).trans (abs_real_le_of_atMost (atMost_value hx))
  exact hle.trans (zpow_le_zpow_right₀ one_le_two (by norm_num))

end

/-! ### Cube roots -/

theorem rounded_nearest (negative : Bool) (m : ℕ) (e : ℤ) : Rounded (nearest negative m e)
    (signed (if negative then .negative else .positive) (m * 2 ^ e)) :=
  rounded_of_round rfl

/-- The whole part of a cube root, doubled, and the bit that marks what it leaves out. -/
def markedRoot (n : ℕ) : ℕ :=
  2 * floorRoot 3 n + if floorRoot 3 n * floorRoot 3 n * floorRoot 3 n = n then 0 else 1

theorem abs_markedRoot_sub_le {n : ℕ} {t : ℝ} (ht : 0 ≤ t) (hn : t ^ 3 = n) :
    |(markedRoot n : ℝ) - 2 * t| ≤ 1 := by
  obtain ⟨hlow, hhigh⟩ := floorRoot_spec three_pos n
  rw [markedRoot]
  generalize floorRoot 3 n = r at hlow hhigh
  have hlow' : (r : ℝ) ≤ t := by
    refine le_of_pow_le_pow_left₀ three_ne_zero ht ?_
    rw [hn]
    exact_mod_cast hlow
  have hhigh' : t < r + 1 := by
    refine lt_of_pow_lt_pow_left₀ 3 (by positivity) ?_
    rw [hn]
    exact_mod_cast hhigh
  split_ifs with hexact
  · have heq : t = r := by
      rw [← pow_left_inj₀ ht (Nat.cast_nonneg r) three_ne_zero, hn, ← hexact]
      push_cast
      ring
    rw [heq]
    push_cast
    norm_num
  · rw [abs_le]
    push_cast
    constructor <;> linarith

/-- Sixty bits of a root are so many that a half more or less does not matter. -/
theorem abs_sub_le_of_marked {s : Sign} {z k t : ℝ} {g : ℤ} (ht : 2 ^ 60 ≤ t) (hk : |k - 2 * t| ≤ 1)
    (hz : |z - signed s (k * 2 ^ (g - 1))| ≤ roundoff * (k * 2 ^ (g - 1)) + underflow) :
    |z - signed s (t * 2 ^ g)| ≤ 2 * roundoff * (t * 2 ^ g) + underflow := by
  have hpower := real_zpow_pos (g - 1)
  have hg : (2 : ℝ) ^ g = 2 * 2 ^ (g - 1) := by
    rw [← zpow_one_add₀ two_ne_zero]
    congr 1
    omega
  have hmarked : |signed s (k * 2 ^ (g - 1)) - signed s (t * 2 ^ g)| ≤ 2 ^ (g - 1) := by
    have hsplit : k * 2 ^ (g - 1) - t * 2 ^ g = (k - 2 * t) * 2 ^ (g - 1) := by
      rw [hg]
      ring
    rw [signed_sub, abs_signed, hsplit, abs_mul, abs_of_pos hpower]
    exact mul_le_of_le_one_left hpower.le hk
  have hk' : k * 2 ^ (g - 1) ≤ (2 * t + 1) * 2 ^ (g - 1) :=
    mul_le_mul_of_nonneg_right (by linarith [(abs_le.mp hk).2]) hpower.le
  have ht' : 2 ^ 60 * 2 ^ (g - 1) ≤ t * 2 ^ (g - 1) := mul_le_mul_of_nonneg_right ht hpower.le
  refine (abs_sub_le _ _ _).trans ((add_le_add hz hmarked).trans ?_)
  rw [roundoff_eq, hg]
  linarith

theorem cbrt_of_zero {x : Float} {s : Sign} (h : value x = .zero s) :
    cbrt x = nearest (signBit x) 0 (-65) := by
  rw [value] at h
  rw [cbrt, magnitude?, h]
  rfl

theorem cbrt_of_finite {x : Float} {s : Sign} {m : ℕ} {e : ℤ} {hm : 0 < m}
    (h : value x = .finite s m e hm) :
    ∃ (shift : ℕ) (g : ℤ), 192 ≤ shift ∧ e = g + g + g + shift ∧
      cbrt x = nearest (s == .negative) (markedRoot (m <<< shift)) (g - 1) := by
  refine ⟨192 + ((e - 192) % 3).toNat, (e - (192 + ((e - 192) % 3).toNat : ℕ)) / 3,
    Nat.le_add_right _ _, by omega, ?_⟩
  rw [← signBit_of_finite h]
  rw [value] at h
  rw [cbrt, magnitude?, h]
  rfl

theorem signed_abs_of_pow {s : Sign} {u r : ℝ} (hr : 0 < r) (hu : u ^ 3 = signed s r) :
    signed s |u| = u := by
  cases s
  · have hneg : u ^ 3 < 0 := hu ▸ neg_neg_of_pos hr
    rw [abs_of_neg ((odd_two_mul_add_one 1).pow_neg_iff.mp hneg)]
    exact neg_neg u
  · have hpos : 0 < u ^ 3 := hu ▸ hr
    exact abs_of_pos ((odd_two_mul_add_one 1).pow_pos_iff.mp hpos)

/-- The cube root is rounded once, from so many bits that the others are hardly felt. -/
theorem abs_cbrt_sub_le {x : Float} (hx : Scalar.isFinite x = true) {u : ℝ} (hu : u ^ 3 = real x) :
    |real (cbrt x) - u| ≤ 2 * roundoff * |u| + underflow := by
  have hfinite := isFinite_of_atMost (atMost_cbrt hx)
  obtain ⟨s, hvx⟩ | ⟨s, m, e, hm, hvx⟩ := cases_of_isFinite hx
  · have hround := rounded_nearest (signBit x) 0 (-65)
    rw [Nat.cast_zero, zero_mul, signed_zero, ← cbrt_of_zero hvx] at hround
    rw [real_of_zero hvx, pow_eq_zero_iff three_ne_zero] at hu
    have herror := hround.error hfinite
    rw [abs_zero, mul_zero] at herror
    rwa [hu, abs_zero, mul_zero]
  · obtain ⟨shift, g, hshift, rfl, hcbrt⟩ := cbrt_of_finite hvx
    have hpower := real_zpow_pos g
    have hm' : (0 : ℝ) < m * 2 ^ (g + g + g + shift) :=
      mul_pos (by exact_mod_cast hm) (real_zpow_pos _)
    obtain ⟨t, ht⟩ : ∃ t, |u| = t * 2 ^ g := ⟨|u| / 2 ^ g, (div_mul_cancel₀ _ hpower.ne').symm⟩
    rw [real_of_finite hvx] at hu
    have hsign := signed_abs_of_pow hm' hu
    have ht0 : 0 ≤ t := nonneg_of_mul_nonneg_left (ht ▸ abs_nonneg u) hpower
    have hcube : t ^ 3 = (m <<< shift : ℕ) := by
      have habs : |u| ^ 3 = m * 2 ^ (g + g + g + shift) := by
        rw [pow_abs, hu, abs_signed, abs_of_pos hm']
      refine mul_right_cancel₀ (pow_pos hpower 3).ne' ?_
      rw [← mul_pow, ← ht, habs, Nat.shiftLeft_eq, zpow_add₀ two_ne_zero, zpow_add₀ two_ne_zero,
        zpow_add₀ two_ne_zero, zpow_natCast]
      push_cast
      ring
    have hlow : 2 ^ 60 ≤ t := by
      refine le_of_pow_le_pow_left₀ three_ne_zero ht0 ?_
      rw [hcube, Nat.shiftLeft_eq, ← pow_mul]
      have hbits : 2 ^ (60 * 3) ≤ m * 2 ^ shift :=
        (Nat.pow_le_pow_right two_pos (by omega)).trans (Nat.le_mul_of_pos_left _ hm)
      exact_mod_cast hbits
    have herror : |real (cbrt x) - signed s (markedRoot (m <<< shift) * 2 ^ (g - 1))| ≤
        roundoff * (markedRoot (m <<< shift) * 2 ^ (g - 1)) + underflow := by
      have hround := rounded_nearest (s == .negative) (markedRoot (m <<< shift)) (g - 1)
      rw [← hcbrt] at hround
      have hnearest := hround.error hfinite
      rw [abs_signed, abs_of_nonneg (mul_nonneg (Nat.cast_nonneg _) (real_zpow_pos _).le)]
        at hnearest
      cases s <;> exact hnearest
    have hroot := abs_sub_le_of_marked hlow (abs_markedRoot_sub_le ht0 hcube) herror
    rwa [← ht, hsign] at hroot

end EllipticPlot.Binary64
