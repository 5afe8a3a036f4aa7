import EllipticPlot.Proofs.Binary64Operations

/-!
# Rounding keeps the order

A mantissa with its two extra bits tells where an exact number lies between two neighbours, as far
as rounding to the nearest needs to know. Of two exact numbers the larger one is therefore never
rounded to the smaller double, in products as well as in quotients.
-/

namespace EllipticPlot.Binary64

open Float.Model (Format UnpackedFloat totalExponent)
open Float.Model.UnpackedFloat

/-! ### What the extra bits say -/

section

variable {K : Type} [Field K] [LinearOrder K] [IsStrictOrderedRing K]

/-- The exact number `x` is the mantissa, or lies between it and the next one on the side of their
midpoint that the bits tell. -/
def Represents (em : ExtendedMantissa) (x : K) : Prop :=
  match em.accuracy with
  | .exact => x = em.mantissa
  | .inexact .lt => em.mantissa < x ∧ x < em.mantissa + 1 / 2
  | .inexact .eq => x = em.mantissa + 1 / 2
  | .inexact .gt => em.mantissa + 1 / 2 < x ∧ x < em.mantissa + 1

theorem Represents.le {em : ExtendedMantissa} {x : K} (h : Represents em x) : em.mantissa ≤ x := by
  obtain ⟨m, r, s⟩ := em
  cases r <;> cases s <;> simp only [Represents, ExtendedMantissa.accuracy] at h <;> linarith

theorem Represents.lt {em : ExtendedMantissa} {x : K} (h : Represents em x) :
    x < em.mantissa + 1 := by
  obtain ⟨m, r, s⟩ := em
  cases r <;> cases s <;> simp only [Represents, ExtendedMantissa.accuracy] at h <;> linarith

/-- A bit that is shifted out becomes the first of the two, and the others are merged. -/
theorem Represents.shiftRightOne {em : ExtendedMantissa} {x : K} (h : Represents em x) :
    Represents em.shiftRightOne (x / 2) := by
  obtain ⟨m, r, s⟩ := em
  obtain ⟨k, hk | hk⟩ := m.even_or_odd'
  · have hm : (m : K) = 2 * k := by exact_mod_cast hk
    have hhalf : m / 2 = k := by omega
    have hbit : (m % 2 != 0) = false := by simp [hk]
    cases r <;> cases s <;>
      simp only [Represents, ExtendedMantissa.accuracy, ExtendedMantissa.shiftRightOne, hhalf, hbit,
        Bool.or_false, Bool.or_true, hm] at h ⊢
    case false.false => linarith
    all_goals constructor <;> linarith
  · have hm : (m : K) = 2 * k + 1 := by exact_mod_cast hk
    have hhalf : m / 2 = k := by omega
    have hbit : (m % 2 != 0) = true := by simp [hk]
    cases r <;> cases s <;>
      simp only [Represents, ExtendedMantissa.accuracy, ExtendedMantissa.shiftRightOne, hhalf, hbit,
        Bool.or_false, Bool.or_true, hm] at h ⊢
    case false.false => linarith
    all_goals constructor <;> linarith

theorem Represents.shiftRight {em : ExtendedMantissa} {x : K} (h : Represents em x) (k : ℕ) :
    Represents (em >>> k) (x / 2 ^ k) := by
  induction k with
  | zero =>
    rw [pow_zero, div_one]
    exact h
  | succ k ih =>
    rw [pow_succ, ← div_div]
    exact ih.shiftRightOne

/-- Of two numbers the larger one is not rounded to less. -/
theorem roundedMantissa_mono {em en : ExtendedMantissa} {x y : K} (hx : Represents em x)
    (hy : Represents en y) (h : x ≤ y) : em.roundedMantissa ≤ en.roundedMantissa := by
  have hmantissa : em.mantissa ≤ en.mantissa := by
    have hlt : (em.mantissa : K) < en.mantissa + 1 := hx.le.trans_lt (h.trans_lt hy.lt)
    exact Nat.lt_succ_iff.mp (by exact_mod_cast hlt)
  obtain hlt | heq := hmantissa.lt_or_eq
  · have hlow := (roundedMantissa_bounds em).2
    have hhigh := (roundedMantissa_bounds en).1
    omega
  · -- between the same neighbours only the accuracies differ
    obtain ⟨m, r, s⟩ := em
    obtain ⟨n, r', s'⟩ := en
    obtain rfl : m = n := heq
    cases r <;> cases s <;> cases r' <;> cases s' <;>
      simp only [Represents, ExtendedMantissa.accuracy, ExtendedMantissa.roundedMantissa,
        Accuracy.roundToNearestEven] at hx hy ⊢ <;>
      first | omega | (exfalso; linarith)

omit [IsStrictOrderedRing K] in
theorem represents_exact (m : ℕ) :
    Represents (.ofMantissaAndAccuracy m .exact) (m : K) := by
  rfl

/-- The remainder of a division tells on which side of the midpoint the quotient lies. -/
theorem represents_quotient (n : ℕ) {k : ℕ} (hk : 0 < k) :
    Represents (.ofMantissaAndAccuracy (n / k) (accuracyOfFraction (n % k) k)) ((n : K) / k) := by
  have hpos : (0 : K) < k := by exact_mod_cast hk
  have hsplit : (n : K) = k * (n / k : ℕ) + (n % k : ℕ) := by
    exact_mod_cast (Nat.div_add_mod n k).symm
  have hquotient : (n : K) / k = (n / k : ℕ) + (n % k : ℕ) / k := by
    rw [div_eq_iff hpos.ne', add_mul, div_mul_cancel₀ _ hpos.ne']
    linarith
  have hrest : ((n % k : ℕ) : K) < k := by exact_mod_cast Nat.mod_lt n hk
  rw [hquotient]
  generalize n / k = q
  generalize n % k = r at hrest
  rw [accuracyOfFraction]
  split_ifs with hzero
  · rw [hzero, Nat.cast_zero, zero_div, add_zero]
    exact represents_exact q
  · have hr : (0 : K) < r := by exact_mod_cast Nat.pos_of_ne_zero hzero
    have hfraction : 0 < (r : K) / k := div_pos hr hpos
    have hone : (r : K) / k < 1 := (div_lt_one hpos).mpr hrest
    obtain hlt | heq | hgt := lt_trichotomy (2 * r) k
    · have hhalf : (r : K) / k < 1 / 2 := by
        rw [div_lt_div_iff₀ hpos two_pos]
        exact_mod_cast (by omega : r * 2 < 1 * k)
      rw [compare_lt_iff_lt.mpr hlt]
      change (q : K) < q + r / k ∧ (q : K) + r / k < q + 1 / 2
      exact ⟨by linarith, by linarith⟩
    · have hhalf : (r : K) / k = 1 / 2 := by
        rw [div_eq_div_iff hpos.ne' two_ne_zero]
        exact_mod_cast (by omega : r * 2 = 1 * k)
      rw [compare_eq_iff_eq.mpr heq]
      exact congrArg ((q : K) + ·) hhalf
    · have hhalf : 1 / 2 < (r : K) / k := by
        rw [div_lt_div_iff₀ two_pos hpos]
        exact_mod_cast (by omega : 1 * k < r * 2)
      rw [compare_gt_iff_gt.mpr hgt]
      change (q : K) + 1 / 2 < q + r / k ∧ (q : K) + r / k < q + 1
      exact ⟨by linarith, by linarith⟩

end

/-! ### Sizes of rounded numbers -/

/-- The size of the double that a mantissa is rounded to. -/
def roundedSize (m : ℕ) (e : ℤ) (a : Accuracy) : ℚ := dyadic (shortened m e a) (e + dropped m e)

/-- A number that is not too short is rounded at 53 bits, or at the least exponent. -/
theorem add_dropped {m : ℕ} {e : ℤ} (hlong : 52 ≤ m.log2 ∨ e ≤ -1074) :
    e + dropped m e = max (m.log2 + e - 52) (-1074) := by
  rw [dropped]
  omega

theorem log2_le_of_le {m k : ℕ} {e f : ℤ} {x y : ℚ} (hm : 0 < m) (hx : m ≤ x) (hy : y < k + 1)
    (h : x * 2 ^ e ≤ y * 2 ^ f) : m.log2 + e ≤ k.log2 + f := by
  have hlow : (2 : ℚ) ^ (m.log2 + e) ≤ x * 2 ^ e :=
    (two_zpow_log2_le hm e).trans (mul_le_mul_of_nonneg_right hx (two_zpow_pos e).le)
  have hpower : k + 1 ≤ 2 ^ (k.log2 + 1) := Nat.lt_log2_self
  have hhigh : y * 2 ^ f < 2 ^ (k.log2 + 1 + f) := by
    rw [two_zpow_add, mul_lt_mul_iff_left₀ (two_zpow_pos f)]
    refine hy.trans_le ?_
    exact_mod_cast hpower
  have hlt := (hlow.trans h).trans_lt hhigh
  rw [zpow_lt_zpow_iff_right₀ (by norm_num)] at hlt
  omega

theorem roundedSize_mono {m k : ℕ} {e f : ℤ} {a c : Accuracy} {x y : ℚ}
    (hx : Represents (.ofMantissaAndAccuracy m a) x)
    (hy : Represents (.ofMantissaAndAccuracy k c) y) (hm : 52 ≤ m.log2 ∨ e ≤ -1074)
    (hk : 52 ≤ k.log2 ∨ f ≤ -1074) (h : x * 2 ^ e ≤ y * 2 ^ f) :
    roundedSize m e a ≤ roundedSize k f c := by
  have hmantissa : ∀ (m : ℕ) (a : Accuracy),
      (ExtendedMantissa.ofMantissaAndAccuracy m a).mantissa = m := by
    intro m a
    obtain _ | _ | _ | _ := a <;> rfl
  have hexponent : e + dropped m e ≤ f + dropped k f := by
    rw [add_dropped hm, add_dropped hk]
    obtain rfl | hpos := Nat.eq_zero_or_pos m
    · rw [Nat.log2_zero] at hm ⊢
      omega
    · have hxm := hx.le
      have hyk := hy.lt
      rw [hmantissa] at hxm hyk
      have hlog := log2_le_of_le hpos hxm hyk h
      omega
  rw [roundedSize, roundedSize]
  obtain hlt | heq := hexponent.lt_or_eq
  · -- the larger number has 53 bits and the smaller one at most as many, at a smaller exponent
    have hlong : 2 ^ 52 ≤ shortened k f c := by
      refine le_trans ?_ (shortened_bounds k f c).1
      have hexact := add_dropped hk
      have hlow := add_dropped hm
      have hbits : k.log2 = 52 + dropped k f := by omega
      apply (Nat.le_div_iff_mul_le (Nat.two_pow_pos _)).mpr
      rw [← pow_add, ← hbits]
      apply Nat.log2_self_le
      rintro rfl
      rw [Nat.log2_zero] at hbits
      omega
    calc dyadic (shortened m e a) (e + dropped m e)
        ≤ dyadic (2 ^ 53) (e + dropped m e) := dyadic_le_dyadic.mpr (shortened_le m e a)
      _ = dyadic (2 ^ 52) (e + dropped m e + 1) := (dyadic_carry _).symm
      _ ≤ dyadic (2 ^ 52) (f + dropped k f) :=
          mul_le_mul_of_nonneg_left (two_zpow_le.mpr (by omega)) (by positivity)
      _ ≤ dyadic (shortened k f c) (f + dropped k f) := dyadic_le_dyadic.mpr hlong
  · rw [heq, dyadic_le_dyadic, shortened, shortened, shiftToTargetExponent_eq,
      shiftToTargetExponent_eq]
    apply roundedMantissa_mono (hx.shiftRight _) (hy.shiftRight _)
    have hscale : ∀ (x : ℚ) (e : ℤ) (n : ℕ), x / 2 ^ n = x * 2 ^ e / 2 ^ (e + n) := by
      intro x e n
      rw [two_zpow_add, zpow_natCast, mul_comm x, mul_div_mul_left _ _ (two_zpow_pos e).ne']
    rw [hscale x e, hscale y f, heq]
    exact div_le_div_of_nonneg_right h (two_zpow_pos _).le

theorem roundedSize_two_zpow {n : ℤ} (hn : -1074 ≤ n) :
    roundedSize (2 ^ 52) (n - 52) .exact = 2 ^ n := by
  have hlog : (2 ^ 52 : ℕ).log2 = 52 := Nat.log2_two_pow
  have hdropped : dropped (2 ^ 52) (n - 52) ≤ 52 := by
    rw [dropped, hlog]
    omega
  rw [roundedSize, shortened_of_dvd (pow_dvd_pow 2 hdropped), Nat.pow_div hdropped two_pos,
    two_zpow_eq_dyadic (e := n - 52 + dropped (2 ^ 52) (n - 52)) (by omega)]
  congr 2
  omega

/-! ### Sizes of doubles -/

/-- The magnitude of a value; what is no finite number counts as larger than all others. -/
def size : UnpackedFloat → WithTop ℚ
  | .zero _ => 0
  | .finite _ m e _ => (dyadic m e : ℚ)
  | .infinity _ | .notANumber => ⊤

theorem size_nonneg (u : UnpackedFloat) : 0 ≤ size u := by
  cases u with
  | zero s => exact le_rfl
  | finite s m e hm => exact WithTop.coe_le_coe.mpr (dyadic_pos hm e).le
  | _ => exact le_top

theorem not_size_le_zero {s t : Sign} {m : ℕ} {e : ℤ} {hm : 0 < m} :
    ¬ size (.finite s m e hm) ≤ size (.zero t) :=
  fun h => absurd (WithTop.coe_le_coe.mp h) (not_le.mpr (dyadic_pos hm e))

theorem atMost_iff_size {n : ℤ} {u : UnpackedFloat} :
    AtMost n u ↔ size u ≤ ((2 ^ n : ℚ) : WithTop ℚ) := by
  cases u with
  | zero s => exact iff_of_true trivial (WithTop.coe_le_coe.mpr (two_zpow_pos n).le)
  | finite s m e hm => exact WithTop.coe_le_coe.symm
  | _ => exact iff_of_false id (by simp [size])

theorem le_size_of_atLeast {n : ℤ} {u : UnpackedFloat} (h : AtLeast n u) :
    ((2 ^ n : ℚ) : WithTop ℚ) ≤ size u := by
  cases u with
  | infinity s => exact le_top
  | finite s m e hm => exact WithTop.coe_le_coe.mpr h
  | _ => cases h

theorem size_ofShortened (s : Sign) {r : ℕ} (hr : r ≤ 2 ^ 53) (e : ℤ) :
    size (ofShortened s r e) = (dyadic r e : ℚ) := by
  rw [ofShortened]
  split_ifs with hzero hlt
  · rw [hzero, dyadic, Nat.cast_zero, zero_mul]
    rfl
  · rfl
  · obtain rfl : r = 2 ^ 53 := by omega
    rw [← dyadic_carry]
    rfl

theorem size_round (s : Sign) (m : ℕ) (e : ℤ) (a : Accuracy) :
    size (roundWithAccuracy .binary64 s m e a) = (roundedSize m e a : ℚ) := by
  rw [roundWithAccuracy_eq, size_ofShortened s (shortened_le m e a), roundedSize]

/-- A canonical value fits into a double exactly if it is below `2 ^ 1024`. -/
theorem exponent_le_iff {s : Sign} {m : ℕ} {e : ℤ} {hm : 0 < m}
    (hcanonical : Canonical (.finite s m e hm)) : e ≤ 971 ↔ dyadic m e < 2 ^ (1024 : ℤ) := by
  obtain ⟨hm53, -, hlong⟩ := hcanonical
  constructor
  · intro he
    have hlog : m.log2 < 53 := (Nat.log2_lt hm.ne').mpr hm53
    exact (dyadic_lt_two_zpow_log2 m e).trans_le (two_zpow_le.mpr (by omega))
  · intro hlt
    by_contra he
    have hbits : 52 ≤ m.log2 := (Nat.le_log2 hm.ne').mpr (hlong.resolve_right (by omega))
    have hle : (2 : ℚ) ^ (1024 : ℤ) ≤ dyadic m e :=
      (two_zpow_le.mpr (by omega)).trans (two_zpow_log2_le hm e)
    exact absurd hlt (not_lt.mpr hle)

theorem size_stored_mono {u v : UnpackedFloat} (hu : Canonical u) (hv : Canonical v)
    (h : size u ≤ size v) : size (stored u) ≤ size (stored v) := by
  cases v with
  | infinity t =>
    rw [stored_infinity]
    exact le_top
  | notANumber =>
    rw [stored_notANumber]
    exact le_top
  | zero t =>
    cases u with
    | zero s =>
      rw [stored_zero, stored_zero]
      exact h
    | finite s m e hm =>
      exact absurd h not_size_le_zero
    | _ => cases h
  | finite t k f hk =>
    by_cases hf : f ≤ 971
    · rw [stored_of_exponent_le hv hf]
      cases u with
      | zero s => rwa [stored_zero]
      | finite s m e hm =>
        have hle : dyadic m e ≤ dyadic k f := WithTop.coe_le_coe.mp h
        have he := (exponent_le_iff hu).mpr (hle.trans_lt ((exponent_le_iff hv).mp hf))
        rwa [stored_of_exponent_le hu he]
      | _ => cases h
    · rw [stored_of_lt_exponent (by omega)]
      exact le_top

/-! ### Products and quotients keep the order -/

theorem size_mul_of_left {u : UnpackedFloat} (h : size u = ⊤) (v : UnpackedFloat) :
    size (mul .binary64 u v) = ⊤ := by
  cases u with
  | infinity s => cases v <;> rfl
  | notANumber => rfl
  | _ => cases h

theorem size_mul_of_right (u : UnpackedFloat) {v : UnpackedFloat} (h : size v = ⊤) :
    size (mul .binary64 u v) = ⊤ := by
  cases v with
  | infinity s => cases u <;> rfl
  | notANumber => cases u <;> rfl
  | _ => cases h

/-- Larger factors do not give a smaller product. -/
theorem size_mul_mono {u u' v v' : UnpackedFloat} (hu : Canonical u) (hu' : Canonical u')
    (hv : Canonical v) (hv' : Canonical v') (hleft : size u ≤ size u')
    (hright : size v ≤ size v') : size (mul .binary64 u v) ≤ size (mul .binary64 u' v') := by
  by_cases hleft' : size u' = ⊤
  · rw [size_mul_of_left hleft']
    exact le_top
  by_cases hright' : size v' = ⊤
  · rw [size_mul_of_right u' hright']
    exact le_top
  cases u with
  | zero s =>
    cases v with
    | zero t | finite t k f hk => exact size_nonneg _
    | _ => exact absurd (top_le_iff.mp hright) hright'
  | finite s m e hm =>
    cases v with
    | zero t => exact size_nonneg _
    | finite t k f hk =>
      cases u' with
      | zero s' => exact absurd hleft not_size_le_zero
      | finite s' m' e' hm' =>
        cases v' with
        | zero t' => exact absurd hright not_size_le_zero
        | finite t' k' f' hk' =>
          rw [UnpackedFloat.mul, UnpackedFloat.mul, size_round, size_round, WithTop.coe_le_coe]
          refine roundedSize_mono (represents_exact _) (represents_exact _) (log2_product hu hv)
            (log2_product hu' hv') ?_
          change dyadic (m * k) (e + f) ≤ dyadic (m' * k') (e' + f')
          rw [dyadic_mul, dyadic_mul]
          exact mul_le_mul (WithTop.coe_le_coe.mp hleft) (WithTop.coe_le_coe.mp hright)
            (dyadic_pos hk f).le (dyadic_pos hm' e').le
        | _ => exact absurd rfl hright'
      | _ => exact absurd rfl hleft'
    | _ => exact absurd (top_le_iff.mp hright) hright'
  | _ => exact absurd (top_le_iff.mp hleft) hleft'

theorem quotient_eq (m : ℕ) (e : ℤ) {k : ℕ} (hk : 0 < k) (f : ℤ) :
    (numerator m e k f : ℚ) / k * 2 ^ quotientExponent m e k f = dyadic m e / dyadic k f := by
  have hk' : (k : ℚ) ≠ 0 := by exact_mod_cast hk.ne'
  have hf := (two_zpow_pos f).ne'
  rw [eq_div_iff (dyadic_pos hk f).ne', ← dyadic_numerator m e k f, dyadic, dyadic, two_zpow_add]
  field_simp

/-- A product with a number that is at most the reciprocal of `d` is not larger than the quotient
by `d`. -/
theorem size_mul_le_div {t d s : Sign} {r k m : ℕ} {c f e : ℤ} {hr : 0 < r} {hk : 0 < k}
    {hm : 0 < m} (hu : Canonical (.finite t r c hr)) (hv : Canonical (.finite s m e hm))
    (h : dyadic r c * dyadic k f ≤ 1) :
    size (mul .binary64 (.finite t r c hr) (.finite s m e hm)) ≤
      size (div .binary64 (.finite s m e hm) (.finite d k f hk)) := by
  rw [UnpackedFloat.mul, UnpackedFloat.div, divCore_eq, size_round, size_round, WithTop.coe_le_coe]
  refine roundedSize_mono (represents_exact _) (represents_quotient _ hk) (log2_product hu hv)
    (log2_quotient hm hk e f) ?_
  rw [quotient_eq m e hk f]
  change dyadic (r * m) (c + e) ≤ _
  rw [dyadic_mul, le_div_iff₀ (dyadic_pos hk f)]
  calc dyadic r c * dyadic m e * dyadic k f = dyadic r c * dyadic k f * dyadic m e := by ring
    _ ≤ 1 * dyadic m e := mul_le_mul_of_nonneg_right h (dyadic_pos hm e).le
    _ = dyadic m e := one_mul _

theorem AtMost.div {i j : ℤ} {u v : UnpackedFloat} (hu : AtMost i u) (hv : AtLeast j v)
    (hlow : -1074 ≤ i - j) : AtMost (i - j) (UnpackedFloat.div .binary64 u v) := by
  cases u with
  | zero s =>
    cases v with
    | infinity t | finite t k f hk => trivial
    | _ => cases hv
  | finite s m e hm =>
    cases v with
    | infinity t => trivial
    | finite t k f hk =>
      rw [UnpackedFloat.div, divCore_eq, atMost_iff_size, size_round, WithTop.coe_le_coe,
        ← roundedSize_two_zpow hlow]
      refine roundedSize_mono (represents_quotient _ hk) (represents_exact _)
        (log2_quotient hm hk e f) (.inl Nat.log2_two_pow.ge) ?_
      rw [quotient_eq m e hk f, div_le_iff₀ (dyadic_pos hk f)]
      change dyadic m e ≤ dyadic (2 ^ 52) (i - j - 52) * dyadic k f
      calc dyadic m e ≤ 2 ^ i := hu
        _ = 2 ^ (i - j) * 2 ^ j := by
          rw [← two_zpow_add]
          congr 1
          omega
        _ ≤ 2 ^ (i - j) * dyadic k f := mul_le_mul_of_nonneg_left hv (two_zpow_pos _).le
        _ = dyadic (2 ^ 52) (i - j - 52) * dyadic k f := by
          rw [two_zpow_eq_dyadic (by omega : i - j - 52 ≤ i - j)]
          congr 3
          omega
    | _ => cases hv
  | _ => cases hu

theorem atMost_div {i j : ℤ} {x y : Float} (hx : AtMost i (value x)) (hy : AtLeast j (value y))
    (hlow : -1074 ≤ i - j) (hhigh : i - j ≤ 1023) : AtMost (i - j) (value (x / y)) :=
  atMost_stored (canonical_div _ _) hhigh (hx.div hy hlow)

theorem size_mul_le {x x' y y' : Float} (hx : size (value x) ≤ size (value x'))
    (hy : size (value y) ≤ size (value y')) : size (value (x * y)) ≤ size (value (x' * y')) := by
  have hcanonical := canonical_value
  rw [value_mul, value_mul]
  exact size_stored_mono (canonical_mul (hcanonical x) (hcanonical y))
    (canonical_mul (hcanonical x') (hcanonical y'))
    (size_mul_mono (hcanonical x) (hcanonical x') (hcanonical y) (hcanonical y') hx hy)

theorem size_cube_le {x y : Float} (h : size (value x) ≤ size (value y)) :
    size (value (Scalar.cube x)) ≤ size (value (Scalar.cube y)) :=
  size_mul_le (size_mul_le h h) h

end EllipticPlot.Binary64
