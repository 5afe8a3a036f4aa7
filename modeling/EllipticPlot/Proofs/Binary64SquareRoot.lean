import EllipticPlot.Proofs.Binary64Accuracy

/-!
# Square roots of squares

The square of a double has twice as many bits and is rounded, yet the square root of what is left is
the double again: the rounding moves the root by less than half a unit in the last place.
-/

namespace EllipticPlot.Binary64

open Float.Model (UnpackedFloat)
open Float.Model.UnpackedFloat

/-- The bits of a number between two powers of two. -/
theorem log2_add_eq {n : ℕ} {f k : ℤ} {y : ℝ} (hn : 0 < n) (hlow : n ≤ y) (hhigh : y < n + 1)
    (hk : 2 ^ k ≤ y * 2 ^ f) (hk' : y * 2 ^ f < 2 ^ (k + 1)) : (n.log2 : ℤ) + f = k := by
  have hpow : (2 : ℝ) ^ n.log2 ≤ y := le_trans (by exact_mod_cast Nat.log2_self_le hn.ne') hlow
  have hpow' : y < (2 : ℝ) ^ (n.log2 + 1) := by
    refine hhigh.trans_le ?_
    exact_mod_cast (Nat.lt_log2_self : n < 2 ^ (n.log2 + 1))
  have hleft : (2 : ℝ) ^ ((n.log2 : ℤ) + f) < 2 ^ (k + 1) := by
    refine lt_of_le_of_lt ?_ hk'
    rw [zpow_add₀ two_ne_zero, zpow_natCast]
    exact mul_le_mul_of_nonneg_right hpow (real_zpow_pos f).le
  have hright : (2 : ℝ) ^ k < 2 ^ ((n.log2 : ℤ) + 1 + f) := by
    refine hk.trans_lt ?_
    rw [zpow_add₀ two_ne_zero ((n.log2 : ℤ) + 1), ← Nat.cast_succ, zpow_natCast]
    exact mul_lt_mul_of_pos_right hpow' (real_zpow_pos f)
  rw [zpow_lt_zpow_iff_right₀ one_lt_two] at hleft hright
  omega

/-- The square root of a rounded square is off by less than half a unit of the number squared. -/
theorem abs_sqrt_sub_lt {s h u : ℝ} (hu : 0 < u) (hs : 2 ^ 52 * u ≤ √s) (hs0 : 0 ≤ s)
    (hh : 2 ^ 52 * u ≤ h) (hsquare : |s - h * h| ≤ 2 ^ 51 * (u * u) ∨
      |s - h * h| ≤ 2 ^ 52 * (u * u) ∧ 2 ^ 105 * (u * u) ≤ h * h) : |√s - h| < u / 2 := by
  have hfactor : s - h * h = (√s - h) * (√s + h) := by linarith [Real.mul_self_sqrt hs0]
  have hsum : 2 ^ 53 * u ≤ √s + h := by linarith
  have hpos : 0 < √s + h := lt_of_lt_of_le (by positivity) hsum
  rw [hfactor, abs_mul, abs_of_pos hpos] at hsquare
  by_contra hle
  have hmul := mul_le_mul_of_nonneg_right (not_lt.mp hle) hpos.le
  obtain hsquare | ⟨hsquare, hlarge⟩ := hsquare
  · have hless := mul_le_mul_of_nonneg_left hsum hu.le
    linarith [mul_pos hu hu]
  · have hupper : √s + h ≤ 2 ^ 53 * u := by
      refine le_of_mul_le_mul_left ?_ hu
      linarith
    have hh' : h ≤ 2 ^ 52 * u := by linarith
    have hproduct := mul_le_mul hh' hh' (by linarith [mul_pos hu hu] : (0:ℝ) ≤ h) (by positivity)
    linarith [mul_pos hu hu]

theorem log2_mul_self {m : ℕ} (hlong : 2 ^ 52 ≤ m) (hm53 : m < 2 ^ 53) :
    (m * m).log2 = 104 ∨ (m * m).log2 = 105 := by
  have hpos : m * m ≠ 0 := by positivity
  have hlow : 2 ^ 52 * 2 ^ 52 ≤ m * m := Nat.mul_le_mul hlong hlong
  have hhigh : m * m < 2 ^ 53 * 2 ^ 53 := Nat.mul_lt_mul'' hm53 hm53
  rw [← pow_add] at hlow hhigh
  rw [← Nat.le_log2 hpos] at hlow
  rw [← Nat.log2_lt hpos] at hhigh
  omega

theorem real_mul_self {x : Float} {s : Sign} {m : ℕ} {e : ℤ} {hm : 0 < m}
    (hx : value x = .finite s m e hm) (hlong : 52 ≤ (m * m).log2)
    (hfinite : Scalar.isFinite (x * x) = true) :
    real (x * x) = roundedSize (m * m) (e + e) .exact := by
  have hvalue : value (x * x) =
      stored (roundWithAccuracy .binary64 .positive (m * m) (e + e) .exact) := by
    have hsign : s * s = .positive := by cases s <;> rfl
    rw [value_mul, hx, ← hsign]
    rfl
  exact real_of_round hvalue (.inl hlong) hfinite

/-- The square of a normal number, with its unit in the last place. -/
theorem abs_mul_self_sub_le {x : Float} {s : Sign} {m : ℕ} {e : ℤ} {hm : 0 < m}
    (hx : value x = .finite s m e hm) (hlong : 2 ^ 52 ≤ m) (he : -560 ≤ e)
    (hfinite : Scalar.isFinite (x * x) = true) :
    let h : ℝ := m * 2 ^ e
    |real (x * x) - h * h| ≤ 2 ^ 51 * (2 ^ e * 2 ^ e) ∨
      |real (x * x) - h * h| ≤ 2 ^ 52 * (2 ^ e * 2 ^ e) ∧ 2 ^ 105 * (2 ^ e * 2 ^ e) ≤ h * h := by
  have hlog2 := log2_mul_self hlong (value_bounds hx).1
  have herror := abs_roundedSize_sub_le (represents_exact (K := ℝ) (m * m)) (e := e + e)
  rw [← real_mul_self hx (by omega) hfinite, add_dropped (.inl (by omega)),
    max_eq_left (by omega), half_zpow] at herror
  have hscale : ((m * m : ℕ) : ℝ) * 2 ^ (e + e) = (m * 2 ^ e) * (m * 2 ^ e) := by
    rw [zpow_add₀ two_ne_zero]
    push_cast
    ring
  rw [hscale] at herror
  dsimp only
  have hunit : ∀ k : ℕ, (2 : ℝ) ^ ((k : ℤ) + (e + e)) = 2 ^ k * (2 ^ e * 2 ^ e) := fun k => by
    rw [zpow_add₀ two_ne_zero, zpow_add₀ two_ne_zero, zpow_natCast]
  obtain h | h := hlog2
  · left
    rw [h] at herror
    refine herror.trans_eq ?_
    rw [← hunit 51]
    congr 1
    push_cast
    omega
  · right
    rw [h] at herror
    refine ⟨herror.trans_eq ?_, ?_⟩
    · rw [← hunit 52]
      congr 1
      push_cast
      omega
    · rw [← hscale, zpow_add₀ two_ne_zero]
      refine mul_le_mul_of_nonneg_right ?_ (mul_pos (real_zpow_pos e) (real_zpow_pos e)).le
      exact_mod_cast h ▸ Nat.log2_self_le (by positivity : m * m ≠ 0)

theorem real_nonneg_of_value {y : Float} {M : ℕ} {E : ℤ} {hM : 0 < M}
    (hy : value y = .finite .positive M E hM) : 0 ≤ real y := by
  rw [real_of_finite hy]
  exact mul_nonneg (Nat.cast_nonneg M) (real_zpow_pos E).le

/-- The square root is taken with two bits more than the number next to it has. -/
theorem log2_root_add {y : Float} {M m : ℕ} {E e : ℤ} {hM : 0 < M}
    (hy : value y = .finite .positive M E hM) (hm : m < 2 ^ 53)
    (hlow : 2 ^ 52 * 2 ^ e ≤ √(real y)) (hnear : |√(real y) - m * 2 ^ e| < 2 ^ e / 2) :
    ((radicand M E).sqrt.log2 : ℤ) + rootExponent M E = 52 + e := by
  have hradicand : radicand M E ≠ 0 := by
    rw [radicand, Nat.shiftLeft_eq]
    positivity
  have hroot : 0 < (radicand M E).sqrt := Nat.sqrt_pos.mpr (Nat.pos_of_ne_zero hradicand)
  have hm' : (m : ℝ) ≤ 2 ^ 53 - 1 := by
    rw [le_sub_iff_add_le]
    exact_mod_cast hm
  refine log2_add_eq hroot Real.nat_sqrt_le_real_sqrt Real.real_sqrt_lt_nat_sqrt_succ ?_ ?_
  · rw [← sqrt_real hy, zpow_add₀ two_ne_zero]
    exact hlow
  · rw [← sqrt_real hy, add_right_comm, zpow_add₀ two_ne_zero]
    norm_num
    linarith [(abs_lt.mp hnear).2, mul_le_mul_of_nonneg_right hm' (real_zpow_pos e).le]

/-- Two multiples of a unit that are closer than a unit are equal. -/
theorem eq_of_abs_sub_lt {k m : ℕ} {r u : ℝ} (hu : 0 < u) (hk : |k * u - r| ≤ u / 2)
    (hm : |r - m * u| < u / 2) : k = m := by
  have hlt : |(k : ℝ) - m| < 1 := by
    refine lt_of_mul_lt_mul_right ?_ hu.le
    have hscale : |(k : ℝ) - m| * u = |k * u - r + (r - m * u)| := by
      rw [← abs_of_pos hu, ← abs_mul, abs_of_pos hu]
      ring_nf
    rw [hscale]
    linarith [abs_add_le (k * u - r) (r - m * u)]
  have hlt' : |((k : ℤ) - m)| < 1 := by exact_mod_cast hlt
  rw [Int.abs_lt_one_iff] at hlt'
  omega

/-- A double that is closer to the square root than half a unit is what the root is rounded to. -/
theorem real_sqrt_of_abs_sub_lt {y : Float} {M m : ℕ} {E e : ℤ} {hM : 0 < M}
    (hy : value y = .finite .positive M E hM) (hm : m < 2 ^ 53) (he : -1074 ≤ e)
    (hlow : 2 ^ 52 * 2 ^ e ≤ √(real y)) (hnear : |√(real y) - m * 2 ^ e| < 2 ^ e / 2) :
    real y.sqrt = m * 2 ^ e := by
  have hsqrt := isFinite_sqrt (isFinite_of_value hy) (real_nonneg_of_value hy)
  have hvalue : value y.sqrt = stored (roundWithAccuracy .binary64 .positive (radicand M E).sqrt
      (rootExponent M E) (accuracyOfRoot (radicand M E))) := by
    rw [value_sqrt, hy, UnpackedFloat.sqrt, sqrtCore_eq]
  have hlong := log2_root hM E
  have hreal := real_of_round hvalue hlong hsqrt
  have herror := abs_roundedSize_sub_le (represents_root (radicand M E)) (e := rootExponent M E)
  have hlog := log2_root_add hy hm hlow hnear
  have hunit : rootExponent M E + dropped (radicand M E).sqrt (rootExponent M E) = e := by
    rw [add_dropped hlong, hlog]
    omega
  rw [roundedSize, cast_dyadic, hunit] at hreal
  rw [roundedSize, cast_dyadic, hunit, ← sqrt_real hy] at herror
  generalize
    shortened (radicand M E).sqrt (rootExponent M E) (accuracyOfRoot (radicand M E)) = k at *
  obtain rfl : k = m := eq_of_abs_sub_lt (real_zpow_pos e) herror hnear
  exact hreal

/-- The square root of the square of a number that is not too small is exact. -/
theorem real_sqrt_mul_self {x : Float} (hx : Scalar.isFinite x = true)
    (hlarge : AtLeast (-500) (value x)) (hfinite : Scalar.isFinite (x * x) = true) :
    real (x * x).sqrt = |real x| := by
  obtain ⟨s, hvx⟩ | ⟨s, m, e, hm, hvx⟩ := cases_of_isFinite hx
  · rw [hvx] at hlarge
    cases hlarge
  have hcanonical : Canonical (.finite s m e hm) := hvx ▸ canonical_value x
  obtain ⟨hm53, -, hlong⟩ := hcanonical
  have he : -560 ≤ e := by
    rw [hvx] at hlarge
    have hlog := le_log2_of_le_dyadic hlarge
    have hbits : m.log2 < 53 := (Nat.log2_lt hm.ne').mpr hm53
    omega
  have hlong : 2 ^ 52 ≤ m := hlong.resolve_right (by omega)
  have hu := real_zpow_pos e
  have hsquare := abs_mul_self_sub_le hvx hlong he hfinite
  dsimp only at hsquare
  have hunit : (2 : ℝ) ^ (52 + e) = 2 ^ 52 * 2 ^ e := by
    rw [zpow_add₀ two_ne_zero]
    norm_num
  have hself : AtLeast (52 + e) (value x) := by
    have hbits : (52 + e - e).toNat = 52 := by omega
    rw [hvx]
    change (2 : ℚ) ^ (52 + e) ≤ dyadic m e
    rwa [two_zpow_eq_dyadic (by omega : e ≤ 52 + e), hbits, dyadic_le_dyadic]
  have hle := le_abs_real_of_atLeast hfinite (atLeast_mul hself hself (by omega))
  obtain ⟨t, hvy⟩ | ⟨t, M, E, hM, hvy⟩ := cases_of_isFinite hfinite
  · rw [real_of_zero hvy, abs_zero] at hle
    exact absurd hle (not_le.mpr (real_zpow_pos _))
  obtain rfl : t = .positive := by
    have hpos := isPositive_mul_self hx
    rw [hvy] at hpos
    cases hpos
    rfl
  have hs0 := real_nonneg_of_value hvy
  have hlow : 2 ^ 52 * 2 ^ e ≤ √(real (x * x)) := by
    refine Real.le_sqrt_of_sq_le ?_
    rw [abs_of_nonneg hs0, zpow_add₀ two_ne_zero, hunit] at hle
    rwa [sq]
  have hh : 2 ^ 52 * 2 ^ e ≤ (m : ℝ) * 2 ^ e :=
    mul_le_mul_of_nonneg_right (by exact_mod_cast hlong) hu.le
  rw [real_of_finite hvx, abs_signed, abs_of_nonneg (mul_nonneg (Nat.cast_nonneg m) hu.le)]
  exact real_sqrt_of_abs_sub_lt hvy hm53 (by omega) hlow (abs_sqrt_sub_lt hu hlow hs0 hh hsquare)

end EllipticPlot.Binary64
