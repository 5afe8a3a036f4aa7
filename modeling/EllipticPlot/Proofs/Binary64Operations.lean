import EllipticPlot.Proofs.Binary64Bounds

/-!
# Magnitudes of results

How large the result of an operation on doubles can be, and how small, by the magnitudes that go in.
-/

namespace EllipticPlot.Binary64

open Float.Model (Format UnpackedFloat totalExponent)
open Float.Model.UnpackedFloat

/-! ### Products -/

theorem log2_add_log2_le {m k : ℕ} (hm : 0 < m) (hk : 0 < k) :
    m.log2 + k.log2 ≤ (m * k).log2 := by
  apply (Nat.le_log2 (Nat.mul_pos hm hk).ne').mpr
  rw [pow_add]
  exact Nat.mul_le_mul (Nat.log2_self_le hm.ne') (Nat.log2_self_le hk.ne')

/-- A product of doubles has all bits of a double, or the least exponent. -/
theorem log2_product {s t : Sign} {m k : ℕ} {e f : ℤ} {hm : 0 < m} {hk : 0 < k}
    (hu : Canonical (.finite s m e hm)) (hv : Canonical (.finite t k f hk)) :
    52 ≤ (m * k).log2 ∨ e + f ≤ -1074 := by
  have hlog := log2_add_log2_le hm hk
  obtain ⟨-, -, hlong | rfl⟩ := hu
  · have hbits : 52 ≤ m.log2 := (Nat.le_log2 hm.ne').mpr hlong
    omega
  · obtain ⟨-, -, hlong | rfl⟩ := hv
    · have hbits : 52 ≤ k.log2 := (Nat.le_log2 hk.ne').mpr hlong
      omega
    · omega

theorem canonical_mul {u v : UnpackedFloat} (hu : Canonical u) (hv : Canonical v) :
    Canonical (mul .binary64 u v) := by
  cases u with
  | finite s m e hm =>
    cases v with
    | finite t k f hk => exact canonical_round _ _ (log2_product hu hv)
    | _ => trivial
  | _ => cases v <;> trivial

theorem AtMost.mul {i j : ℤ} {u v : UnpackedFloat} (hu : AtMost i u) (hv : AtMost j v)
    (hlow : -1074 ≤ i + j) : AtMost (i + j) (UnpackedFloat.mul .binary64 u v) := by
  cases u with
  | zero s =>
    cases v with
    | zero t => trivial
    | finite t k f hk => trivial
    | _ => cases hv
  | finite s m e hm =>
    cases v with
    | zero t => trivial
    | finite t k f hk =>
      refine atMost_round (s * t) (Nat.mul_pos hm hk) hlow (.inr ⟨rfl, ?_⟩)
      rw [dyadic_mul, two_zpow_add]
      exact mul_le_mul hu hv (by rw [dyadic]; positivity) (two_zpow_pos i).le
    | _ => cases hv
  | _ => cases hu

theorem AtLeast.mul {i j : ℤ} {u v : UnpackedFloat} (hu : AtLeast i u) (hv : AtLeast j v)
    (hlow : -1074 ≤ i + j) : AtLeast (i + j) (UnpackedFloat.mul .binary64 u v) := by
  cases u with
  | infinity s =>
    cases v with
    | infinity t => trivial
    | finite t k f hk => trivial
    | _ => cases hv
  | finite s m e hm =>
    cases v with
    | infinity t => trivial
    | finite t k f hk =>
      refine atLeast_round (s * t) .exact hlow ?_
      rw [dyadic_mul, two_zpow_add]
      exact mul_le_mul hu hv (two_zpow_pos j).le (by rw [dyadic]; positivity)
    | _ => cases hv
  | _ => cases hu

theorem atMost_mul {i j : ℤ} {x y : Float} (hx : AtMost i (value x)) (hy : AtMost j (value y))
    (hlow : -1074 ≤ i + j) (hhigh : i + j ≤ 1023) : AtMost (i + j) (value (x * y)) :=
  atMost_stored (canonical_mul (canonical_value x) (canonical_value y)) hhigh (hx.mul hy hlow)

theorem atLeast_mul {i j : ℤ} {x y : Float} (hx : AtLeast i (value x)) (hy : AtLeast j (value y))
    (hlow : -1074 ≤ i + j) : AtLeast (i + j) (value (x * y)) :=
  atLeast_stored (canonical_mul (canonical_value x) (canonical_value y)) (hx.mul hy hlow)

/-! ### Sums -/

theorem round_eq (s : Sign) (m : ℕ) (e : ℤ) :
    let shift := (e - max (m.log2 + e - 52) (-1074)).toNat
    UnpackedFloat.round .binary64 s m e =
      roundWithAccuracy .binary64 s (m <<< shift) (e - shift) .exact := by
  intro shift
  rw [UnpackedFloat.round, targetExponent_eq]
  rfl

theorem log2_shiftLeft {m : ℕ} (hm : 0 < m) (k : ℕ) : (m <<< k).log2 = m.log2 + k := by
  rw [Nat.shiftLeft_eq]
  apply (Nat.log2_eq_iff (Nat.mul_pos hm (Nat.two_pow_pos k)).ne').mpr
  have hlog := (Nat.log2_eq_iff hm.ne').mp rfl
  constructor
  · rw [pow_add]
    exact Nat.mul_le_mul_right _ hlog.1
  · rw [Nat.add_right_comm, pow_add]
    exact (Nat.mul_lt_mul_right (Nat.two_pow_pos k)).mpr hlog.2

theorem round_zero (s : Sign) (e : ℤ) : UnpackedFloat.round .binary64 s 0 e = .zero s := by
  rw [round_eq, Nat.zero_shiftLeft, roundWithAccuracy_eq, shortened_of_dvd (dvd_zero _),
    Nat.zero_div]
  rfl

theorem canonical_round_exact (s : Sign) (m : ℕ) (e : ℤ) :
    Canonical (UnpackedFloat.round .binary64 s m e) := by
  obtain rfl | hm := Nat.eq_zero_or_pos m
  · rw [round_zero]
    trivial
  · rw [round_eq]
    apply canonical_round
    rw [log2_shiftLeft hm]
    omega

theorem atMost_round_exact {n : ℤ} (s : Sign) {m : ℕ} {e : ℤ} (hn : -1074 ≤ n)
    (h : dyadic m e ≤ 2 ^ n) : AtMost n (UnpackedFloat.round .binary64 s m e) := by
  obtain rfl | hm := Nat.eq_zero_or_pos m
  · rw [round_zero]
    trivial
  · rw [round_eq]
    refine atMost_round s ?_ hn (.inr ⟨rfl, ?_⟩)
    · rw [Nat.shiftLeft_eq]
      exact Nat.mul_pos hm (Nat.two_pow_pos _)
    · rwa [dyadic_shift]

theorem atLeast_round_exact {n : ℤ} (s : Sign) {m : ℕ} {e : ℤ} (hn : -1074 ≤ n)
    (h : 2 ^ n ≤ dyadic m e) : AtLeast n (UnpackedFloat.round .binary64 s m e) := by
  rw [round_eq]
  apply atLeast_round s .exact hn
  rwa [dyadic_shift]

theorem normalize_of_pos {m : ℤ} (hm : 0 < m) (e : ℤ) (zero : Sign) :
    UnpackedFloat.normalize .binary64 m e zero =
      UnpackedFloat.round .binary64 .positive m.toNat e := by
  rw [UnpackedFloat.normalize, compare_gt_iff_gt.mpr hm]

theorem normalize_cases (m : ℤ) (e : ℤ) (zero : Sign) :
    UnpackedFloat.normalize .binary64 m e zero = .zero zero ∨
      ∃ s, UnpackedFloat.normalize .binary64 m e zero =
        UnpackedFloat.round .binary64 s m.natAbs e := by
  unfold UnpackedFloat.normalize
  obtain hm | rfl | hm := lt_trichotomy m 0
  · right
    have hsize : (-m).toNat = m.natAbs := by omega
    rw [compare_lt_iff_lt.mpr hm]
    exact ⟨.negative, by rw [hsize]⟩
  · exact .inl rfl
  · right
    have hsize : m.toNat = m.natAbs := by omega
    rw [compare_gt_iff_gt.mpr hm]
    exact ⟨.positive, by rw [hsize]⟩

theorem canonical_add {u v : UnpackedFloat} (hu : Canonical u) (hv : Canonical v) :
    Canonical (add .binary64 u v) := by
  cases u with
  | finite s m e hm =>
    cases v with
    | finite t k f hk =>
      simp only [UnpackedFloat.add]
      obtain hzero | ⟨r, hround⟩ := normalize_cases
        (s.apply (decreaseExponent m e (min e f)).1 + t.apply (decreaseExponent k f (min e f)).1)
        (min e f) .positive
      · rw [hzero]
        trivial
      · rw [hround]
        exact canonical_round_exact r _ _
    | zero t => exact hu
    | _ => trivial
  | zero s =>
    cases v with
    | finite t k f hk => exact hv
    | zero t =>
      change Canonical (if s == t then .zero s else .zero .positive)
      split <;> trivial
    | _ => trivial
  | infinity s =>
    cases v with
    | infinity t =>
      change Canonical (if s == t then .infinity s else .notANumber)
      split <;> trivial
    | _ => trivial
  | notANumber => trivial

theorem dyadic_decreaseExponent {m : ℕ} {e target : ℤ} (h : target ≤ e) :
    dyadic (decreaseExponent m e target).1 target = dyadic m e := by
  rw [← dyadic_shift m (e - target).toNat e]
  change dyadic (m <<< (e - target).toNat) target = _
  congr 1
  omega

theorem AtMost.add {n : ℤ} {u v : UnpackedFloat} (hu : AtMost n u) (hv : AtMost n v)
    (hlow : -1075 ≤ n) : AtMost (n + 1) (UnpackedFloat.add .binary64 u v) := by
  cases u with
  | zero s =>
    cases v with
    | zero t =>
      change AtMost _ (if s == t then .zero s else .zero .positive)
      split <;> trivial
    | finite t k f hk => exact hv.mono (by omega)
    | _ => cases hv
  | finite s m e hm =>
    cases v with
    | zero t => exact hu.mono (by omega)
    | finite t k f hk =>
      simp only [UnpackedFloat.add]
      have hleft := dyadic_decreaseExponent (m := m) (min_le_left e f)
      have hright := dyadic_decreaseExponent (m := k) (min_le_right e f)
      generalize (decreaseExponent m e (min e f)).1 = m' at hleft ⊢
      generalize (decreaseExponent k f (min e f)).1 = k' at hright ⊢
      obtain hzero | ⟨r, hround⟩ := normalize_cases
        (s.apply m' + t.apply k') (min e f) .positive
      · rw [hzero]
        trivial
      · rw [hround]
        apply atMost_round_exact r (by omega)
        have htriangle : (s.apply (m' : ℤ) + t.apply (k' : ℤ)).natAbs ≤ m' + k' := by
          cases s <;> cases t <;> simp only [Sign.apply] <;> omega
        calc dyadic _ (min e f) ≤ dyadic (m' + k') (min e f) := dyadic_le_dyadic.mpr htriangle
          _ = dyadic m e + dyadic k f := by
            rw [← hleft, ← hright, dyadic, dyadic, dyadic, Nat.cast_add, add_mul]
          _ ≤ 2 ^ n + 2 ^ n := add_le_add hu hv
          _ = 2 ^ (n + 1) := by
            rw [two_zpow_add]
            ring
    | _ => cases hv
  | _ => cases hu

theorem AtMost.neg {n : ℤ} {u : UnpackedFloat} (h : AtMost n u) : AtMost n u.neg := by
  cases u <;> exact h

theorem canonical_neg {u : UnpackedFloat} (h : Canonical u) : Canonical u.neg := by
  cases u <;> exact h

theorem atMost_add {n : ℤ} {x y : Float} (hx : AtMost n (value x)) (hy : AtMost n (value y))
    (hlow : -1075 ≤ n) (hhigh : n ≤ 1022) : AtMost (n + 1) (value (x + y)) :=
  atMost_stored (canonical_add (canonical_value x) (canonical_value y)) (by omega)
    (hx.add hy hlow)

theorem atMost_sub {n : ℤ} {x y : Float} (hx : AtMost n (value x)) (hy : AtMost n (value y))
    (hlow : -1075 ≤ n) (hhigh : n ≤ 1022) : AtMost (n + 1) (value (x - y)) := by
  rw [value_sub, sub_eq_add]
  exact atMost_stored (canonical_add (canonical_value x) (canonical_neg (canonical_value y)))
    (by omega) (hx.add hy.neg hlow)

/-- An infinite summand is the sum with any number. -/
theorem value_add_infinity {x y : Float} (hx : Scalar.isFinite x = true) {s : Sign}
    (hy : value y = .infinity s) : value (x + y) = .infinity s := by
  have hfinite : (value x).isFinite = true := hx
  rw [value_add, hy]
  cases hvalue : value x with
  | zero t => exact stored_infinity s
  | finite t m e hm => exact stored_infinity s
  | _ =>
    rw [hvalue] at hfinite
    cases hfinite

theorem value_sub_infinity {x y : Float} (hx : Scalar.isFinite x = true) {s : Sign}
    (hy : value y = .infinity s) : value (x - y) = .infinity (-s) := by
  have hneg : value (-y) = .infinity (-s) := by
    rw [value_neg, hy]
    rfl
  rw [value_sub, sub_eq_add, ← value_neg, ← value_add]
  exact value_add_infinity hx hneg

/-! ### Square roots -/

/-- The exponent of a root before it is rounded. -/
def rootExponent (m : ℕ) (e : ℤ) : ℤ := min (e / 2) (max ((m.log2 + e + 2) / 2 - 53) (-1074))

/-- The mantissa with so many zeros behind it that its root has all bits of a double. -/
def radicand (m : ℕ) (e : ℤ) : ℕ := m <<< (e - 2 * rootExponent m e).toNat

/-- What the rest of a root tells about it: no root of a natural number is a half. -/
def accuracyOfRoot (n : ℕ) : Accuracy :=
  if n - n.sqrt * n.sqrt = 0 then .exact
  else .inexact (if n - n.sqrt * n.sqrt ≤ n.sqrt then .lt else .gt)

theorem sqrtCore_eq (m : ℕ) (e : ℤ) : sqrtCore .binary64 m e =
    ((radicand m e).sqrt, rootExponent m e, accuracyOfRoot (radicand m e)) := by
  have htarget : Format.binary64.targetExponent ((totalExponent m e + 1).ediv 2) =
      max ((m.log2 + e + 2) / 2 - 53) (-1074) := by
    have hbits : (Format.binary64.mantissaBits : ℤ) = 53 := rfl
    have hmin : Format.binary64.minExponent = -1074 := rfl
    have hdiv : (totalExponent m e + 1).ediv 2 = (totalExponent m e + 1) / 2 := rfl
    rw [Format.targetExponent, hbits, hmin, hdiv, totalExponent]
    congr 3
    omega
  have hexponent : min (e.ediv 2)
      (Format.binary64.targetExponent ((totalExponent m e + 1).ediv 2)) = rootExponent m e := by
    rw [htarget]
    rfl
  rw [sqrtCore, hexponent]
  rfl

theorem accuracyOfRoot_cases (n : ℕ) : accuracyOfRoot n = .exact ∨ n.sqrt * n.sqrt < n := by
  have hle := Nat.sqrt_le n
  rw [accuracyOfRoot]
  split
  · exact .inl rfl
  · exact .inr (by omega)

theorem dyadic_radicand (m : ℕ) (e : ℤ) :
    dyadic (radicand m e) (rootExponent m e + rootExponent m e) = dyadic m e := by
  rw [← dyadic_shift m (e - 2 * rootExponent m e).toNat e, radicand]
  congr 1
  rw [rootExponent]
  omega

/-- A root has all bits of a double, or the least exponent. -/
theorem log2_root {m : ℕ} (hm : 0 < m) (e : ℤ) :
    52 ≤ (radicand m e).sqrt.log2 ∨ rootExponent m e ≤ -1074 := by
  by_cases hleast : rootExponent m e ≤ -1074
  · exact .inr hleast
  left
  have hbits : 104 ≤ (radicand m e).log2 := by
    rw [radicand, log2_shiftLeft hm]
    rw [rootExponent] at hleast ⊢
    omega
  have hpos : radicand m e ≠ 0 := by
    intro hzero
    rw [hzero, Nat.log2_zero] at hbits
    omega
  have hroot : 2 ^ 52 ≤ (radicand m e).sqrt := by
    rw [Nat.le_sqrt, ← pow_add]
    exact (Nat.le_log2 hpos).mp hbits
  exact (Nat.le_log2 (by omega)).mpr hroot

theorem canonical_sqrt (u : UnpackedFloat) : Canonical (sqrt .binary64 u) := by
  cases u with
  | finite s m e hm =>
    cases s with
    | negative => trivial
    | positive =>
      rw [UnpackedFloat.sqrt, sqrtCore_eq]
      exact canonical_round _ _ (log2_root hm e)
  | infinity s => cases s <;> trivial
  | _ => trivial

theorem AtMost.sqrt {n : ℤ} {u : UnpackedFloat} (hu : AtMost (n + n) u) (hn : -1074 ≤ n) :
    sqrt .binary64 u = .notANumber ∨ AtMost n (UnpackedFloat.sqrt .binary64 u) := by
  cases u with
  | zero s => exact .inr trivial
  | finite s m e hm =>
    cases s with
    | negative => exact .inl rfl
    | positive =>
      right
      rw [UnpackedFloat.sqrt, sqrtCore_eq]
      have hradicand : 1 ≤ radicand m e := by
        rw [radicand, Nat.shiftLeft_eq]
        exact Nat.mul_pos hm (Nat.two_pow_pos _)
      have hroot : 0 < (radicand m e).sqrt := Nat.le_sqrt.mpr hradicand
      have hbound : dyadic (radicand m e) (rootExponent m e + rootExponent m e) ≤
          2 ^ n * 2 ^ n := by
        rw [dyadic_radicand, ← two_zpow_add]
        exact hu
      have hsquare : dyadic (radicand m e).sqrt (rootExponent m e) *
          dyadic (radicand m e).sqrt (rootExponent m e) ≤ 2 ^ n * 2 ^ n := by
        rw [← dyadic_mul]
        exact (dyadic_le_dyadic.mpr (Nat.sqrt_le _)).trans hbound
      refine atMost_round .positive hroot hn ?_
      obtain hexact | hlt := accuracyOfRoot_cases (radicand m e)
      · have hpositive : 0 ≤ dyadic (radicand m e).sqrt (rootExponent m e) := by
          rw [dyadic]
          positivity
        exact .inr ⟨hexact, (mul_self_le_mul_self_iff hpositive (two_zpow_pos n).le).mpr hsquare⟩
      · left
        refine lt_of_mul_self_lt_mul_self₀ (two_zpow_pos n).le (lt_of_lt_of_le ?_ hbound)
        rw [← dyadic_mul, ← not_le, dyadic_le_dyadic, not_le]
        exact hlt
  | _ => cases hu

theorem value_sqrt (x : Float) : value x.sqrt = stored (sqrt .binary64 (value x)) := rfl

theorem atMost_sqrt {n : ℤ} {x : Float} (hx : AtMost (n + n) (value x)) (hlow : -1074 ≤ n)
    (hhigh : n ≤ 1023) : value x.sqrt = .notANumber ∨ AtMost n (value x.sqrt) := by
  rw [value_sqrt]
  obtain hnan | hbound := hx.sqrt hlow
  · left
    rw [hnan, stored_notANumber]
  · exact .inr (atMost_stored (canonical_sqrt _) hhigh hbound)

/-! ### Quotients -/

/-- The exponent of a quotient before it is rounded. -/
def quotientExponent (m : ℕ) (e : ℤ) (k : ℕ) (f : ℤ) : ℤ :=
  min (e - f) (max (m.log2 + e - (k.log2 + f) - 53) (-1074))

/-- The numerator with so many zeros behind it that the quotient has all bits of a double. -/
def numerator (m : ℕ) (e : ℤ) (k : ℕ) (f : ℤ) : ℕ :=
  m <<< (e - f - quotientExponent m e k f).toNat

theorem divCore_eq (m : ℕ) (e : ℤ) (k : ℕ) (f : ℤ) :
    divCore .binary64 m e k f = (numerator m e k f / k, quotientExponent m e k f,
      accuracyOfFraction (numerator m e k f % k) k) := by
  have htarget : Format.binary64.targetExponent (totalExponent m e - totalExponent k f) =
      max (m.log2 + e - (k.log2 + f) - 53) (-1074) := by
    have hbits : (Format.binary64.mantissaBits : ℤ) = 53 := rfl
    have hmin : Format.binary64.minExponent = -1074 := rfl
    rw [Format.targetExponent, hbits, hmin, totalExponent, totalExponent]
    congr 2
    omega
  rw [divCore, htarget]
  rfl

theorem dyadic_numerator (m : ℕ) (e : ℤ) (k : ℕ) (f : ℤ) :
    dyadic (numerator m e k f) (quotientExponent m e k f + f) = dyadic m e := by
  rw [← dyadic_shift m (e - f - quotientExponent m e k f).toNat e, numerator]
  congr 1
  rw [quotientExponent]
  omega

theorem long_quotient {m k : ℕ} (hm : 0 < m) (hk : 0 < k) (e f : ℤ)
    (h : -1074 < quotientExponent m e k f) : 2 ^ 52 ≤ numerator m e k f / k := by
  have hbits : k.log2 + 53 ≤ (numerator m e k f).log2 := by
    rw [numerator, log2_shiftLeft hm]
    rw [quotientExponent] at h ⊢
    omega
  have hpos : numerator m e k f ≠ 0 := by
    intro hzero
    rw [hzero, Nat.log2_zero] at hbits
    omega
  apply (Nat.le_div_iff_mul_le hk).mpr
  calc 2 ^ 52 * k ≤ 2 ^ 52 * 2 ^ (k.log2 + 1) := Nat.mul_le_mul_left _ Nat.lt_log2_self.le
    _ = 2 ^ (k.log2 + 53) := by
      rw [← pow_add]
      congr 1
      omega
    _ ≤ numerator m e k f := (Nat.le_log2 hpos).mp hbits

/-- A quotient has all bits of a double, or the least exponent. -/
theorem log2_quotient {m k : ℕ} (hm : 0 < m) (hk : 0 < k) (e f : ℤ) :
    52 ≤ (numerator m e k f / k).log2 ∨ quotientExponent m e k f ≤ -1074 := by
  by_cases hleast : quotientExponent m e k f ≤ -1074
  · exact .inr hleast
  · have hlong := long_quotient hm hk e f (not_le.mp hleast)
    exact .inl ((Nat.le_log2 (by omega)).mpr hlong)

theorem canonical_div (u v : UnpackedFloat) : Canonical (div .binary64 u v) := by
  cases u with
  | finite s m e hm =>
    cases v with
    | finite t k f hk =>
      rw [UnpackedFloat.div, divCore_eq]
      exact canonical_round _ _ (log2_quotient hm hk e f)
    | _ => trivial
  | _ => cases v <;> trivial

theorem AtLeast.div {i j : ℤ} {u v : UnpackedFloat} (hu : AtLeast i u) (hv : AtMost j v)
    (hlow : -1074 ≤ i - j) : AtLeast (i - j) (UnpackedFloat.div .binary64 u v) := by
  cases u with
  | infinity s =>
    cases v with
    | zero t => trivial
    | finite t k f hk => trivial
    | _ => cases hv
  | finite s m e hm =>
    cases v with
    | zero t => trivial
    | finite t k f hk =>
      rw [UnpackedFloat.div, divCore_eq]
      refine atLeast_round (s / t) _ hlow ?_
      by_cases hexponent : quotientExponent m e k f ≤ i - j
      · rw [two_zpow_eq_dyadic hexponent, dyadic_le_dyadic, Nat.le_div_iff_mul_le hk,
          ← dyadic_le_dyadic, dyadic_mul, ← two_zpow_eq_dyadic hexponent, dyadic_numerator]
        calc (2 : ℚ) ^ (i - j) * dyadic k f ≤ 2 ^ (i - j) * 2 ^ j :=
              mul_le_mul_of_nonneg_left hv (two_zpow_pos _).le
          _ = 2 ^ i := by
            rw [← two_zpow_add]
            congr 1
            omega
          _ ≤ dyadic m e := hu
      · have hlong := long_quotient hm hk e f (by omega)
        calc (2 : ℚ) ^ (i - j) ≤ 2 ^ quotientExponent m e k f := two_zpow_le.mpr (by omega)
          _ = dyadic 1 (quotientExponent m e k f) := by rw [dyadic, Nat.cast_one, one_mul]
          _ ≤ dyadic (numerator m e k f / k) (quotientExponent m e k f) :=
            dyadic_le_dyadic.mpr (by omega)
    | _ => cases hv
  | _ => cases hu

theorem atLeast_div {i j : ℤ} {x y : Float} (hx : AtLeast i (value x)) (hy : AtMost j (value y))
    (hlow : -1074 ≤ i - j) : AtLeast (i - j) (value (x / y)) :=
  atLeast_stored (canonical_div _ _) (hx.div hy hlow)

/-! ### Cube roots -/

theorem refineRoot_lt (degree n bits root : ℕ) :
    refineRoot degree n bits root < root + 2 ^ bits := by
  induction bits generalizing root with
  | zero => exact Nat.lt_succ_self root
  | succ bits ih =>
    have hshift : 1 <<< bits = 2 ^ bits := Nat.one_shiftLeft bits
    have hnext := ih (root + 2 ^ bits)
    have hsame := ih root
    rw [refineRoot, hshift, pow_succ]
    split <;> omega

theorem floorRoot_lt (degree n : ℕ) : floorRoot degree n < 2 ^ (n.log2 / degree + 1) := by
  have hlt := refineRoot_lt degree n (n.log2 / degree + 1) 0
  rwa [Nat.zero_add] at hlt

/-- The bits that are still open decide between the two bounds. -/
theorem refineRoot_spec {degree n bits root : ℕ} (hlow : root ^ degree ≤ n)
    (hhigh : n < (root + 2 ^ bits) ^ degree) :
    refineRoot degree n bits root ^ degree ≤ n ∧
      n < (refineRoot degree n bits root + 1) ^ degree := by
  induction bits generalizing root with
  | zero => exact ⟨hlow, hhigh⟩
  | succ bits ih =>
    have hshift : 1 <<< bits = 2 ^ bits := Nat.one_shiftLeft bits
    have hhalves : root + 2 ^ (bits + 1) = root + 2 ^ bits + 2 ^ bits := by
      rw [pow_succ]
      omega
    rw [refineRoot, hshift]
    rw [hhalves] at hhigh
    by_cases hnext : (root + 2 ^ bits).pow degree ≤ n
    · rw [if_pos hnext]
      exact ih hnext hhigh
    · rw [if_neg hnext]
      exact ih hlow (not_le.mp hnext)

theorem floorRoot_spec {degree : ℕ} (hdegree : 0 < degree) (n : ℕ) :
    floorRoot degree n ^ degree ≤ n ∧ n < (floorRoot degree n + 1) ^ degree := by
  apply refineRoot_spec
  · rw [zero_pow hdegree.ne']
    exact Nat.zero_le n
  · have hbits : n.log2 < (n.log2 / degree + 1) * degree := by
      rw [Nat.add_mul, Nat.one_mul]
      exact Nat.lt_div_mul_add hdegree
    rw [Nat.zero_add, ← pow_mul]
    exact Nat.lt_log2_self.trans_le (Nat.pow_le_pow_right two_pos hbits)

theorem atMost_nearest {n : ℤ} (negative : Bool) {m : ℕ} {e : ℤ} (hlow : -1074 ≤ n)
    (hhigh : n ≤ 1023) (h : dyadic m e ≤ 2 ^ n) : AtMost n (value (nearest negative m e)) := by
  change AtMost n (stored (UnpackedFloat.round .binary64 _ m e))
  exact atMost_stored (canonical_round_exact _ m e) hhigh (atMost_round_exact _ hlow h)

theorem exists_magnitude {x : Float} (h : Scalar.isFinite x = true) :
    ∃ m e, magnitude? x = some (m, e) ∧ m.log2 + e ≤ 1023 := by
  have hfinite : (value x).isFinite = true := h
  cases hx : value x with
  | zero s =>
    rw [value] at hx
    rw [magnitude?, hx]
    exact ⟨0, 0, rfl, by norm_num⟩
  | finite s m e hm =>
    have he := exponent_le_of_value hx
    have hbits : m.log2 < 53 := (Nat.log2_lt hm.ne').mpr (value_bounds hx).1
    rw [value] at hx
    rw [magnitude?, hx]
    exact ⟨m, e, rfl, by omega⟩
  | _ =>
    rw [hx] at hfinite
    cases hfinite

theorem log2_shiftLeft_le (m k : ℕ) : (m <<< k).log2 ≤ m.log2 + k := by
  obtain rfl | hm := Nat.eq_zero_or_pos m
  · rw [Nat.zero_shiftLeft]
    exact Nat.le_add_right _ _
  · exact (log2_shiftLeft hm k).le

/-- A cube root has a third of the exponent. -/
theorem atMost_cbrt_of_magnitude {x : Float} {m : ℕ} {e n : ℤ}
    (hmagnitude : magnitude? x = some (m, e)) (hbits : m = 0 ∨ m.log2 + e ≤ n)
    (hlow : -1074 ≤ n / 3 + 1) (hhigh : n / 3 + 1 ≤ 1023) :
    AtMost (n / 3 + 1) (value (cbrt x)) := by
  rw [cbrt, hmagnitude]
  dsimp only
  apply atMost_nearest _ hlow hhigh
  generalize hshift : 192 + ((e - 192) % 3).toNat = shift
  obtain rfl | hbits := hbits
  · have hroot : floorRoot 3 0 = 0 := rfl
    rw [Nat.zero_shiftLeft, hroot, if_pos rfl, dyadic, Nat.cast_zero, zero_mul]
    exact (two_zpow_pos _).le
  have hroot := floorRoot_lt 3 (m <<< shift)
  have hlog := log2_shiftLeft_le m shift
  generalize floorRoot 3 (m <<< shift) = root at hroot ⊢
  have hmarked : (2 * root + if root * root * root = m <<< shift then 0 else 1) ≤
      2 ^ ((m <<< shift).log2 / 3 + 2) := by
    rw [pow_succ]
    split <;> omega
  refine (dyadic_le_dyadic.mpr hmarked).trans ?_
  rw [dyadic, Nat.cast_pow, Nat.cast_ofNat, ← zpow_natCast, ← two_zpow_add, two_zpow_le]
  omega

/-- The cube root of a finite double is far from the largest doubles. -/
theorem atMost_cbrt {x : Float} (h : Scalar.isFinite x = true) : AtMost 342 (value (cbrt x)) := by
  obtain ⟨m, e, hmagnitude, hbits⟩ := exists_magnitude h
  exact atMost_cbrt_of_magnitude (n := 1023) hmagnitude (.inr hbits) (by norm_num) (by norm_num)

theorem AtMost.cbrt {n : ℤ} {x : Float} (h : AtMost n (value x)) (hlow : -1074 ≤ n / 3 + 1)
    (hhigh : n / 3 + 1 ≤ 1023) : AtMost (n / 3 + 1) (value (Binary64.cbrt x)) := by
  cases hx : value x with
  | zero s =>
    rw [value] at hx
    exact atMost_cbrt_of_magnitude (by rw [magnitude?, hx]) (.inl rfl) hlow hhigh
  | finite s m e hm =>
    rw [hx] at h
    rw [value] at hx
    exact atMost_cbrt_of_magnitude (by rw [magnitude?, hx]) (.inr (log2_le_of_dyadic_le hm h))
      hlow hhigh
  | _ =>
    rw [hx] at h
    cases h

theorem cbrt_of_infinity {x : Float} {s : Sign} (hx : value x = .infinity s) : cbrt x = x := by
  rw [value] at hx
  rw [cbrt, magnitude?, hx]

/-! ### Values without a negative sign -/

/-- A number, or infinity, with a positive sign. -/
inductive IsPositive : UnpackedFloat → Prop
  | zero : IsPositive (.zero .positive)
  | finite (m : ℕ) (e : ℤ) (hm : 0 < m) : IsPositive (.finite .positive m e hm)
  | infinity : IsPositive (.infinity .positive)

theorem isPositive_of_pos {x : Float} (h : 0.0 < x) : IsPositive (value x) := by
  rw [lt_iff, value_zero] at h
  cases hx : value x with
  | finite s m e hm =>
    cases s with
    | positive => exact .finite m e hm
    | negative => simp [hx, UnpackedFloat.lt, UnpackedFloat.compare] at h
  | infinity s =>
    cases s with
    | positive => exact .infinity
    | negative => simp [hx, UnpackedFloat.lt, UnpackedFloat.compare] at h
  | _ => simp [hx, UnpackedFloat.lt, UnpackedFloat.compare] at h

/-- A positive value that is not finite is infinity. -/
theorem IsPositive.eq_infinity {u : UnpackedFloat} (h : IsPositive u)
    (hinfinite : u.isFinite = false) : u = .infinity .positive := by
  cases h with
  | infinity => rfl
  | zero => cases hinfinite
  | finite m e hm => cases hinfinite

theorem isPositive_round (m : ℕ) (e : ℤ) (a : Accuracy) :
    IsPositive (roundWithAccuracy .binary64 .positive m e a) := by
  rw [roundWithAccuracy_eq, ofShortened]
  split_ifs
  · exact .zero
  · exact .finite _ _ _
  · exact .finite _ _ _

theorem isPositive_stored {u : UnpackedFloat} (hcanonical : Canonical u) (h : IsPositive u) :
    IsPositive (stored u) := by
  cases h with
  | zero => exact .zero
  | infinity => exact .infinity
  | finite m e hm =>
    by_cases he : e ≤ 971
    · rw [stored_of_exponent_le hcanonical he]
      exact .finite m e hm
    · rw [stored_of_lt_exponent (by omega)]
      exact .infinity

theorem isPositive_mul_self {x : Float} (h : Scalar.isFinite x = true) :
    IsPositive (value (x * x)) := by
  have hfinite : (value x).isFinite = true := h
  have hcanonical := canonical_value x
  rw [value_mul]
  apply isPositive_stored (canonical_mul hcanonical hcanonical)
  cases hx : value x with
  | zero s => cases s <;> exact .zero
  | finite s m e hm => cases s <;> exact isPositive_round _ _ _
  | _ =>
    rw [hx] at hfinite
    cases hfinite

/-- The exact sum of two positive numbers is rounded at their smaller exponent. -/
theorem add_finite {m k : ℕ} {e f : ℤ} (hm : 0 < m) (hk : 0 < k) :
    ∃ n : ℕ, dyadic n (min e f) = dyadic m e + dyadic k f ∧
      add .binary64 (.finite .positive m e hm) (.finite .positive k f hk) =
        UnpackedFloat.round .binary64 .positive n (min e f) := by
  have hleft := dyadic_decreaseExponent (m := m) (min_le_left e f)
  have hright := dyadic_decreaseExponent (m := k) (min_le_right e f)
  simp only [UnpackedFloat.add, Sign.apply]
  generalize (decreaseExponent m e (min e f)).1 = m' at hleft ⊢
  generalize (decreaseExponent k f (min e f)).1 = k' at hright ⊢
  have hsum : dyadic (m' + k') (min e f) = dyadic m e + dyadic k f := by
    rw [← hleft, ← hright, dyadic, dyadic, dyadic, Nat.cast_add, add_mul]
  have hpos : 0 < m' + k' := by
    by_contra hzero
    have hvanish : m' + k' = 0 := by omega
    rw [hvanish, dyadic, Nat.cast_zero, zero_mul] at hsum
    exact absurd hsum (add_pos (dyadic_pos hm e) (dyadic_pos hk f)).ne
  exact ⟨m' + k', hsum, normalize_of_pos (by omega) _ _⟩

theorem isPositive_add {x y : Float} (hx : IsPositive (value x)) (hy : IsPositive (value y)) :
    IsPositive (value (x + y)) := by
  rw [value_add]
  apply isPositive_stored (canonical_add (canonical_value x) (canonical_value y))
  generalize value x = u at hx
  generalize value y = v at hy
  cases hx with
  | zero =>
    cases hy with
    | zero => exact .zero
    | finite k f hk => exact .finite k f hk
    | infinity => exact .infinity
  | infinity => cases hy <;> exact .infinity
  | finite m e hm =>
    cases hy with
    | zero => exact .finite m e hm
    | infinity => exact .infinity
    | finite k f hk =>
      obtain ⟨n, -, hadd⟩ := add_finite (e := e) (f := f) hm hk
      rw [hadd]
      exact isPositive_round _ _ _

theorem isPositive_sqrt {x : Float} (hx : IsPositive (value x)) : IsPositive (value x.sqrt) := by
  rw [value_sqrt]
  apply isPositive_stored (canonical_sqrt _)
  generalize value x = u at hx
  cases hx with
  | zero => exact .zero
  | finite m e hm => exact isPositive_round _ _ _
  | infinity => exact .infinity

/-- A positive summand does not make a value smaller than a power of two. -/
theorem AtLeast.add {n : ℤ} {u v : UnpackedFloat} (hu : IsPositive u) (hv : IsPositive v)
    (hn : -1074 ≤ n) (h : AtLeast n u ∨ AtLeast n v) : AtLeast n (add .binary64 u v) := by
  cases hu with
  | zero =>
    cases hv with
    | zero => exact h.elim False.elim False.elim
    | finite k f hk => exact h.resolve_left id
    | infinity => trivial
  | infinity => cases hv <;> trivial
  | finite m e hm =>
    cases hv with
    | zero => exact h.resolve_right id
    | infinity => trivial
    | finite k f hk =>
      obtain ⟨r, hsum, hadd⟩ := add_finite (e := e) (f := f) hm hk
      rw [hadd]
      apply atLeast_round_exact .positive hn
      rw [hsum]
      obtain h | h := h
      · exact le_trans h (le_add_of_nonneg_right (dyadic_pos hk f).le)
      · exact le_trans h (le_add_of_nonneg_left (dyadic_pos hm e).le)

theorem AtLeast.sqrt {n : ℤ} {u : UnpackedFloat} (hu : AtLeast (n + n) u) (hpos : IsPositive u)
    (hn : -1074 ≤ n) : AtLeast n (UnpackedFloat.sqrt .binary64 u) := by
  cases hpos with
  | zero => cases hu
  | infinity => trivial
  | finite m e hm =>
    rw [UnpackedFloat.sqrt, sqrtCore_eq]
    refine atLeast_round .positive _ hn ?_
    have hradicand : (2 : ℚ) ^ (n + n) ≤
        dyadic (radicand m e) (rootExponent m e + rootExponent m e) := by
      rw [dyadic_radicand]
      exact hu
    generalize rootExponent m e = r at hradicand ⊢
    generalize radicand m e = k at hradicand ⊢
    by_cases hr : r ≤ n
    · rw [two_zpow_eq_dyadic (by omega : r + r ≤ n + n), dyadic_le_dyadic] at hradicand
      rw [two_zpow_eq_dyadic hr, dyadic_le_dyadic, Nat.le_sqrt, ← pow_add]
      convert hradicand using 2
      omega
    · have hk : 0 < k := by
        by_contra hzero
        obtain rfl : k = 0 := by omega
        rw [dyadic, Nat.cast_zero, zero_mul] at hradicand
        exact absurd hradicand (not_le.mpr (two_zpow_pos _))
      have hroot : 0 < k.sqrt := Nat.le_sqrt.mpr hk
      calc (2 : ℚ) ^ n ≤ 2 ^ r := two_zpow_le.mpr (by omega)
        _ = dyadic 1 r := by rw [dyadic, Nat.cast_one, one_mul]
        _ ≤ dyadic k.sqrt r := dyadic_le_dyadic.mpr hroot

theorem atLeast_add {n : ℤ} {x y : Float} (hx : IsPositive (value x)) (hy : IsPositive (value y))
    (hn : -1074 ≤ n) (h : AtLeast n (value x) ∨ AtLeast n (value y)) :
    AtLeast n (value (x + y)) :=
  atLeast_stored (canonical_add (canonical_value x) (canonical_value y)) (.add hx hy hn h)

theorem atLeast_sqrt {n : ℤ} {x : Float} (hx : AtLeast (n + n) (value x))
    (hpos : IsPositive (value x)) (hn : -1074 ≤ n) : AtLeast n (value x.sqrt) :=
  atLeast_stored (canonical_sqrt _) (hx.sqrt hpos hn)

/-! ### Zeros -/

theorem sub_beq_zero {x y : Float} (hx : (x == 0.0) = true) (hy : (y == 0.0) = true) :
    (x - y == 0.0) = true := by
  obtain ⟨s, hs⟩ := (beq_zero_iff x).mp hx
  obtain ⟨t, ht⟩ := (beq_zero_iff y).mp hy
  apply (beq_zero_iff _).mpr
  rw [value_sub, hs, ht]
  cases s <;> cases t <;> exact ⟨_, rfl⟩

theorem add_beq_zero {x y : Float} (hx : (x == 0.0) = true) (hy : (y == 0.0) = true) :
    (x + y == 0.0) = true := by
  obtain ⟨s, hs⟩ := (beq_zero_iff x).mp hx
  obtain ⟨t, ht⟩ := (beq_zero_iff y).mp hy
  apply (beq_zero_iff _).mpr
  rw [value_add, hs, ht]
  cases s <;> cases t <;> exact ⟨_, rfl⟩

theorem add_of_beq_zero {x y : Float} (hx : Scalar.isFinite x = true)
    (hne : (x == 0.0) = false) (hy : (y == 0.0) = true) : x + y = x := by
  obtain ⟨s, hs⟩ := (beq_zero_iff y).mp hy
  have hfinite : (value x).isFinite = true := hx
  apply value_injective
  rw [value_add, hs]
  cases hvx : value x with
  | zero t =>
    have hzero : (x == 0.0) = true := (beq_zero_iff x).mpr ⟨t, hvx⟩
    rw [hne] at hzero
    cases hzero
  | finite t m e hm =>
    have hstored := stored_value x
    rwa [hvx] at hstored
  | _ =>
    rw [hvx] at hfinite
    cases hfinite

theorem mul_beq_zero_right {x y : Float} (hx : Scalar.isFinite x = true)
    (hy : (y == 0.0) = true) : (x * y == 0.0) = true := by
  obtain ⟨s, hs⟩ := (beq_zero_iff y).mp hy
  obtain ⟨t, ht⟩ := mul_zero_of_isFinite (u := value x) hx s
  apply (beq_zero_iff _).mpr
  rw [value_mul, hs, ht]
  exact ⟨t, stored_zero t⟩

theorem mul_beq_zero_left {x y : Float} (hx : (x == 0.0) = true)
    (hy : Scalar.isFinite y = true) : (x * y == 0.0) = true := by
  obtain ⟨s, hs⟩ := (beq_zero_iff x).mp hx
  have hfinite : (value y).isFinite = true := hy
  apply (beq_zero_iff _).mpr
  rw [value_mul, hs]
  cases hvalue : value y with
  | zero t => exact ⟨s * t, stored_zero _⟩
  | finite t m e hm => exact ⟨s * t, stored_zero _⟩
  | _ =>
    rw [hvalue] at hfinite
    cases hfinite

theorem abs_of_beq_zero {x : Float} (h : (x == 0.0) = true) : Scalar.abs x = 0.0 := by
  obtain ⟨s, hs⟩ := (beq_zero_iff x).mp h
  apply value_injective
  change value x.abs = _
  rw [value_abs, hs]
  exact stored_zero .positive

/-! ### Finite results -/

theorem isFinite_of_beq_zero {x : Float} (h : (x == 0.0) = true) : Scalar.isFinite x = true := by
  obtain ⟨s, hs⟩ := (beq_zero_iff x).mp h
  change (value x).isFinite = true
  rw [hs]
  rfl

/-- A product is finite only if its first factor is. -/
theorem isFinite_of_isFinite_mul {x y : Float} (h : Scalar.isFinite (x * y) = true) :
    Scalar.isFinite x = true := by
  change (value x).isFinite = true
  change (value (x * y)).isFinite = true at h
  rw [value_mul] at h
  cases hx : value x with
  | zero t => rfl
  | finite t m e hm => rfl
  | infinity t =>
    rw [hx] at h
    cases hy : value y <;> simp [hy, mul, UnpackedFloat.isFinite] at h
  | notANumber => simp [hx, mul, UnpackedFloat.isFinite] at h

/-- And only if its second factor is. -/
theorem isFinite_right_of_isFinite_mul {x y : Float} (h : Scalar.isFinite (x * y) = true) :
    Scalar.isFinite y = true := by
  change (value y).isFinite = true
  change (value (x * y)).isFinite = true at h
  rw [value_mul] at h
  cases hy : value y with
  | zero t => rfl
  | finite t m e hm => rfl
  | infinity t =>
    rw [hy] at h
    cases hx : value x <;> simp [hx, mul, UnpackedFloat.isFinite] at h
  | notANumber =>
    rw [hy] at h
    cases hx : value x <;> simp [hx, mul, UnpackedFloat.isFinite] at h

theorem isFinite_of_isFinite_sqrt {x : Float} (h : Scalar.isFinite x.sqrt = true) :
    Scalar.isFinite x = true := by
  change (value x).isFinite = true
  change (value x.sqrt).isFinite = true at h
  rw [value_sqrt] at h
  cases hx : value x with
  | zero t => rfl
  | finite t m e hm => rfl
  | infinity t => cases t <;> simp [hx, sqrt, UnpackedFloat.isFinite] at h
  | notANumber => simp [hx, sqrt, UnpackedFloat.isFinite] at h

/-- A sum is finite only if its summands are. -/
theorem isFinite_of_isFinite_add {x y : Float} (h : Scalar.isFinite (x + y) = true) :
    Scalar.isFinite x = true ∧ Scalar.isFinite y = true := by
  change (value x).isFinite = true ∧ (value y).isFinite = true
  change (value (x + y)).isFinite = true at h
  rw [value_add] at h
  generalize value x = u at h
  generalize value y = v at h
  cases u with
  | infinity s =>
    cases v with
    | infinity t =>
      change (stored (if s == t then .infinity s else .notANumber)).isFinite = true at h
      split at h <;> simp [UnpackedFloat.isFinite] at h
    | _ => simp [add, UnpackedFloat.isFinite] at h
  | notANumber => simp [add, UnpackedFloat.isFinite] at h
  | zero s => cases v <;> simp_all [add, UnpackedFloat.isFinite]
  | finite s m e hm => cases v <;> simp_all [add, UnpackedFloat.isFinite]

theorem isFinite_of_isFinite_sub {x y : Float} (h : Scalar.isFinite (x - y) = true) :
    Scalar.isFinite x = true ∧ Scalar.isFinite y = true := by
  rw [← add_neg_eq] at h
  obtain ⟨hx, hy⟩ := isFinite_of_isFinite_add h
  exact ⟨hx, (Scalar.LawfulSign.isFinite (Scalar.reflects_neg y)).trans hy⟩

theorem infinity_not_lt (v : UnpackedFloat) : (infinity .positive).lt v = false := by
  cases v with
  | infinity s | finite s => cases s <;> rfl
  | _ => rfl

/-- What is below a bound in magnitude is finite: infinity is not, and no number compares. -/
theorem isFinite_of_abs_lt {x bound : Float} (h : Scalar.abs x < bound) :
    Scalar.isFinite x = true := by
  have hlt : (value x.abs).lt (value bound) = true := (lt_iff _ _).mp h
  change (value x).isFinite = true
  rw [value_abs] at hlt
  cases hx : value x with
  | zero s => rfl
  | finite s m e hm => rfl
  | infinity s =>
    rw [hx, UnpackedFloat.abs, stored_infinity, infinity_not_lt] at hlt
    cases hlt
  | notANumber =>
    rw [hx] at hlt
    cases hlt

theorem isNumber_of_isFinite {x : Float} (h : Scalar.isFinite x = true) : Scalar.IsNumber x := by
  have hfinite : (value x).isFinite = true := h
  rw [Scalar.IsNumber, ← Bool.not_eq_false, beq_self_eq_false_iff]
  intro hvalue
  rw [hvalue] at hfinite
  cases hfinite

end EllipticPlot.Binary64
