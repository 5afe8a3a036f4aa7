import EllipticPlot.Proofs.Binary64Accuracy

/-!
# Errors in proportion to a scale

A computation in which all numbers are multiples of powers of one scale is followed with two bounds
for each of them: how large the exact number is, and how many grains of that size the double is off.
The bounds multiply and add as the numbers do, and each operation adds one grain.
-/

namespace EllipticPlot.Binary64

/-- A little more than `roundoff`: the rest pays for errors of errors and for underflow. -/
noncomputable def grain : ℝ := (1 + 1 / 1024) * roundoff

theorem grain_eq : grain = 1025 / 2 ^ 63 := by
  rw [grain, roundoff_eq]
  norm_num

theorem grain_pos : 0 < grain := by
  rw [grain_eq]
  positivity

/-- A scale whose powers up to the fifth lead neither to overflow nor to underflow. -/
structure Moderate (t : ℝ) : Prop where
  low : 2 ^ (-100 : ℤ) ≤ t
  high : t ≤ 2 ^ (180 : ℤ)

namespace Moderate

variable {t : ℝ} (ht : Moderate t)

include ht

theorem pos : 0 < t := (real_zpow_pos _).trans_le ht.low

theorem le_zpow {k : ℤ} (hlow : -4 ≤ k) (hhigh : k ≤ 8) : (2 : ℝ) ^ (-800 : ℤ) ≤ t ^ k := by
  obtain ⟨n, rfl | rfl⟩ := k.eq_nat_or_neg
  · calc (2 : ℝ) ^ (-800 : ℤ) ≤ 2 ^ (-100 * n : ℤ) := zpow_le_zpow_right₀ one_le_two (by omega)
      _ = (2 ^ (-100 : ℤ)) ^ n := by rw [zpow_mul, zpow_natCast]
      _ ≤ t ^ (n : ℤ) := by
        rw [zpow_natCast]
        exact pow_le_pow_left₀ (real_zpow_pos _).le ht.low n
  · calc (2 : ℝ) ^ (-800 : ℤ) ≤ 2 ^ (-(180 * n) : ℤ) := zpow_le_zpow_right₀ one_le_two (by omega)
      _ = ((2 ^ (180 : ℤ)) ^ n)⁻¹ := by rw [zpow_neg, zpow_mul, zpow_natCast]
      _ ≤ t ^ (-n : ℤ) := by
        rw [zpow_neg, zpow_natCast]
        exact inv_anti₀ (pow_pos ht.pos n) (pow_le_pow_left₀ ht.pos.le ht.high n)

theorem zpow_le {k : ℤ} (hlow : -4 ≤ k) (hhigh : k ≤ 5) : t ^ k ≤ 2 ^ (900 : ℤ) := by
  obtain ⟨n, rfl | rfl⟩ := k.eq_nat_or_neg
  · calc t ^ (n : ℤ) ≤ (2 ^ (180 : ℤ)) ^ n := by
          rw [zpow_natCast]
          exact pow_le_pow_left₀ ht.pos.le ht.high n
      _ = 2 ^ (180 * n : ℤ) := by rw [zpow_mul, zpow_natCast]
      _ ≤ 2 ^ (900 : ℤ) := zpow_le_zpow_right₀ one_le_two (by omega)
  · calc t ^ (-n : ℤ) ≤ ((2 ^ (-100 : ℤ)) ^ n)⁻¹ := by
          rw [zpow_neg, zpow_natCast]
          exact inv_anti₀ (pow_pos (real_zpow_pos _) n)
            (pow_le_pow_left₀ (real_zpow_pos _).le ht.low n)
      _ = 2 ^ (100 * n : ℤ) := by
        rw [zpow_neg, inv_pow, inv_inv, zpow_mul, zpow_natCast]
      _ ≤ 2 ^ (900 : ℤ) := zpow_le_zpow_right₀ one_le_two (by omega)

end Moderate

/-- Exponents, factors and counts for which the grains of a result are reckoned. -/
@[mk_iff]
structure Ordinary (z : Float) (k : ℤ) (c : ℝ) (n : ℕ) : Prop where
  low : -4 ≤ k
  high : k ≤ 8
  small : 1 / 1024 ≤ c
  large : c ≤ 1024
  count : n ≤ 1000
  finite : Scalar.isFinite z = true ∨ k ≤ 5

/-- The double is off by at most `n` grains of `c · t ^ k`, and the exact number is no larger. -/
structure Near (t : ℝ) (k : ℤ) (c : ℝ) (n : ℕ) (x : Float) (r : ℝ) : Prop where
  finite : Scalar.isFinite x = true
  size : |r| ≤ c * t ^ k
  error : |real x - r| ≤ n * (grain * (c * t ^ k))

theorem underflow_le {t : ℝ} (ht : Moderate t) {z : Float} {k : ℤ} {c : ℝ} {n : ℕ}
    (h : Ordinary z k c n) : underflow ≤ 1 / 2 ^ 80 * (c * t ^ k) := by
  have hscale := ht.le_zpow h.low h.high
  have hc := h.small
  rw [underflow_eq_zpow]
  calc (2 : ℝ) ^ (-1075 : ℤ) ≤ 2 ^ (-90 + -800 : ℤ) := zpow_le_zpow_right₀ one_le_two (by norm_num)
    _ = 1 / 2 ^ 80 * (1 / 1024 * 2 ^ (-800 : ℤ)) := by
      rw [zpow_add₀ two_ne_zero, ← mul_assoc]
      norm_num
    _ ≤ 1 / 2 ^ 80 * (c * t ^ k) := by gcongr

theorem near_of_rounded {t : ℝ} (ht : Moderate t) {z : Float} {k : ℤ} {c : ℝ} {n : ℕ}
    (h : Ordinary z k c n) {w r : ℝ} (hz : Rounded z w) (hsize : |r| ≤ c * t ^ k)
    (herror : |w - r| ≤ (n + 1 / 2 ^ 20) * (grain * (c * t ^ k))) : Near t k c (n + 1) z r := by
  have hunderflow := underflow_le ht h
  obtain ⟨hlow, -, hc, hc', hn, hfinite⟩ := h
  have hn' : (n : ℝ) ≤ 1000 := by exact_mod_cast hn
  have hpos : 0 < c * t ^ k := mul_pos (by linarith) (zpow_pos ht.pos k)
  have hoverflow : k ≤ 5 → 2 * (c * t ^ k) ≤ 2 ^ (1023 : ℤ) := fun hk => by
    have hpower := zpow_pos ht.pos k
    calc 2 * (c * t ^ k) ≤ 2 * (1024 * 2 ^ (900 : ℤ)) := by gcongr; exact ht.zpow_le hlow hk
      _ = 2 ^ (11 + 900 : ℤ) := by
        rw [zpow_add₀ two_ne_zero, ← mul_assoc]
        norm_num
      _ ≤ 2 ^ (1023 : ℤ) := zpow_le_zpow_right₀ one_le_two (by norm_num)
  suffices hbounds : Scalar.isFinite z = true ∧
      |real z - r| ≤ (n + 1 : ℕ) * (grain * (c * t ^ k)) from ⟨hbounds.1, hsize, hbounds.2⟩
  rw [grain_eq] at herror ⊢
  generalize c * t ^ k = S at *
  have hcount : (n : ℝ) * S ≤ 1000 * S := mul_le_mul_of_nonneg_right hn' hpos.le
  have hexact : |w| ≤ (1 + 1 / 2 ^ 40) * S := by linarith [abs_sub_abs_le_abs_sub w r]
  have hdouble : |w| ≤ 2 * S := by linarith
  have hz' : Scalar.isFinite z = true :=
    hfinite.elim id fun hk => hz.isFinite (hdouble.trans (hoverflow hk))
  have hrounding := hz.error hz'
  rw [roundoff_eq] at hrounding
  refine ⟨hz', ?_⟩
  push_cast
  linarith [abs_sub_le (real z) w r]

section

variable {t : ℝ} {i j k : ℤ} {c d : ℝ} {m n : ℕ} {x y : Float} {r s : ℝ}

theorem real_one : real 1.0 = 1 := by
  rw [real_of_finite value_one]
  change ((2 ^ 52 : ℕ) : ℝ) * 2 ^ (-52 : ℤ) = 1
  norm_num

theorem abs_sqrt_sub_le {a w δ : ℝ} (hw : 0 < w) (ha : 0 ≤ a) (h : |a - w * w| ≤ δ * w) :
    |√a - w| ≤ δ := by
  have hroot := Real.sqrt_nonneg a
  have hfactor : a - w * w = (√a - w) * (√a + w) := by linarith [Real.mul_self_sqrt ha]
  have hsum : w ≤ √a + w := le_add_of_nonneg_left hroot
  rw [hfactor, abs_mul, abs_of_pos (hw.trans_le hsum)] at h
  exact le_of_mul_le_mul_right ((mul_le_mul_of_nonneg_left hsum (abs_nonneg _)).trans h) hw

theorem near_real (hx : Scalar.isFinite x = true) (hsize : |real x| ≤ c * t ^ k) :
    Near t k c 0 x (real x) := by
  refine ⟨hx, hsize, ?_⟩
  rw [sub_self, abs_zero, Nat.cast_zero, zero_mul]

namespace Near

theorem weaken (h : Near t i c n x r) (hsize : |r| ≤ d * t ^ j)
    (hle : n * (c * t ^ i) ≤ m * (d * t ^ j)) : Near t j d m x r := by
  refine ⟨h.finite, hsize, h.error.trans ?_⟩
  rw [mul_left_comm, mul_left_comm (m : ℝ)]
  exact mul_le_mul_of_nonneg_left hle grain_pos.le

theorem mono (ht : Moderate t) (h : Near t k c n x r) (hcd : c ≤ d) (hnm : n ≤ m) :
    Near t k d m x r := by
  have hpower := zpow_pos ht.pos k
  have hc : 0 ≤ c * t ^ k := (abs_nonneg r).trans h.size
  have hle : c * t ^ k ≤ d * t ^ k := mul_le_mul_of_nonneg_right hcd hpower.le
  exact h.weaken (h.size.trans hle)
    (mul_le_mul (by exact_mod_cast hnm) hle hc (Nat.cast_nonneg m))

theorem neg (h : Near t k c n x r) : Near t k c n (-x) (-r) := by
  refine ⟨isFinite_neg h.finite, by simpa using h.size, ?_⟩
  rw [real_neg, neg_sub_neg, abs_sub_comm]
  exact h.error

theorem abs_real_le (h : Near t k c n x r) (hn : n ≤ 1000) :
    |real x| ≤ (1 + 1 / 2 ^ 40) * (c * t ^ k) := by
  have hn' : (n : ℝ) ≤ 1000 := by exact_mod_cast hn
  have herror := h.error
  have hsize := h.size
  have hpos := (abs_nonneg r).trans hsize
  rw [grain_eq] at herror
  generalize c * t ^ k = S at *
  have hcount : (n : ℝ) * S ≤ 1000 * S := mul_le_mul_of_nonneg_right hn' hpos
  linarith [abs_sub_abs_le_abs_sub (real x) r]

theorem mul (ht : Moderate t) (hx : Near t i c m x r) (hy : Near t j d n y s)
    (h : Ordinary (x * y) (i + j) (c * d) (m + n)) :
    Near t (i + j) (c * d) (m + n + 1) (x * y) (r * s) := by
  have hscale : c * d * t ^ (i + j) = c * t ^ i * (d * t ^ j) := by
    rw [zpow_add₀ ht.pos.ne']
    ring
  have hcount := h.count
  have hm : (m : ℝ) ≤ 1000 := by exact_mod_cast (by omega : m ≤ 1000)
  have hn : (n : ℝ) ≤ 1000 := by exact_mod_cast (by omega : n ≤ 1000)
  have hgrain : grain ≤ 1 / 2 ^ 52 := by
    rw [grain_eq]
    norm_num
  obtain ⟨hfx, hsx, hex⟩ := hx
  obtain ⟨hfy, hsy, hey⟩ := hy
  have hr := (abs_nonneg r).trans hsx
  have hs := (abs_nonneg s).trans hsy
  refine near_of_rounded ht h (rounded_mul hfx hfy) ?_ ?_
  · rw [hscale, abs_mul]
    exact mul_le_mul hsx hsy (abs_nonneg s) hr
  rw [hscale]
  generalize c * t ^ i = R at *
  generalize d * t ^ j = S at *
  have hproduct : real x * real y - r * s =
      (real x - r) * (real y - s) + (real x - r) * s + r * (real y - s) := by ring
  have hboth : |(real x - r) * (real y - s)| ≤ m * (grain * R) * (n * (grain * S)) := by
    rw [abs_mul]
    exact mul_le_mul hex hey (abs_nonneg _) ((abs_nonneg _).trans hex)
  have hleft : |(real x - r) * s| ≤ m * (grain * R) * S := by
    rw [abs_mul]
    exact mul_le_mul hex hsy (abs_nonneg s) ((abs_nonneg _).trans hex)
  have hright : |r * (real y - s)| ≤ R * (n * (grain * S)) := by
    rw [abs_mul]
    exact mul_le_mul hsx hey (abs_nonneg _) hr
  have hsquare : (m : ℝ) * n * grain ≤ 1000 * 1000 * (1 / 2 ^ 52) :=
    mul_le_mul (mul_le_mul hm hn (Nat.cast_nonneg n) (by norm_num)) hgrain grain_pos.le
      (by norm_num)
  rw [hproduct]
  refine (abs_add_three _ _ _).trans ((add_le_add_three hboth hleft hright).trans ?_)
  have hRS : 0 ≤ grain * (R * S) := mul_nonneg grain_pos.le (mul_nonneg hr hs)
  calc _ = (m + n + m * n * grain) * (grain * (R * S)) := by ring
    _ ≤ _ := by
      push_cast
      refine mul_le_mul_of_nonneg_right ?_ hRS
      linarith

theorem add (ht : Moderate t) (hx : Near t k c m x r) (hy : Near t k d n y s)
    (h : Ordinary (x + y) k (c + d) (max m n)) :
    Near t k (c + d) (max m n + 1) (x + y) (r + s) := by
  have hscale : (c + d) * t ^ k = c * t ^ k + d * t ^ k := add_mul c d _
  have hm : (m : ℝ) ≤ (max m n : ℕ) := by exact_mod_cast le_max_left m n
  have hn : (n : ℝ) ≤ (max m n : ℕ) := by exact_mod_cast le_max_right m n
  obtain ⟨hfx, hsx, hex⟩ := hx
  obtain ⟨hfy, hsy, hey⟩ := hy
  refine near_of_rounded ht h (rounded_add hfx hfy) ?_ ?_
  · rw [hscale]
    exact (abs_add_le r s).trans (add_le_add hsx hsy)
  rw [hscale]
  have hleft := mul_nonneg grain_pos.le ((abs_nonneg r).trans hsx)
  have hright := mul_nonneg grain_pos.le ((abs_nonneg s).trans hsy)
  generalize ((max m n : ℕ) : ℝ) = l at *
  calc |real x + real y - (r + s)| = |real x - r + (real y - s)| := by ring_nf
    _ ≤ |real x - r| + |real y - s| := abs_add_le _ _
    _ ≤ l * (grain * (c * t ^ k)) + l * (grain * (d * t ^ k)) :=
      add_le_add (hex.trans (mul_le_mul_of_nonneg_right hm hleft))
        (hey.trans (mul_le_mul_of_nonneg_right hn hright))
    _ ≤ (l + 1 / 2 ^ 20) * (grain * (c * t ^ k + d * t ^ k)) := by linarith

theorem sub (ht : Moderate t) (hx : Near t k c m x r) (hy : Near t k d n y s)
    (h : Ordinary (x - y) k (c + d) (max m n)) :
    Near t k (c + d) (max m n + 1) (x - y) (r - s) := by
  have hminus : r - s = r + -s := by ring
  rw [← add_neg_eq] at h ⊢
  rw [hminus]
  exact hx.add ht hy.neg h

/-- The square root of a square that is itself off by few grains. -/
theorem sqrt (ht : Moderate t) (h : Near t (k + k) 1 n x (t ^ k * t ^ k))
    (hordinary : Ordinary x.sqrt k 1 n) : Near t k 1 (n + 1) x.sqrt (t ^ k) := by
  have hpower := zpow_pos ht.pos k
  have hn : (n : ℝ) ≤ 1000 := by exact_mod_cast hordinary.count
  have herror := h.error
  have hfew : (n : ℝ) * grain ≤ 1 / 2 ^ 40 := by
    rw [grain_eq]
    linarith
  rw [zpow_add₀ ht.pos.ne', one_mul] at herror
  have hpos : 0 ≤ real x := by
    have hle := mul_le_mul_of_nonneg_right hfew (mul_pos hpower hpower).le
    linarith [(abs_le.mp herror).1, mul_pos hpower hpower]
  refine near_of_rounded ht hordinary (rounded_sqrt h.finite hpos)
    (by rw [one_mul, abs_of_pos hpower]) ?_
  have hroot : |√(real x) - t ^ k| ≤ n * (grain * t ^ k) := by
    refine abs_sqrt_sub_le hpower hpos ?_
    rwa [mul_assoc, mul_assoc]
  rw [one_mul]
  linarith [mul_pos grain_pos hpower]

/-- The reciprocal of the scale. -/
theorem one_div (ht : Moderate t) (h : Near t 1 1 n x t) (hn : n ≤ 900) :
    Near t (-1) 1 (n + 2) (1.0 / x) t⁻¹ := by
  have hn' : (n : ℝ) ≤ 900 := by exact_mod_cast hn
  have herror := h.error
  rw [zpow_one, one_mul] at herror
  have hfew : (n : ℝ) * grain ≤ 1 / 2 ^ 40 := by
    rw [grain_eq]
    linarith
  have hlow : (1 - 1 / 2 ^ 40) * t ≤ real x := by
    have hle := mul_le_mul_of_nonneg_right hfew ht.pos.le
    linarith [(abs_le.mp herror).1]
  have hpos : 0 < real x := by linarith [ht.pos]
  have hone : Scalar.isFinite (1.0 : Float) = true := isFinite_of_atMost constantBounds.one.2
  have hrounded := rounded_div hone h.finite hpos.ne'
  rw [real_one] at hrounded
  have hordinary : Ordinary (1.0 / x) (-1) 1 (n + 1) := by norm_num [ordinary_iff]; omega
  have hscale : 1 * t ^ (-1 : ℤ) = t⁻¹ := by rw [one_mul, zpow_neg_one]
  refine near_of_rounded ht hordinary hrounded ?_ ?_
  · rw [hscale, abs_of_pos (inv_pos.mpr ht.pos)]
  rw [hscale]
  have hdifference : 1 / real x - t⁻¹ = (t - real x) / (real x * t) := by
    field_simp [ht.pos.ne', hpos.ne']
  rw [hdifference, abs_div, abs_sub_comm, abs_of_pos (mul_pos hpos ht.pos),
    div_le_iff₀ (mul_pos hpos ht.pos)]
  have hcancel : ((n + 1 : ℕ) + 1 / 2 ^ 20) * (grain * t⁻¹) * (real x * t) =
      ((n + 1 : ℕ) + 1 / 2 ^ 20) * (grain * real x) := by
    field_simp [ht.pos.ne']
  have hunit := mul_pos grain_pos ht.pos
  have hshare : (n : ℝ) * (grain * t) ≤ 900 * (grain * t) :=
    mul_le_mul_of_nonneg_right hn' hunit.le
  rw [hcancel]
  push_cast
  calc |real x - t| ≤ n * (grain * t) := herror
    _ ≤ (n + 1) * (grain * ((1 - 1 / 2 ^ 40) * t)) := by linarith
    _ ≤ (n + 1) * (grain * real x) := by
      have hgrain := grain_pos.le
      gcongr
    _ ≤ (n + 1 + 1 / 2 ^ 20) * (grain * real x) := by linarith [mul_pos grain_pos hpos]

theorem cbrt (ht : Moderate t) (h : Near t k c n x r) {u : ℝ} (hu : u ^ 3 = real x)
    (hsize : |u| ≤ d * t ^ j) (hordinary : Ordinary (Binary64.cbrt x) j d 0) :
    Near t j d 2 (Binary64.cbrt x) u := by
  refine ⟨isFinite_of_atMost (atMost_cbrt h.finite), hsize, ?_⟩
  have herror := abs_cbrt_sub_le h.finite hu
  have hunderflow := underflow_le ht hordinary
  rw [roundoff_eq] at herror
  rw [grain_eq]
  generalize d * t ^ j = S at *
  push_cast
  linarith [abs_nonneg u]

end Near

end

end EllipticPlot.Binary64
