import EllipticPlot.Decimal.Shortest
import EllipticPlot.Proofs.Binary64Magnitude

/-!
# The shortest decimal reads back

The decimal found for a double lies in the interval of the reals that round to the double, and the
intervals of two doubles do not meet. So the decimal determines the double.
-/

namespace EllipticPlot

open Binary64

/-- The number that is meant. -/
def Decimal.toRat (d : Decimal) : ℚ := d.significand * 10 ^ d.exponent

namespace Binary64

/-! ### The interval of a double -/

/-- How far numbers below `m · 2 ^ e` round to it, in quarters of its spacing. -/
def gapBelow (m : ℕ) (e : ℤ) : ℕ := if m = 2 ^ 52 ∧ -1074 < e then 1 else 2

/-- The numbers that round to `m · 2 ^ e`. Those half way between two doubles go to the even
mantissa. -/
def RoundsTo (m : ℕ) (e : ℤ) (x : ℚ) : Prop :=
  if m % 2 = 0 then dyadic (4 * m - gapBelow m e) (e - 2) ≤ x ∧ x ≤ dyadic (4 * m + 2) (e - 2)
  else dyadic (4 * m - gapBelow m e) (e - 2) < x ∧ x < dyadic (4 * m + 2) (e - 2)

theorem gapBelow_le (m : ℕ) (e : ℤ) : gapBelow m e ≤ 2 := by
  rw [gapBelow]
  split <;> omega

theorem RoundsTo.le {m : ℕ} {e : ℤ} {x : ℚ} (h : RoundsTo m e x) :
    dyadic (4 * m - gapBelow m e) (e - 2) ≤ x ∧ x ≤ dyadic (4 * m + 2) (e - 2) := by
  rw [RoundsTo] at h
  split at h
  · exact h
  · exact ⟨h.1.le, h.2.le⟩

theorem roundsTo_of_lt {m : ℕ} {e : ℤ} {x : ℚ} (hlower : dyadic (4 * m) (e - 2) < x)
    (hupper : x < dyadic (4 * m + 2) (e - 2)) : RoundsTo m e x := by
  have hle : dyadic (4 * m - gapBelow m e) (e - 2) ≤ dyadic (4 * m) (e - 2) :=
    dyadic_le_dyadic.mpr (Nat.sub_le _ _)
  rw [RoundsTo]
  split
  · exact ⟨hle.trans hlower.le, hupper.le⟩
  · exact ⟨hle.trans_lt hlower, hupper⟩

theorem RoundsTo.lt_of_odd {m : ℕ} {e : ℤ} {x : ℚ} (h : RoundsTo m e x) (hodd : m % 2 = 1) :
    dyadic (4 * m - gapBelow m e) (e - 2) < x ∧ x < dyadic (4 * m + 2) (e - 2) := by
  rwa [RoundsTo, if_neg (by omega)] at h

/-- The interval of a double ends before that of a larger one begins. The two may share their end,
but neighbours do not both have an even mantissa. -/
theorem interval_lt {m k : ℕ} {e f : ℤ} {hm : 0 < m} {hk : 0 < k}
    (hu : Canonical (.finite .positive m e hm)) (hv : Canonical (.finite .positive k f hk))
    (h : dyadic m e < dyadic k f) :
    dyadic (4 * m + 2) (e - 2) ≤ dyadic (4 * k - gapBelow k f) (f - 2) ∧
      (dyadic (4 * m + 2) (e - 2) = dyadic (4 * k - gapBelow k f) (f - 2) →
        m % 2 = 1 ∨ k % 2 = 1) := by
  have hgap := gapBelow_le k f
  obtain hlt | rfl | hgt := lt_trichotomy e f
  · obtain ⟨hm53, hlow, -⟩ := hu
    have hlong : 2 ^ 52 ≤ k := hv.2.2.resolve_right (by omega)
    -- the larger one at the smaller exponent, where its mantissa is at least doubled
    have hshift : dyadic (4 * k - gapBelow k f) (f - 2) =
        dyadic ((4 * k - gapBelow k f) * 2 ^ (f - e).toNat) (e - 2) := by
      rw [← dyadic_shift _ (f - e).toNat, Nat.shiftLeft_eq]
      congr 1
      omega
    have hdouble : (4 * k - gapBelow k f) * 2 ≤ (4 * k - gapBelow k f) * 2 ^ (f - e).toNat :=
      Nat.mul_le_mul_left _ (Nat.le_self_pow (by omega) 2)
    have hnear : 2 ^ 54 - 1 ≤ 4 * k - gapBelow k f := by
      rw [gapBelow]
      split <;> omega
    rw [hshift, dyadic_le_dyadic, dyadic_inj]
    omega
  · have hlt := dyadic_lt_dyadic.mp h
    rw [dyadic_le_dyadic, dyadic_inj]
    omega
  · exact absurd h (dyadic_lt_of_exponent_lt hv hu hgt).not_gt

/-- What rounds to a larger double is larger. -/
theorem RoundsTo.lt_of_lt {m k : ℕ} {e f : ℤ} {hm : 0 < m} {hk : 0 < k}
    (hu : Canonical (.finite .positive m e hm)) (hv : Canonical (.finite .positive k f hk))
    (h : dyadic m e < dyadic k f) {x y : ℚ} (hx : RoundsTo m e x) (hy : RoundsTo k f y) :
    x < y := by
  obtain ⟨hle, hodd⟩ := interval_lt hu hv h
  obtain hlt | heq := hle.lt_or_eq
  · exact (hx.le.2.trans_lt hlt).trans_le hy.le.1
  · obtain hm | hk := hodd heq
    · exact ((hx.lt_of_odd hm).2.trans_le hle).trans_le hy.le.1
    · exact (hx.le.2.trans hle).trans_lt (hy.lt_of_odd hk).1

end Binary64

/-! ### Numbers on a grid -/

theorem zpow_mul_pow_toNat_neg {b : ℚ} (hb : b ≠ 0) (i : ℤ) :
    b ^ i * b ^ (-i).toNat = b ^ i.toNat := by
  rw [← zpow_natCast, ← zpow_natCast, ← zpow_add₀ hb]
  congr 1
  omega

namespace Decimal

/-- Both sides of a comparison, brought to whole numbers. -/
theorem grid_scaled (k n : ℕ) (e j : ℤ) :
    ((k <<< (e - 2).toNat * 10 ^ (-j).toNat : ℕ) : ℚ) =
        dyadic k (e - 2) * (2 ^ (2 - e).toNat * 10 ^ (-j).toNat) ∧
      ((n * (1 <<< (2 - e).toNat * 10 ^ j.toNat) : ℕ) : ℚ) =
        n * 10 ^ j * (2 ^ (2 - e).toNat * 10 ^ (-j).toNat) := by
  have htwo : (2 : ℚ) ^ (e - 2) * 2 ^ (2 - e).toNat = 2 ^ (e - 2).toNat := by
    rw [← neg_sub e 2]
    exact zpow_mul_pow_toNat_neg (by norm_num) _
  have hten : (10 : ℚ) ^ j * 10 ^ (-j).toNat = 10 ^ j.toNat :=
    zpow_mul_pow_toNat_neg (by norm_num) j
  rw [Nat.shiftLeft_eq, Nat.shiftLeft_eq, dyadic]
  push_cast
  rw [← htwo, ← hten]
  constructor <;> ring

theorem grid_le_iff (k n : ℕ) (e j : ℤ) :
    k <<< (e - 2).toNat * 10 ^ (-j).toNat ≤ n * (1 <<< (2 - e).toNat * 10 ^ j.toNat) ↔
      dyadic k (e - 2) ≤ n * 10 ^ j := by
  obtain ⟨hk, hn⟩ := grid_scaled k n e j
  rw [← Nat.cast_le (α := ℚ), hk, hn, mul_le_mul_iff_left₀ (by positivity)]

theorem le_grid_iff (k n : ℕ) (e j : ℤ) :
    n * (1 <<< (2 - e).toNat * 10 ^ j.toNat) ≤ k <<< (e - 2).toNat * 10 ^ (-j).toNat ↔
      n * 10 ^ j ≤ dyadic k (e - 2) := by
  obtain ⟨hk, hn⟩ := grid_scaled k n e j
  rw [← Nat.cast_le (α := ℚ), hk, hn, mul_le_mul_iff_left₀ (by positivity)]

/-- The decimal lies in the interval, as the search checks it. -/
def Meets (t : Interval) (d : Decimal) : Prop :=
  t.holds (10 ^ (-d.exponent).toNat) (10 ^ d.exponent.toNat) d.significand = true

section Interval

variable (m : ℕ) (e : ℤ)

theorem value_of : (Interval.of m e).value = (4 * m) <<< (e - 2).toNat := rfl

theorem lower_of : (Interval.of m e).lower = (4 * m - gapBelow m e) <<< (e - 2).toNat := rfl

theorem upper_of : (Interval.of m e).upper = (4 * m + 2) <<< (e - 2).toNat := rfl

theorem unit_of : (Interval.of m e).unit = 1 <<< (2 - e).toNat := rfl

theorem closed_of : (Interval.of m e).closed = decide (m % 2 = 0) := rfl

end Interval

theorem meets_iff (m : ℕ) (e : ℤ) (d : Decimal) : Meets (.of m e) d ↔ RoundsTo m e d.toRat := by
  rw [Meets, Interval.holds, closed_of, lower_of, upper_of, unit_of, RoundsTo, toRat]
  by_cases heven : m % 2 = 0
  · simp only [heven, decide_true, if_true, decide_eq_true_eq, grid_le_iff, le_grid_iff]
  · simp only [heven, decide_false, Bool.false_eq_true, if_false, decide_eq_true_eq, ← not_le,
      grid_le_iff, le_grid_iff]

/-! ### The search -/

theorem meets_of_nearest? {t : Interval} {j : ℤ} {n : ℕ} (h : t.nearest? j = some n) :
    Meets t ⟨n, j⟩ := by
  rw [Interval.nearest?] at h
  split at h
  · next hbelow habove =>
    obtain rfl := Option.some.inj h
    split
    · exact hbelow
    · exact habove
  · next hbelow _ =>
    obtain rfl := Option.some.inj h
    exact hbelow
  · next _ habove =>
    obtain rfl := Option.some.inj h
    exact habove
  · cases h

/-- The search meets the interval if one of its grids does. -/
theorem meets_search {t : Interval} {grids k : ℕ} {j : ℤ} (hk : k < grids)
    (h : (t.nearest? (j - k)).isSome = true) : Meets t (t.search grids j) := by
  induction grids generalizing j k with
  | zero => omega
  | succ grids ih =>
    rw [Interval.search]
    cases hnearest : t.nearest? j with
    | some n => exact meets_of_nearest? hnearest
    | none =>
      cases k with
      | zero => simp [hnearest] at h
      | succ k =>
        refine ih (k := k) (by omega) ?_
        rwa [show j - 1 - (k : ℤ) = j - (k + 1 : ℕ) by omega]

/-- A grid that is finer than the upper half of the interval has a number in it: the one after the
double. -/
theorem isSome_nearest? {m : ℕ} {e j : ℤ} (h : (10 : ℚ) ^ j < dyadic 2 (e - 2)) :
    ((Interval.of m e).nearest? j).isSome = true := by
  set below := (Interval.of m e).value * 10 ^ (-j).toNat / ((Interval.of m e).unit * 10 ^ j.toNat)
    with hbelow
  have hle : below * (10 : ℚ) ^ j ≤ dyadic (4 * m) (e - 2) := by
    rw [← le_grid_iff, ← value_of, ← unit_of]
    exact Nat.div_mul_le_self _ _
  have hlt : dyadic (4 * m) (e - 2) < (below + 1 : ℕ) * (10 : ℚ) ^ j := by
    rw [← not_le, ← le_grid_iff, ← value_of, ← unit_of, not_le]
    have hpos : 0 < (Interval.of m e).unit * 10 ^ j.toNat := by
      rw [unit_of, Nat.one_shiftLeft]
      positivity
    exact (Nat.lt_mul_div_succ _ hpos).trans_eq (mul_comm _ _)
  have hadd : dyadic (4 * m + 2) (e - 2) = dyadic (4 * m) (e - 2) + dyadic 2 (e - 2) := by
    rw [dyadic, dyadic, dyadic]
    push_cast
    ring
  have hnext : Meets (.of m e) ⟨below + 1, j⟩ := by
    refine (meets_iff m e _).mpr (roundsTo_of_lt hlt ?_)
    rw [hadd]
    push_cast [toRat]
    linarith
  rw [Interval.nearest?]
  split
  · rfl
  · rfl
  · rfl
  · next _ hnot => exact absurd hnext (Bool.eq_false_iff.mp hnot)

/-! ### The first grid -/

theorem zpow_le_two_zpow {b : ℚ} {q : ℕ} (hlow : 2 ^ q ≤ b) (hhigh : b ≤ 2 ^ (q + 1)) {n : ℤ}
    (hn : n ≤ q) : b ^ n ≤ 2 ^ (q * (n + 1)) := by
  have hb : 0 < b := lt_of_lt_of_le (by positivity) hlow
  obtain hpos | hneg := le_total 0 n
  · calc b ^ n ≤ (2 ^ (q + 1)) ^ n := zpow_le_zpow_left₀ hpos hb.le hhigh
      _ = 2 ^ ((q + 1 : ℕ) * n) := by rw [← zpow_natCast, ← zpow_mul]
      _ ≤ 2 ^ (q * (n + 1)) := two_zpow_le.mpr (by push_cast; linarith)
  · have hinv : (b ^ (-n))⁻¹ ≤ ((2 ^ q) ^ (-n))⁻¹ :=
      inv_anti₀ (by positivity) (zpow_le_zpow_left₀ (neg_nonneg.mpr hneg) (by positivity) hlow)
    calc b ^ n ≤ (2 ^ q) ^ n := by rwa [zpow_neg, zpow_neg, inv_inv, inv_inv] at hinv
      _ = 2 ^ (q * n) := by rw [← zpow_natCast, ← zpow_mul]
      _ ≤ 2 ^ (q * (n + 1)) := two_zpow_le.mpr (by linarith)

/-- Where `2 ^ q` and `10 ^ p` are close, `p / q` turns a binary exponent into a decimal one. -/
theorem ten_zpow_le {p q : ℕ} (hq : 0 < q) (hlow : 2 ^ q ≤ 10 ^ p) (hhigh : 10 ^ p ≤ 2 ^ (q + 1))
    {n : ℤ} (hn : n ≤ q) : (10 : ℚ) ^ (n * p / q) ≤ 2 ^ (n + 1) := by
  have hpower : ((10 : ℚ) ^ p) ^ n ≤ 2 ^ (q * (n + 1)) :=
    zpow_le_two_zpow (by exact_mod_cast hlow) (by exact_mod_cast hhigh) hn
  refine le_of_pow_le_pow_left₀ hq.ne' (by positivity) ?_
  calc ((10 : ℚ) ^ (n * p / q)) ^ q = 10 ^ (n * p / q * q) := by rw [← zpow_natCast, ← zpow_mul]
    _ ≤ 10 ^ (n * p) := zpow_le_zpow_right₀ (by norm_num) (Int.ediv_mul_le _ (by omega))
    _ = (10 ^ p) ^ n := by rw [mul_comm, zpow_mul, zpow_natCast]
    _ ≤ 2 ^ (q * (n + 1)) := hpower
    _ = (2 ^ (n + 1)) ^ q := by rw [mul_comm, zpow_mul, zpow_natCast]

/-- Nineteen grids below the first one, the grid is finer than any interval. -/
theorem ten_zpow_lt {m : ℕ} {e : ℤ} (hm : 0 < m) (hm53 : m < 2 ^ 53) (he : e ≤ 971) :
    (10 : ℚ) ^ ((m.log2 + 1 + e) * 30103 / 100000 + 1 - 19) < dyadic 2 (e - 2) := by
  have hlog : m.log2 < 53 := (Nat.log2_lt hm.ne').mpr hm53
  have hpower : (10 : ℚ) ^ ((m.log2 + 1 + e) * (30103 : ℕ) / (100000 : ℕ)) ≤
      2 ^ (m.log2 + 1 + e + 1) :=
    ten_zpow_le (by norm_num) (by decide +kernel) (by decide +kernel) (by push_cast; omega)
  calc (10 : ℚ) ^ ((m.log2 + 1 + e) * 30103 / 100000 + 1 - 19)
      = 10 ^ ((m.log2 + 1 + e) * 30103 / 100000) / 10 ^ 18 := by
        rw [show ∀ i : ℤ, i + 1 - 19 = i - (18 : ℕ) from fun i => by omega,
          zpow_sub₀ (by norm_num), zpow_natCast]
    _ ≤ 2 ^ (m.log2 + 1 + e + 1) / 10 ^ 18 := by gcongr; exact hpower
    _ < 2 ^ (m.log2 + 1 + e + 1) / 2 ^ 59 := by gcongr; norm_num
    _ = 2 ^ (m.log2 + 1 + e + 1 - (59 : ℕ)) := by rw [zpow_sub₀ (by norm_num), zpow_natCast]
    _ ≤ 2 ^ (e - 1) := two_zpow_le.mpr (by push_cast; omega)
    _ = dyadic 2 (e - 2) := by
        rw [dyadic, Nat.cast_ofNat, ← zpow_one_add₀ (by norm_num)]
        congr 1
        omega

theorem roundsTo_shortest {m : ℕ} {e : ℤ} (hm : 0 < m) (hm53 : m < 2 ^ 53) (he : e ≤ 971) :
    RoundsTo m e (shortest m e).toRat := by
  rw [shortest, if_neg hm.ne']
  exact (meets_iff m e _).mp
    (meets_search (k := 19) (by omega) (isSome_nearest? (ten_zpow_lt hm hm53 he)))

end Decimal

namespace Binary64

open Float.Model.UnpackedFloat in
/-- Two doubles have the same shortest decimal only if they are the same. -/
theorem eq_of_shortest_eq {x y : Float} {m k : ℕ} {e f : ℤ} {hm : 0 < m} {hk : 0 < k}
    (hx : value x = .finite .positive m e hm) (hy : value y = .finite .positive k f hk)
    (h : (Decimal.shortest m e).toRat = (Decimal.shortest k f).toRat) : x = y := by
  have hcanonical := canonical_value x
  have hcanonical' := canonical_value y
  rw [hx] at hcanonical
  rw [hy] at hcanonical'
  have hrounds := Decimal.roundsTo_shortest hm hcanonical.1 (exponent_le_of_value hx)
  have hrounds' := Decimal.roundsTo_shortest hk hcanonical'.1 (exponent_le_of_value hy)
  rw [← h] at hrounds'
  obtain hlt | heq | hgt := lt_trichotomy (dyadic m e) (dyadic k f)
  · exact absurd (hrounds.lt_of_lt hcanonical hcanonical' hlt hrounds') (lt_irrefl _)
  · have hpos : IsPositive (value x) := hx ▸ .finite m e hm
    have hpos' : IsPositive (value y) := hy ▸ .finite k f hk
    refine eq_of_beq ((beq_iff_size_eq hpos hpos').mpr ?_) (signs_of_pos ?_).1
    · rw [hx, hy, size, size, heq]
    · rw [pos_iff, hx]
      exact above_finite m e hm
  · exact absurd (hrounds'.lt_of_lt hcanonical' hcanonical hgt hrounds) (lt_irrefl _)

end Binary64

end EllipticPlot
