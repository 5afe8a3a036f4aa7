import EllipticPlot.Proofs.Binary64Difference

/-!
# Doubles as real numbers

A finite double stands for a real number, and finite doubles compare as these numbers do.
-/

namespace EllipticPlot.Binary64

open Float.Model (UnpackedFloat)
open Float.Model.UnpackedFloat

def signed (s : Sign) (x : ℝ) : ℝ :=
  match s with
  | .positive => x
  | .negative => -x

/-- The number that a finite value stands for; all others stand for zero. -/
def number : UnpackedFloat → ℝ
  | .finite s m e _ => signed s (dyadic m e)
  | _ => 0

def real (x : Float) : ℝ := number (value x)

theorem signed_zero (s : Sign) : signed s 0 = 0 := by
  cases s
  · exact neg_zero
  · rfl

theorem signed_neg (s : Sign) (x : ℝ) : signed (-s) x = -signed s x := by
  cases s
  · exact (neg_neg x).symm
  · rfl

theorem abs_signed (s : Sign) (x : ℝ) : |signed s x| = |x| := by
  cases s <;> simp [signed]

theorem signed_sub (s : Sign) (x y : ℝ) : signed s x - signed s y = signed s (x - y) := by
  cases s
  · change -x - -y = -(x - y)
    ring
  · rfl

theorem signed_mul (s t : Sign) (x y : ℝ) : signed (s * t) (x * y) = signed s x * signed t y := by
  cases s <;> cases t
  · exact (neg_mul_neg x y).symm
  · exact (neg_mul x y).symm
  · exact (mul_neg x y).symm
  · rfl

theorem signed_div (s t : Sign) (x y : ℝ) : signed (s / t) (x / y) = signed s x / signed t y := by
  cases s <;> cases t
  · exact (neg_div_neg_eq x y).symm
  · exact (neg_div y x).symm
  · exact (div_neg x).symm
  · rfl

theorem signed_mul_right (s : Sign) (x y : ℝ) : signed s (x * y) = signed s x * y := by
  cases s
  · exact (neg_mul x y).symm
  · rfl

theorem cast_apply (s : Sign) (n : ℤ) : ((s.apply n : ℤ) : ℝ) = signed s n := by
  cases s
  · exact Int.cast_neg n
  · rfl

theorem number_neg (u : UnpackedFloat) : number u.neg = -number u := by
  cases u with
  | finite s m e hm => exact signed_neg s _
  | _ => exact neg_zero.symm

theorem real_neg (x : Float) : real (-x) = -real x := by
  rw [real, value_neg, number_neg]
  rfl

theorem cast_dyadic (m : ℕ) (e : ℤ) : ((dyadic m e : ℚ) : ℝ) = m * 2 ^ e := by
  rw [dyadic]
  push_cast
  rfl

theorem real_zpow_pos (n : ℤ) : (0 : ℝ) < 2 ^ n := zpow_pos two_pos n

theorem half_zpow (n : ℤ) : (2 : ℝ) ^ n / 2 = 2 ^ (n - 1) := by
  rw [zpow_sub_one₀ two_ne_zero, div_eq_mul_inv]

theorem cases_of_isFinite {x : Float} (h : Scalar.isFinite x = true) :
    (∃ s, value x = .zero s) ∨ ∃ s m e hm, value x = .finite s m e hm := by
  have hfinite : (value x).isFinite = true := h
  cases hx : value x with
  | zero s => exact .inl ⟨s, rfl⟩
  | finite s m e hm => exact .inr ⟨s, m, e, hm, rfl⟩
  | _ =>
    rw [hx] at hfinite
    cases hfinite

theorem real_of_zero {x : Float} {s : Sign} (h : value x = .zero s) : real x = 0 := by
  rw [real, h]
  rfl

theorem real_of_finite {x : Float} {s : Sign} {m : ℕ} {e : ℤ} {hm : 0 < m}
    (h : value x = .finite s m e hm) : real x = signed s (m * 2 ^ e) := by
  rw [real, h, number, cast_dyadic]

theorem beq_zero_of_real {x : Float} (hx : Scalar.isFinite x = true) (h : real x = 0) :
    (x == 0.0) = true := by
  obtain ⟨s, hvx⟩ | ⟨s, m, e, hm, hvx⟩ := cases_of_isFinite hx
  · exact (beq_zero_iff x).mpr ⟨s, hvx⟩
  · have hpos : (0 : ℝ) < m * 2 ^ e := mul_pos (by exact_mod_cast hm) (real_zpow_pos e)
    have habs : |signed s (m * 2 ^ e)| = m * 2 ^ e := by rw [abs_signed, abs_of_pos hpos]
    rw [← real_of_finite hvx, h, abs_zero] at habs
    exact absurd habs hpos.ne

theorem abs_real_le_of_atMost {x : Float} {n : ℤ} (h : AtMost n (value x)) : |real x| ≤ 2 ^ n := by
  obtain ⟨s, hvx⟩ | ⟨s, m, e, hm, hvx⟩ := cases_of_isFinite (isFinite_of_atMost h)
  · rw [real_of_zero hvx, abs_zero]
    exact (real_zpow_pos n).le
  · have hle : dyadic m e ≤ 2 ^ n := by rwa [hvx] at h
    have hcast : ((dyadic m e : ℚ) : ℝ) ≤ 2 ^ n := by
      refine (Rat.cast_le.mpr hle).trans_eq ?_
      push_cast
      rfl
    rw [real, hvx, number, abs_signed, abs_of_pos (by exact_mod_cast dyadic_pos hm e)]
    exact hcast

theorem le_abs_real_of_atLeast {x : Float} {n : ℤ} (hx : Scalar.isFinite x = true)
    (h : AtLeast n (value x)) : 2 ^ n ≤ |real x| := by
  obtain ⟨s, hvx⟩ | ⟨s, m, e, hm, hvx⟩ := cases_of_isFinite hx
  · rw [hvx] at h
    cases h
  · have hle : 2 ^ n ≤ dyadic m e := by rwa [hvx] at h
    have hcast : (2 : ℝ) ^ n ≤ (dyadic m e : ℚ) := by
      refine le_trans ?_ (Rat.cast_le.mpr hle)
      push_cast
      rfl
    rw [real, hvx, number, abs_signed, abs_of_pos (by exact_mod_cast dyadic_pos hm e)]
    exact hcast

theorem atLeast_of_le_abs_real {x : Float} {n : ℤ} (hx : Scalar.isFinite x = true)
    (h : 2 ^ n ≤ |real x|) : AtLeast n (value x) := by
  obtain ⟨s, hvx⟩ | ⟨s, m, e, hm, hvx⟩ := cases_of_isFinite hx
  · rw [real_of_zero hvx, abs_zero] at h
    exact absurd h (not_le.mpr (real_zpow_pos n))
  · rw [real, hvx, number, abs_signed, abs_of_pos (by exact_mod_cast dyadic_pos hm e)] at h
    rw [hvx]
    refine (Rat.cast_le (K := ℝ)).mp (le_trans ?_ h)
    push_cast
    rfl

/-! ### Order -/

theorem compare_size {s t : Sign} {m k : ℕ} {e f : ℤ} {hm : 0 < m} {hk : 0 < k} :
    compare (size (.finite s m e hm)) (size (.finite t k f hk)) =
      compare ((dyadic m e : ℚ) : ℝ) (dyadic k f : ℚ) := by
  rw [size, size]
  obtain h | h | h := lt_trichotomy (dyadic m e) (dyadic k f)
  · rw [compare_lt_iff_lt.mpr (WithTop.coe_lt_coe.mpr h), compare_lt_iff_lt.mpr (Rat.cast_lt.mpr h)]
  · rw [h, compare_eq_iff_eq.mpr rfl, compare_eq_iff_eq.mpr rfl]
  · rw [compare_gt_iff_gt.mpr (WithTop.coe_lt_coe.mpr h), compare_gt_iff_gt.mpr (Rat.cast_lt.mpr h)]

theorem swap_compare (a b : ℝ) : (compare a b).swap = compare (-a) (-b) := by
  obtain h | h | h := lt_trichotomy a b
  · rw [compare_lt_iff_lt.mpr h, compare_gt_iff_gt.mpr (neg_lt_neg h)]
    rfl
  · rw [h, compare_eq_iff_eq.mpr rfl, compare_eq_iff_eq.mpr rfl]
    rfl
  · rw [compare_gt_iff_gt.mpr h, compare_lt_iff_lt.mpr (neg_lt_neg h)]
    rfl

/-- Finite values are in the order of the numbers that they stand for. -/
theorem compare_number {u v : UnpackedFloat} (hu : Canonical u) (hv : Canonical v)
    (hfu : u.isFinite = true) (hfv : v.isFinite = true) :
    u.compare v = some (compare (number u) (number v)) := by
  have hpos : ∀ {m : ℕ} (_ : 0 < m) (e : ℤ), (0 : ℝ) < (dyadic m e : ℚ) :=
    fun hm e => by exact_mod_cast dyadic_pos hm e
  cases u with
  | infinity s => cases hfu
  | notANumber => cases hfu
  | zero s =>
    cases v with
    | infinity t => cases hfv
    | notANumber => cases hfv
    | zero t => exact congrArg some (compare_eq_iff_eq.mpr rfl).symm
    | finite t k f hk =>
      cases t with
      | negative => exact congrArg some (compare_gt_iff_gt.mpr (neg_neg_of_pos (hpos hk f))).symm
      | positive => exact congrArg some (compare_lt_iff_lt.mpr (hpos hk f)).symm
  | finite s m e hm =>
    cases v with
    | infinity t => cases hfv
    | notANumber => cases hfv
    | zero t =>
      cases s with
      | negative => exact congrArg some (compare_lt_iff_lt.mpr (neg_neg_of_pos (hpos hm e))).symm
      | positive => exact congrArg some (compare_gt_iff_gt.mpr (hpos hm e)).symm
    | finite t k f hk =>
      have hsizes := (compare_finite hu hv).trans compare_size
      have hbelow := fun {m k : ℕ} (hm : 0 < m) (e f : ℤ) (hk : 0 < k) =>
        (neg_neg_of_pos (hpos hm e)).trans (hpos hk f)
      cases s with
      | negative =>
        cases t with
        | negative => exact congrArg some ((congrArg _ hsizes).trans (swap_compare _ _))
        | positive => exact congrArg some (compare_lt_iff_lt.mpr (hbelow hm e f hk)).symm
      | positive =>
        cases t with
        | negative => exact congrArg some (compare_gt_iff_gt.mpr (hbelow hk f e hm)).symm
        | positive => exact congrArg some hsizes

section

variable {x y : Float} (hx : Scalar.isFinite x = true) (hy : Scalar.isFinite y = true)

include hx hy

theorem le_iff_real_le : x ≤ y ↔ real x ≤ real y := by
  rw [le_iff, UnpackedFloat.le, compare_number (canonical_value x) (canonical_value y) hx hy,
    Option.any_some, Ordering.isLE_iff_ne_gt]
  exact compare_le_iff_le

theorem lt_iff_real_lt : x < y ↔ real x < real y := by
  rw [lt_iff, UnpackedFloat.lt, compare_number (canonical_value x) (canonical_value y) hx hy,
    beq_iff_eq, Option.some_inj, compare_lt_iff_lt]
  rfl

end

theorem value_abs_of_isFinite {x : Float} (hx : Scalar.isFinite x = true) :
    value (Scalar.abs x) = (value x).abs := by
  refine (value_abs x).trans ?_
  obtain ⟨s, hvx⟩ | ⟨s, m, e, hm, hvx⟩ := cases_of_isFinite hx
  · rw [hvx]
    exact stored_zero _
  · have hcanonical : Canonical (.finite s m e hm) := hvx ▸ canonical_value x
    rw [hvx]
    exact stored_of_exponent_le (s := .positive) hcanonical (exponent_le_of_value hvx)

theorem isFinite_abs {x : Float} (hx : Scalar.isFinite x = true) :
    Scalar.isFinite (Scalar.abs x) = true := by
  have hfinite : (value x).isFinite = true := hx
  change (value (Scalar.abs x)).isFinite = true
  rw [value_abs_of_isFinite hx]
  cases hvx : value x <;> rw [hvx] at hfinite <;> exact hfinite

theorem real_abs {x : Float} (hx : Scalar.isFinite x = true) : real (Scalar.abs x) = |real x| := by
  rw [real, value_abs_of_isFinite hx]
  obtain ⟨s, hvx⟩ | ⟨s, m, e, hm, hvx⟩ := cases_of_isFinite hx
  · rw [real_of_zero hvx, hvx, abs_zero]
    rfl
  · have hsize : (0 : ℝ) < m * 2 ^ e := mul_pos (by exact_mod_cast hm) (real_zpow_pos e)
    rw [real_of_finite hvx, hvx, abs_signed, abs_of_pos hsize]
    exact cast_dyadic m e

theorem abs_lt_iff {x bound : Float} (hx : Scalar.isFinite x = true)
    (hbound : Scalar.isFinite bound = true) : Scalar.abs x < bound ↔ |real x| < real bound := by
  rw [lt_iff_real_lt (isFinite_abs hx) hbound, real_abs hx]

end EllipticPlot.Binary64
