import EllipticPlot.Proofs.Binary64Nearest

/-!
# Order and differences of doubles

Two values with positive sign are ordered by their sizes, and the sign of their difference is their
order: a difference of doubles that is not zero is not rounded to zero. Only infinity has no
difference from itself.
-/

namespace EllipticPlot.Binary64

open Float.Model (UnpackedFloat)
open Float.Model.UnpackedFloat

/-! ### Order -/

theorem dyadic_lt_dyadic {m k : ℕ} {e : ℤ} : dyadic m e < dyadic k e ↔ m < k :=
  lt_iff_lt_of_le_iff_le dyadic_le_dyadic

theorem dyadic_inj {m k : ℕ} {e : ℤ} : dyadic m e = dyadic k e ↔ m = k := by
  rw [le_antisymm_iff, dyadic_le_dyadic, dyadic_le_dyadic, le_antisymm_iff]

/-- Of two canonical values the one with the larger exponent is larger. -/
theorem dyadic_lt_of_exponent_lt {s t : Sign} {m k : ℕ} {e f : ℤ} {hm : 0 < m} {hk : 0 < k}
    (hu : Canonical (.finite s m e hm)) (hv : Canonical (.finite t k f hk)) (h : e < f) :
    dyadic m e < dyadic k f := by
  obtain ⟨hm53, hlow, -⟩ := hu
  have hlong : 2 ^ 52 ≤ k := hv.2.2.resolve_right (by omega)
  calc dyadic m e < dyadic (2 ^ 53) e := dyadic_lt_dyadic.mpr hm53
    _ = dyadic (2 ^ 52) (e + 1) := (dyadic_carry e).symm
    _ ≤ dyadic (2 ^ 52) f := mul_le_mul_of_nonneg_left (two_zpow_le.mpr h) (by positivity)
    _ ≤ dyadic k f := dyadic_le_dyadic.mpr hlong

/-- Of two canonical values the larger one has the larger exponent, or the larger mantissa. -/
theorem compare_finite {s t : Sign} {m k : ℕ} {e f : ℤ} {hm : 0 < m} {hk : 0 < k}
    (hu : Canonical (.finite s m e hm)) (hv : Canonical (.finite t k f hk)) :
    (compare e f).then (compare m k) =
      compare (size (.finite s m e hm)) (size (.finite t k f hk)) := by
  obtain hlt | rfl | hgt := lt_trichotomy e f
  · have hsize := WithTop.coe_lt_coe.mpr (dyadic_lt_of_exponent_lt hu hv hlt)
    rw [compare_lt_iff_lt.mpr hlt, size, size, compare_lt_iff_lt.mpr hsize]
    rfl
  · rw [compare_eq_iff_eq.mpr rfl]
    obtain hlt | rfl | hgt := lt_trichotomy m k
    · have hsize := WithTop.coe_lt_coe.mpr (dyadic_lt_dyadic (e := e).mpr hlt)
      rw [compare_lt_iff_lt.mpr hlt, size, size, compare_lt_iff_lt.mpr hsize]
      rfl
    · rw [compare_eq_iff_eq.mpr rfl, size, size, compare_eq_iff_eq.mpr rfl]
      rfl
    · have hsize := WithTop.coe_lt_coe.mpr (dyadic_lt_dyadic (e := e).mpr hgt)
      rw [compare_gt_iff_gt.mpr hgt, size, size, compare_gt_iff_gt.mpr hsize]
      rfl
  · have hsize := WithTop.coe_lt_coe.mpr (dyadic_lt_of_exponent_lt hv hu hgt)
    rw [compare_gt_iff_gt.mpr hgt, size, size, compare_gt_iff_gt.mpr hsize]
    rfl

theorem compare_of_isPositive {u v : UnpackedFloat} (hu : Canonical u) (hv : Canonical v)
    (hpu : IsPositive u) (hpv : IsPositive v) : u.compare v = some (compare (size u) (size v)) := by
  have hpos : ∀ {m : ℕ} {e : ℤ}, 0 < m → (0 : WithTop ℚ) < (dyadic m e : ℚ) :=
    fun hm => WithTop.coe_lt_coe.mpr (dyadic_pos hm _)
  cases hpu with
  | zero =>
    cases hpv with
    | zero => rfl
    | infinity => rfl
    | finite k f hk => exact congrArg some (compare_lt_iff_lt.mpr (hpos hk)).symm
  | infinity =>
    cases hpv with
    | zero => rfl
    | infinity => rfl
    | finite k f hk => rfl
  | finite m e hm =>
    cases hpv with
    | zero => exact congrArg some (compare_gt_iff_gt.mpr (hpos hm)).symm
    | infinity => rfl
    | finite k f hk => exact congrArg some (compare_finite hu hv)

section Order

variable {x y : Float} (hx : IsPositive (value x)) (hy : IsPositive (value y))

include hx hy

theorem compare_value :
    (value x).compare (value y) = some (compare (size (value x)) (size (value y))) :=
  compare_of_isPositive (canonical_value x) (canonical_value y) hx hy

theorem le_iff_size_le : x ≤ y ↔ size (value x) ≤ size (value y) := by
  rw [le_iff, UnpackedFloat.le, compare_value hx hy, Option.any_some, Ordering.isLE_iff_ne_gt]
  exact compare_le_iff_le

theorem lt_iff_size_lt : x < y ↔ size (value x) < size (value y) := by
  rw [lt_iff, UnpackedFloat.lt, compare_value hx hy, beq_iff_eq, Option.some_inj,
    compare_lt_iff_lt]

theorem beq_iff_size_eq : (x == y) = true ↔ size (value x) = size (value y) := by
  have hbeq : (x == y) = (value x).beq (value y) := rfl
  rw [hbeq, UnpackedFloat.beq, compare_value hx hy, beq_iff_eq, Option.some_inj,
    compare_eq_iff_eq]

/-- A power of two between two doubles tells their order. -/
theorem lt_of_atMost {i j : ℤ} (hi : AtMost i (value x)) (hj : AtLeast j (value y)) (h : i < j) :
    x < y := by
  have hpower : ((2 ^ i : ℚ) : WithTop ℚ) < (2 ^ j : ℚ) :=
    WithTop.coe_lt_coe.mpr (zpow_lt_zpow_right₀ (by norm_num) h)
  rw [lt_iff_size_lt hx hy]
  exact ((atMost_iff_size.mp hi).trans_lt hpower).trans_le (le_size_of_atLeast hj)

end Order

/-! ### Signs -/

/-- A value above zero. -/
def Above (u : UnpackedFloat) : Prop := IsPositive u ∧ 0 < size u

theorem size_pos_of_atLeast {n : ℤ} {u : UnpackedFloat} (h : AtLeast n u) : 0 < size u :=
  (WithTop.coe_lt_coe.mpr (two_zpow_pos n)).trans_le (le_size_of_atLeast h)

theorem above_of_atLeast {n : ℤ} {u : UnpackedFloat} (hpos : IsPositive u) (h : AtLeast n u) :
    Above u :=
  ⟨hpos, size_pos_of_atLeast h⟩

theorem above_finite (m : ℕ) (e : ℤ) (hm : 0 < m) : Above (.finite .positive m e hm) :=
  ⟨.finite m e hm, WithTop.coe_lt_coe.mpr (dyadic_pos hm e)⟩

theorem pos_iff {x : Float} : 0.0 < x ↔ Above (value x) := by
  have hzero : IsPositive (value 0.0) := .zero
  constructor
  · intro h
    have hpos := isPositive_of_pos h
    exact ⟨hpos, (lt_iff_size_lt hzero hpos).mp h⟩
  · exact fun ⟨hpos, hsize⟩ => (lt_iff_size_lt hzero hpos).mpr hsize

theorem neg_iff {x : Float} : x < 0.0 ↔ Above (value x).neg := by
  rw [← value_neg, ← pos_iff, lt_iff, lt_iff, value_neg, value_zero]
  cases value x with
  | zero s => exact Iff.rfl
  | notANumber => exact Iff.rfl
  | infinity s => cases s <;> exact Iff.rfl
  | finite s m e hm => cases s <;> exact Iff.rfl

theorem isNaN_iff_value {x : Float} : x.isNaN = true ↔ value x = .notANumber := by
  change (value x).isNaN = true ↔ _
  cases value x <;> simp [UnpackedFloat.isNaN]

theorem Above.not_zero {u : UnpackedFloat} (h : Above u) (s : Sign) : u ≠ .zero s := by
  rintro rfl
  exact lt_irrefl _ h.2

theorem Above.not_neg {u : UnpackedFloat} (h : Above u) : ¬ Above u.neg := by
  intro hneg
  obtain ⟨hpos, hsize⟩ := h
  cases hpos with
  | zero => exact lt_irrefl _ hsize
  | _ => cases hneg.1

/-- Zeros have no sign here. -/
theorem Same.above {u v : UnpackedFloat} (h : Same u v) (hu : Above u) : Above v := by
  obtain rfl | ⟨⟨s, rfl⟩, -⟩ := h
  · exact hu
  · exact absurd rfl (hu.not_zero s)

theorem Above.atLeast {x : Float} (h : Above (value x)) : AtLeast (-1074) (value x) := by
  obtain ⟨hpos, hsize⟩ := h
  cases hx : value x with
  | zero s =>
    rw [hx] at hsize
    exact absurd hsize (lt_irrefl _)
  | finite s m e hm =>
    have hlow := (value_bounds hx).2
    exact (two_zpow_le.mpr (by omega)).trans (two_zpow_log2_le hm e)
  | infinity s => trivial
  | notANumber =>
    rw [hx] at hpos
    cases hpos

/-- A positive number is no zero, no negative number, and a number. -/
theorem signs_of_pos {x : Float} (h : 0.0 < x) :
    (x == 0.0) = false ∧ ¬ x < 0.0 ∧ x.isNaN = false := by
  have habove := pos_iff.mp h
  refine ⟨?_, ?_, ?_⟩
  · rw [← Bool.not_eq_true, beq_zero_iff]
    exact fun ⟨s, hs⟩ => habove.not_zero s hs
  · rw [neg_iff]
    exact habove.not_neg
  · rw [← Bool.not_eq_true, isNaN_iff_value]
    intro hnan
    rw [hnan] at habove
    cases habove.1

theorem signs_of_neg {x : Float} (h : x < 0.0) :
    (x == 0.0) = false ∧ ¬ 0.0 < x ∧ x.isNaN = false := by
  have habove := neg_iff.mp h
  refine ⟨?_, fun hpos => (signs_of_pos hpos).2.1 h, ?_⟩
  · rw [← Bool.not_eq_true, beq_zero_iff]
    rintro ⟨s, hs⟩
    rw [hs] at habove
    exact habove.not_zero (-s) rfl
  · rw [← Bool.not_eq_true, isNaN_iff_value]
    intro hnan
    rw [hnan] at habove
    cases habove.1

/-! ### Values that are not negative -/

/-- Not negative, whatever the sign of a zero. -/
def NotBelow (u : UnpackedFloat) : Prop := IsPositive u ∨ ∃ s, u = .zero s

theorem notBelow_of_nonneg {x : Float} (h : 0.0 ≤ x) : NotBelow (value x) := by
  rw [le_iff, value_zero] at h
  cases hx : value x with
  | zero s => exact .inr ⟨s, rfl⟩
  | finite s m e hm =>
    cases s with
    | positive => exact .inl (.finite m e hm)
    | negative => simp [hx, UnpackedFloat.le, UnpackedFloat.compare] at h
  | infinity s =>
    cases s with
    | positive => exact .inl .infinity
    | negative => simp [hx, UnpackedFloat.le, UnpackedFloat.compare] at h
  | notANumber => simp [hx, UnpackedFloat.le, UnpackedFloat.compare] at h

/-- A number is not negative, or its negative is positive. -/
theorem notBelow_or_neg {x : Float} (h : Scalar.isFinite x = true) :
    NotBelow (value x) ∨ IsPositive (value (-x)) := by
  have hfinite : (value x).isFinite = true := h
  rw [value_neg]
  cases hx : value x with
  | zero s => exact .inl (.inr ⟨s, rfl⟩)
  | finite s m e hm =>
    cases s with
    | positive => exact .inl (.inl (.finite m e hm))
    | negative => exact .inr (.finite m e hm)
  | _ =>
    rw [hx] at hfinite
    cases hfinite

theorem NotBelow.above {u : UnpackedFloat} (h : NotBelow u) (hsize : 0 < size u) : Above u := by
  obtain hpos | ⟨s, rfl⟩ := h
  · exact ⟨hpos, hsize⟩
  · exact absurd hsize (lt_irrefl _)

theorem NotBelow.exists_zero {u : UnpackedFloat} (h : NotBelow u) (hnot : ¬ Above u) :
    ∃ s, u = .zero s := by
  obtain hpos | hzero := h
  · cases hpos with
    | zero => exact ⟨_, rfl⟩
    | finite m e hm => exact absurd (above_finite m e hm) hnot
    | infinity => exact absurd ⟨.infinity, WithTop.coe_lt_top 0⟩ hnot
  · exact hzero

section NotBelow

variable {x y : Float} (hx : IsPositive (value x)) (hy : NotBelow (value y))
  (h : Above (value x) ∨ Above (value y))

include hx hy h

/-- A sum of values that are not negative is zero only if both are. -/
theorem above_add : Above (value (x + y)) := by
  obtain hy | ⟨s, hs⟩ := hy
  · refine above_of_atLeast (isPositive_add hx hy) (atLeast_add hx hy le_rfl ?_)
    exact h.imp Above.atLeast Above.atLeast
  · have habove : Above (value x) := h.resolve_right fun hzero => hzero.not_zero s hs
    have hstored := stored_value x
    rw [value_add, hs]
    generalize value x = u at *
    cases hx with
    | zero => exact absurd rfl (habove.not_zero _)
    | infinity => exact hstored.symm ▸ habove
    | finite m e hm => exact hstored.symm ▸ habove

theorem not_le_neg : ¬ x ≤ -y := by
  rw [le_iff, value_neg]
  generalize value x = u at *
  generalize value y = v at *
  obtain hy | ⟨t, rfl⟩ := hy
  · cases hx with
    | zero =>
      have habove := h.resolve_left fun hzero => hzero.not_zero _ rfl
      cases hy with
      | zero => exact absurd rfl (habove.not_zero _)
      | _ => exact Bool.false_ne_true
    | _ => cases hy <;> exact Bool.false_ne_true
  · have habove := h.resolve_right fun hzero => hzero.not_zero _ rfl
    cases hx with
    | zero => exact absurd rfl (habove.not_zero _)
    | _ => exact Bool.false_ne_true

end NotBelow

/-! ### Differences -/

/-- A positive number is not rounded to zero. -/
theorem above_round {m : ℕ} (hm : 0 < m) {e : ℤ} (he : -1074 ≤ e) :
    Above (stored (UnpackedFloat.round .binary64 .positive m e)) := by
  have hcanonical := canonical_round_exact .positive m e
  have hlow : (2 : ℚ) ^ (-1074 : ℤ) ≤ dyadic m e :=
    (two_zpow_le.mpr (by omega)).trans (two_zpow_log2_le hm e)
  exact above_of_atLeast (isPositive_stored hcanonical (isPositive_round _ _ _))
    (atLeast_stored hcanonical (atLeast_round_exact .positive le_rfl hlow))

/-- The exact difference of two numbers is taken at their smaller exponent. -/
theorem sub_finite {m k : ℕ} {e f : ℤ} (hm : 0 < m) (hk : 0 < k) :
    ∃ m' k' : ℕ, dyadic m' (min e f) = dyadic m e ∧ dyadic k' (min e f) = dyadic k f ∧
      sub .binary64 (.finite .positive m e hm) (.finite .positive k f hk) =
        UnpackedFloat.normalize .binary64 (m' - k') (min e f) .positive :=
  ⟨_, _, dyadic_decreaseExponent (min_le_left e f), dyadic_decreaseExponent (min_le_right e f),
    rfl⟩

theorem sub_anticomm (u v : UnpackedFloat) :
    Same (sub .binary64 u v) (sub .binary64 v u).neg := by
  cases u with
  | finite s m e hm =>
    cases v with
    | finite t k f hk =>
      simp only [UnpackedFloat.sub, min_comm f e]
      rw [← neg_sub]
      exact normalize_neg _ _ _
    | infinity t => cases t <;> exact .refl _
    | zero t => cases s <;> exact .refl _
    | notANumber => exact .refl _
  | zero s =>
    cases v with
    | zero t => cases s <;> cases t <;> exact same_zero _ _
    | infinity t => cases t <;> exact .refl _
    | finite t k f hk => cases t <;> exact .refl _
    | notANumber => exact .refl _
  | infinity s =>
    cases v with
    | infinity t => cases s <;> cases t <;> exact .refl _
    | _ => cases s <;> exact .refl _
  | notANumber => cases v <;> exact .refl _

section Difference

variable {x y : Float} (hx : IsPositive (value x)) (hy : IsPositive (value y))

include hx hy

theorem above_sub (h : size (value y) < size (value x)) : Above (value (x - y)) := by
  have hcanonical := canonical_value x
  have hcanonical' := canonical_value y
  have hstored := stored_value x
  rw [value_sub]
  generalize value x = u at *
  generalize value y = v at *
  cases hx with
  | zero => exact absurd h (size_nonneg v).not_gt
  | infinity =>
    cases hy with
    | infinity => exact absurd h (lt_irrefl ⊤)
    | _ =>
      change Above (stored (.infinity .positive))
      rw [stored_infinity]
      exact ⟨.infinity, WithTop.coe_lt_top 0⟩
  | finite m e hm =>
    cases hy with
    | infinity => exact absurd h not_top_lt
    | zero => exact hstored.symm ▸ ⟨.finite m e hm, h⟩
    | finite k f hk =>
      obtain ⟨m', k', hm', hk', hsub⟩ := sub_finite (e := e) (f := f) hm hk
      have hlt : k' < m' := by
        rw [size, size, WithTop.coe_lt_coe, ← hm', ← hk'] at h
        exact dyadic_lt_dyadic.mp h
      rw [hsub, normalize_of_pos (by omega)]
      exact above_round (by omega) (le_min hcanonical.2.1 hcanonical'.2.1)

omit hx hy in
theorem above_neg_sub (h : Above (value (y - x))) : Above (value (x - y)).neg := by
  rw [value_sub] at h ⊢
  rw [← stored_neg]
  have hsame := (sub_anticomm (value y) (value x)).packed
  exact hsame.above h

/-- Equal numbers cancel, infinity does not. -/
theorem sub_of_size_eq (h : size (value x) = size (value y)) :
    size (value x) ≠ ⊤ ∧ (x - y == 0.0) = true ∨
      size (value x) = ⊤ ∧ value (x - y) = .notANumber := by
  rw [beq_zero_iff, value_sub]
  generalize value x = u at *
  generalize value y = v at *
  cases hx with
  | zero =>
    cases hy with
    | zero => exact .inl ⟨WithTop.coe_ne_top, .positive, stored_zero _⟩
    | finite k f hk => exact absurd (WithTop.coe_injective h) (dyadic_pos hk f).ne
    | infinity => cases h
  | infinity =>
    cases hy with
    | infinity => exact .inr ⟨rfl, stored_notANumber⟩
    | _ => cases h
  | finite m e hm =>
    cases hy with
    | zero => exact absurd (WithTop.coe_injective h) (dyadic_pos hm e).ne'
    | infinity => cases h
    | finite k f hk =>
      left
      obtain ⟨m', k', hm', hk', hsub⟩ := sub_finite (e := e) (f := f) hm hk
      have heq : m' = k' := by
        have hsize : dyadic m e = dyadic k f := WithTop.coe_injective h
        rw [← hm', ← hk'] at hsize
        exact dyadic_inj.mp hsize
      refine ⟨WithTop.coe_ne_top, .positive, ?_⟩
      rw [hsub, heq, sub_self]
      exact stored_zero .positive

theorem sub_pos_of_size_lt (h : size (value y) < size (value x)) : 0.0 < x - y :=
  pos_iff.mpr (above_sub hx hy h)

theorem sub_neg_of_size_lt (h : size (value x) < size (value y)) : x - y < 0.0 :=
  neg_iff.mpr (above_neg_sub (above_sub hy hx h))

end Difference

end EllipticPlot.Binary64
