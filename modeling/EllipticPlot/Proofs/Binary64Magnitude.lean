import EllipticPlot.Proofs.Binary64Difference

/-!
# Magnitude and sign

A finite double other than zero is told by its magnitude and its sign. Doubles that compare as equal
are the same, up to the sign of a zero.
-/

namespace EllipticPlot.Binary64

open Float.Model (UnpackedFloat)
open Float.Model.UnpackedFloat

variable {x y : Float}

/-! ### Equality -/

/-- Only zeros share their rank. -/
theorem same_of_rank {u v : UnpackedFloat} {a : ℤ ×ₗ ℤ ×ₗ ℤ} (hu : rank? u = some a)
    (hv : rank? v = some a) : Same u v := by
  rw [← hv] at hu
  cases u with
  | notANumber => exact nomatch hu.trans hv
  | zero s =>
    cases v with
    | notANumber => cases hv
    | zero t => exact same_zero s t
    | infinity t => cases t <;> simp [rank?] at hu
    | finite t n f hn => cases t <;> simp [rank?] at hu
  | infinity s =>
    cases v with
    | notANumber => cases hv
    | zero t => cases s <;> simp [rank?] at hu
    | infinity t => cases s <;> cases t <;> simp [rank?, Same] at hu ⊢
    | finite t n f hn => cases s <;> cases t <;> simp [rank?] at hu
  | finite s m e hm =>
    cases v with
    | notANumber => cases hv
    | zero t => cases s <;> simp [rank?] at hu
    | infinity t => cases s <;> cases t <;> simp [rank?] at hu
    | finite t n f hn => cases s <;> cases t <;> simp [rank?, Same] at hu ⊢ <;> omega

theorem alike_of_beq (h : (x == y) = true) : Scalar.Alike x y := by
  obtain ⟨a, hx, hy⟩ := (beq_iff_rank x y).mp h
  exact (alike_iff x y).mpr (same_of_rank hx hy)

/-- Numbers compare as equal if they are the same, or both zero. -/
theorem beq_iff_alike (hx : Scalar.isFinite x = true) : (x == y) = true ↔ Scalar.Alike x y := by
  refine ⟨alike_of_beq, ?_⟩
  rintro (rfl | ⟨hx, hy⟩)
  · exact isNumber_of_isFinite hx
  · obtain ⟨s, hs⟩ := (beq_zero_iff x).mp hx
    obtain ⟨t, ht⟩ := (beq_zero_iff y).mp hy
    exact (beq_iff_rank x y).mpr ⟨_, congrArg rank? hs, congrArg rank? ht⟩

theorem eq_of_beq (h : (x == y) = true) (hx : (x == 0.0) = false) : x = y := by
  obtain heq | ⟨hzero, -⟩ := alike_of_beq h
  · exact heq
  · rw [hx] at hzero
    cases hzero

/-! ### Magnitude and sign -/

theorem pos_or_neg (hx : Scalar.isFinite x = true) (hne : (x == 0.0) = false) :
    0.0 < x ∨ x < 0.0 := by
  have hfinite : (value x).isFinite = true := hx
  have hnot := mt (beq_zero_iff x).mpr (Bool.eq_false_iff.mp hne)
  rw [pos_iff, neg_iff]
  cases hvalue : value x with
  | zero s => exact absurd ⟨s, hvalue⟩ hnot
  | finite s m e hm =>
    cases s with
    | positive => exact .inl (above_finite m e hm)
    | negative => exact .inr (above_finite m e hm)
  | _ =>
    rw [hvalue] at hfinite
    cases hfinite

theorem abs_eq_self_of_pos (h : 0.0 < x) : Scalar.abs x = x := by
  apply value_injective
  have habs : (value x).abs = value x := by
    have hpos := isPositive_of_pos h
    generalize value x = u at hpos
    cases hpos <;> rfl
  exact (congrArg stored habs).trans (stored_value x)

theorem neg_pos_of_lt_zero (h : x < 0.0) : 0.0 < -x := by
  rw [pos_iff, value_neg]
  exact neg_iff.mp h

theorem abs_eq_neg_of_neg (h : x < 0.0) : Scalar.abs x = -x := by
  have hneg : Scalar.abs (-x) = Scalar.abs x := by
    apply value_injective
    change value (-x).abs = value x.abs
    rw [value_abs, value_neg, abs_neg_eq, value_abs]
  exact hneg.symm.trans (abs_eq_self_of_pos (neg_pos_of_lt_zero h))

/-- A positive finite number, as magnitudes are. -/
structure IsMagnitude (x : Float) : Prop where
  pos : 0.0 < x
  finite : Scalar.isFinite x = true

theorem isMagnitude_abs (hx : Scalar.isFinite x = true) (hne : (x == 0.0) = false) :
    IsMagnitude (Scalar.abs x) := by
  obtain hpos | hneg := pos_or_neg hx hne
  · rw [abs_eq_self_of_pos hpos]
    exact ⟨hpos, hx⟩
  · rw [abs_eq_neg_of_neg hneg]
    refine ⟨neg_pos_of_lt_zero hneg, ?_⟩
    have hfinite : (value x).neg.isFinite = (value x).isFinite := isFinite_turn true (value x)
    rw [← value_neg] at hfinite
    exact hfinite.trans hx

/-- A number other than zero is told by its sign and its magnitude. -/
theorem eq_of_abs_eq (hx : Scalar.isFinite x = true) (hnex : (x == 0.0) = false)
    (hy : Scalar.isFinite y = true) (hney : (y == 0.0) = false)
    (habs : Scalar.abs x = Scalar.abs y) (hsign : x < 0.0 ↔ y < 0.0) : x = y := by
  obtain hpos | hneg := pos_or_neg hx hnex
  · have hposy : 0.0 < y :=
      (pos_or_neg hy hney).resolve_right (mt hsign.mpr (signs_of_pos hpos).2.1)
    rwa [abs_eq_self_of_pos hpos, abs_eq_self_of_pos hposy] at habs
  · rw [abs_eq_neg_of_neg hneg, abs_eq_neg_of_neg (hsign.mp hneg)] at habs
    rw [← neg_neg_float x, habs, neg_neg_float]

end EllipticPlot.Binary64
