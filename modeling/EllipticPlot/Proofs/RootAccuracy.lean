import EllipticPlot.Proofs.Acceptance
import EllipticPlot.Proofs.Binary64Scale
import EllipticPlot.Proofs.Binary64SquareRoot
import EllipticPlot.Proofs.CubicPerturbation
import EllipticPlot.Proofs.SmoothCurve

/-!
# How exact the roots of a cubic are

In doubles Cardano's formula takes the cube roots of two numbers whose sum and product are off by a
few grains, so that what it gives is almost a root of the cubic that it was asked for.
-/

namespace EllipticPlot

open Binary64

/-! ### Constants -/

namespace Binary64

theorem real_half : real 0.5 = 1 / 2 := by
  rw [real_of_finite value_half]
  change ((2 ^ 52 : ℕ) : ℝ) * 2 ^ (-53 : ℤ) = 1 / 2
  norm_num

theorem real_four : real 4.0 = 4 := by
  rw [real_of_finite value_four]
  change ((2 ^ 52 : ℕ) : ℝ) * 2 ^ (-50 : ℤ) = 4
  norm_num

theorem near_third {t : ℝ} : Near t 0 (1 / 3) 1 Scalar.third (1 / 3) := by
  have hreal : real Scalar.third = 6004799503160661 / 2 ^ 54 := by
    rw [real_of_finite value_third]
    change ((6004799503160661 : ℕ) : ℝ) * 2 ^ (-54 : ℤ) = _
    norm_num
  refine ⟨isFinite_of_value value_third, ?_, ?_⟩
  · rw [zpow_zero]
    norm_num
  · rw [hreal, grain_eq, zpow_zero]
    norm_num

end Binary64

namespace DepressedCubic

/-! ### Coefficients -/

section

variable {c : DepressedCubic Float}

/-- The constant is small where the square of its half is a number. -/
theorem atMost_constant (hconstant : Scalar.isFinite c.constant = true)
    (hsquare : Scalar.isFinite (Scalar.sq (0.5 * c.constant)) = true) :
    AtMost 513 (value c.constant) := by
  have hfinite : (value c.constant).isFinite = true := hconstant
  refine (atMost_or_atLeast 513 hfinite).resolve_right fun hlarge => ?_
  have hhalf : AtLeast 512 (value (0.5 * c.constant)) :=
    atLeast_mul constantBounds.half.1 hlarge (by norm_num)
  have hoverflow : AtLeast 1024 (value (Scalar.sq (0.5 * c.constant))) :=
    atLeast_mul hhalf hhalf (by norm_num)
  rw [not_isFinite_of_atLeast hoverflow] at hsquare
  cases hsquare

/-- The linear coefficient is small where the cube of its third is a number. -/
theorem atMost_linear (hlinear : Scalar.isFinite c.linear = true)
    (hcube : Scalar.isFinite (Scalar.cube (Scalar.third * c.linear)) = true) :
    AtMost 345 (value c.linear) := by
  have hfinite : (value c.linear).isFinite = true := hlinear
  refine (atMost_or_atLeast 345 hfinite).resolve_right fun hlarge => ?_
  have hthird : AtLeast 343 (value (Scalar.third * c.linear)) :=
    atLeast_mul constantBounds.third hlarge (by norm_num)
  have hoverflow : AtLeast 1029 (value (Scalar.cube (Scalar.third * c.linear))) :=
    atLeast_mul (atLeast_mul hthird hthird (by norm_num)) hthird (by norm_num)
  rw [not_isFinite_of_atLeast (AtLeast.mono (by norm_num) hoverflow)] at hcube
  cases hcube

end

/-- A scale that the coefficients do not exceed. -/
structure Scaled (c : DepressedCubic Float) (σ : ℝ) : Prop where
  moderate : Moderate σ
  finite_linear : Scalar.isFinite c.linear = true
  finite_constant : Scalar.isFinite c.constant = true
  linear : |real c.linear| ≤ 3 * σ ^ (2 : ℤ)
  constant : |real c.constant| ≤ 2 * σ ^ (3 : ℤ)
  high : σ ≤ 2 ^ (175 : ℤ)

theorem zpow_six (σ : ℝ) : σ ^ (6 : ℤ) = σ ^ 3 * σ ^ 3 := by
  rw [← pow_add]
  rfl

/-- The largest of three numbers. -/
theorem exists_largest {t u w bound : ℝ} (ht : t ≤ bound) (hu : u ≤ bound) (hw : w ≤ bound) :
    ∃ σ, t ≤ σ ∧ u ≤ σ ∧ w ≤ σ ∧ σ ≤ bound ∧ (σ = t ∨ σ = w ∨ σ = u) := by
  refine ⟨max t (max u w), le_max_left _ _, (le_max_left u w).trans (le_max_right _ _),
    (le_max_right u w).trans (le_max_right _ _), max_le ht (max_le hu hw), ?_⟩
  obtain h | h := max_choice t (max u w)
  · exact .inl h
  · exact .inr ((max_choice u w).symm.imp (h.trans ·) (h.trans ·))

/-- The least scale of numbers that are not too small has the size of one of the coefficients. -/
theorem exists_scaled {c : DepressedCubic Float} (hlinear : Scalar.isFinite c.linear = true)
    (hconstant : Scalar.isFinite c.constant = true) (hfinite : Scalar.isFinite c.delta = true) :
    ∃ σ, c.Scaled σ ∧ (σ = 2 ^ (-100 : ℤ) ∨ |real c.linear| = 3 * σ ^ 2 ∨
      |real c.constant| = 2 * σ ^ 3) := by
  obtain ⟨hsquare, hcube⟩ := isFinite_of_isFinite_add hfinite
  have hA := abs_real_le_of_atMost (atMost_linear hlinear hcube)
  have hB := abs_real_le_of_atMost (atMost_constant hconstant hsquare)
  have hu := cbrt_pow_three (|real c.constant| / 2)
  have hw := Real.sq_sqrt (by positivity : 0 ≤ |real c.linear| / 3)
  have hw0 := Real.sqrt_nonneg (|real c.linear| / 3)
  generalize Scalar.cbrt (|real c.constant| / 2) = u at hu
  generalize √(|real c.linear| / 3) = w at hw hw0
  have hu0 : 0 ≤ u := by
    rw [← (odd_two_mul_add_one 1).pow_nonneg_iff]
    exact hu ▸ (by positivity)
  have hu175 : u ≤ 2 ^ (175 : ℤ) := by
    refine le_of_pow_le_pow_left₀ three_ne_zero (real_zpow_pos _).le ?_
    rw [hu, ← zpow_natCast, ← zpow_mul]
    exact (div_le_self (abs_nonneg _) one_le_two).trans
      (hB.trans (zpow_le_zpow_right₀ one_le_two (by norm_num)))
  have hw175 : w ≤ 2 ^ (175 : ℤ) := by
    refine le_of_pow_le_pow_left₀ two_ne_zero (real_zpow_pos _).le ?_
    rw [hw, ← zpow_natCast, ← zpow_mul]
    exact (div_le_self (abs_nonneg _) (by norm_num)).trans
      (hA.trans (zpow_le_zpow_right₀ one_le_two (by norm_num)))
  have hfloor : (2 : ℝ) ^ (-100 : ℤ) ≤ 2 ^ (175 : ℤ) :=
    zpow_le_zpow_right₀ one_le_two (by norm_num)
  obtain ⟨σ, hlow, huσ, hwσ, hhigh, hcases⟩ := exists_largest hfloor hu175 hw175
  refine ⟨σ, ?_, hcases.imp_right (Or.imp ?_ ?_)⟩
  · refine ⟨⟨hlow, hhigh.trans (zpow_le_zpow_right₀ one_le_two (by norm_num))⟩, hlinear,
      hconstant, ?_, ?_, hhigh⟩
    · rw [zpow_ofNat]
      linarith [pow_le_pow_left₀ hw0 hwσ 2]
    · rw [zpow_ofNat]
      linarith [pow_le_pow_left₀ hu0 huσ 3]
  · rintro rfl
    linarith
  · rintro rfl
    linarith

/-- A double next to what Cardano's formula gives, in units of the scale; `κ` is the error of the
product of the two cube roots. -/
inductive AlmostRoot (c : DepressedCubic Float) (σ κ : ℝ) (x : Float) : Prop
  | intro (u v : ℝ)
      (cardano : AlmostCardano (real c.linear / σ ^ 2) (real c.constant / σ ^ 3) u v)
      (product : |3 * (u * v) + real c.linear / σ ^ 2| ≤ κ)
      (y : ℝ) (root : CardanoRoot u v y) (error : |real x / σ - y| ≤ 1 / 2 ^ 40)

/-- A bound for the error of the product that holds however the cube roots are rounded. -/
structure BoundsProduct (c : DepressedCubic Float) (σ κ : ℝ) : Prop where
  le : ∀ {u v}, AlmostCardano (real c.linear / σ ^ 2) (real c.constant / σ ^ 3) u v →
    |3 * (u * v) + real c.linear / σ ^ 2| ≤ κ

variable {c : DepressedCubic Float} {σ : ℝ} (hσ : c.Scaled σ)

include hσ

theorem abs_linear_div_le : |real c.linear / σ ^ 2| ≤ 3 := by
  have hpower := pow_pos hσ.moderate.pos 2
  have hlinear := hσ.linear
  rw [zpow_ofNat] at hlinear
  rwa [abs_div, abs_of_pos hpower, div_le_iff₀ hpower]

namespace AlmostRoot

variable {κ : ℝ} {x : Float} (h : c.AlmostRoot σ κ x)

include h

theorem abs_value_le : |(real x / σ) ^ 3 + real c.linear / σ ^ 2 * (real x / σ) +
    real c.constant / σ ^ 3| ≤ 3 * κ + 1 / 2 ^ 34 := by
  obtain ⟨u, v, hcardano, hκ, y, hy, hxy⟩ := h
  linarith [hcardano.abs_value_le hκ hy, abs_value_sub_le (q := real c.constant / σ ^ 3)
    (abs_linear_div_le hσ) (hcardano.abs_root_le hy) hxy (by norm_num)]

omit hσ in
theorem abs_div_le : |real x / σ| ≤ 4 := by
  obtain ⟨u, v, hcardano, -, y, hy, hxy⟩ := h
  linarith [abs_sub_abs_le_abs_sub (real x / σ) y, hcardano.abs_root_le hy]

/-- Without cancellation the root is as large as the coefficients. -/
theorem le_abs_div (hlinear : real c.linear ≤ 0)
    (hconstant : 19 / 10 ≤ |real c.constant / σ ^ 3|) : 3 / 4 ≤ |real x / σ| := by
  obtain ⟨u, v, hcardano, -, y, hy, hxy⟩ := h
  have hp := div_nonpos_of_nonpos_of_nonneg hlinear (pow_pos hσ.moderate.pos 2).le
  have hroot := hcardano.le_abs_root hp hconstant hy
  rw [abs_sub_comm] at hxy
  linarith [abs_sub_abs_le_abs_sub y (real x / σ)]

end AlmostRoot

/-- A multiple of the constant is rounded once. -/
theorem near_mul_constant {x : Float} (hx : Scalar.isFinite x = true) {d : ℝ}
    (hd : |real x| * 2 ≤ d) (hordinary : Ordinary (x * c.constant) 3 d 0) :
    Near σ 3 d 1 (x * c.constant) (real x * real c.constant) := by
  have hpower := zpow_pos hσ.moderate.pos 3
  have hsize : |real x * real c.constant| ≤ d * σ ^ (3 : ℤ) := by
    rw [abs_mul]
    calc |real x| * |real c.constant| ≤ |real x| * (2 * σ ^ (3 : ℤ)) :=
          mul_le_mul_of_nonneg_left hσ.constant (abs_nonneg _)
      _ = |real x| * 2 * σ ^ (3 : ℤ) := by ring
      _ ≤ d * σ ^ (3 : ℤ) := mul_le_mul_of_nonneg_right hd hpower.le
  refine near_of_rounded hσ.moderate hordinary (rounded_mul hx hσ.finite_constant)
    hsize ?_
  rw [sub_self, abs_zero]
  exact mul_nonneg (by norm_num) (mul_nonneg grain_pos.le ((abs_nonneg _).trans hsize))

theorem near_half : Near σ 3 1 1 (0.5 * c.constant) (1 / 2 * real c.constant) := by
  have hhalf := near_mul_constant hσ (isFinite_of_atMost constantBounds.half.2) (d := 1)
    (by norm_num [real_half]) (by norm_num [ordinary_iff])
  rwa [real_half] at hhalf

theorem near_neg_half : Near σ 3 1 1 (-0.5 * c.constant) (-(1 / 2) * real c.constant) := by
  have hhalf := near_mul_constant hσ (isFinite_of_atMost constantBounds.neg_half) (d := 1)
    (by norm_num [real_neg, real_half]) (by norm_num [ordinary_iff])
  rwa [real_neg, real_half] at hhalf

theorem near_neg_four : Near σ 3 8 1 (-4.0 * c.constant) (-4 * real c.constant) := by
  have hfour := near_mul_constant hσ (isFinite_of_atMost constantBounds.neg_four) (d := 8)
    (by norm_num [real_neg, real_four]) (by norm_num [ordinary_iff])
  rwa [real_neg, real_four] at hfour

theorem near_third_linear :
    Near σ 2 1 2 (Scalar.third * c.linear) (1 / 3 * real c.linear) := by
  have hlinear := near_real hσ.finite_linear hσ.linear
  have hproduct := near_third.mul hσ.moderate hlinear (by norm_num [ordinary_iff])
  exact hproduct.mono hσ.moderate (by norm_num) (by norm_num)

theorem near_delta (hfinite : Scalar.isFinite c.delta = true) :
    Near σ 6 2 9 c.delta ((real c.constant / 2) ^ 2 + (real c.linear / 3) ^ 3) := by
  obtain ⟨hs, hk⟩ := isFinite_of_isFinite_add hfinite
  have hhalf := near_half hσ
  have hthird := near_third_linear hσ
  have hsquare := hhalf.mul hσ.moderate hhalf (by norm_num [ordinary_iff]; exact hs)
  have hcube := (hthird.mul hσ.moderate hthird (by norm_num [ordinary_iff])).mul hσ.moderate hthird
    (by norm_num [ordinary_iff]; exact hk)
  have hexact : (real c.constant / 2) ^ 2 + (real c.linear / 3) ^ 3 =
      1 / 2 * real c.constant * (1 / 2 * real c.constant) +
        1 / 3 * real c.linear * (1 / 3 * real c.linear) * (1 / 3 * real c.linear) := by ring
  rw [hexact]
  have hsum := hsquare.add hσ.moderate hcube (by norm_num [ordinary_iff]; exact hfinite)
  exact hsum.mono hσ.moderate (by norm_num) (by norm_num)

theorem abs_delta_sub_le (hfinite : Scalar.isFinite c.delta = true) :
    |real c.delta - ((real c.constant / 2) ^ 2 + (real c.linear / 3) ^ 3)| ≤
      19 / 2 ^ 53 * (σ ^ 3 * σ ^ 3) := by
  have herror := (near_delta hσ hfinite).error
  have hpower := pow_pos hσ.moderate.pos 3
  rw [zpow_six, grain_eq] at herror
  push_cast at herror
  linarith [mul_pos hpower hpower]

theorem near_sqrt_delta (hfinite : Scalar.isFinite c.delta = true) (hpos : 0 ≤ real c.delta) :
    Near σ 3 (3 / 2) 1 c.delta.sqrt √(real c.delta) := by
  have hordinary : Ordinary c.delta.sqrt 3 (3 / 2) 0 := by norm_num [ordinary_iff]
  have hpower := pow_pos hσ.moderate.pos 3
  refine near_of_rounded hσ.moderate hordinary (rounded_sqrt hfinite hpos) ?_ ?_ <;>
    rw [zpow_ofNat]
  · have hle := (le_abs_self _).trans ((near_delta hσ hfinite).abs_real_le (by norm_num))
    rw [zpow_six] at hle
    rw [abs_of_nonneg (Real.sqrt_nonneg _), Real.sqrt_le_left (by linarith), mul_pow, sq (σ ^ 3)]
    linarith [mul_pos hpower hpower]
  · rw [sub_self, abs_zero]
    exact mul_nonneg (by norm_num) (mul_nonneg grain_pos.le (by linarith))

theorem near_radicands (hfinite : Scalar.isFinite c.delta = true) (hpos : 0 ≤ real c.delta) :
    Near σ 3 (5 / 2) 2 (-0.5 * c.constant + c.delta.sqrt)
        (-(1 / 2) * real c.constant + √(real c.delta)) ∧
      Near σ 3 (5 / 2) 2 (-0.5 * c.constant - c.delta.sqrt)
        (-(1 / 2) * real c.constant - √(real c.delta)) := by
  have hhalf := near_neg_half hσ
  have hroot := near_sqrt_delta hσ hfinite hpos
  constructor
  · exact (hhalf.add hσ.moderate hroot (by norm_num [ordinary_iff])).mono hσ.moderate (by norm_num)
      (by norm_num)
  · exact (hhalf.sub hσ.moderate hroot (by norm_num [ordinary_iff])).mono hσ.moderate (by norm_num)
      (by norm_num)

/-- The sum and the product of the two numbers of which Cardano's formula takes cube roots. -/
theorem abs_radicands_le (hfinite : Scalar.isFinite c.delta = true) (hpos : 0 ≤ real c.delta)
    {x y : Float} (hx : x = -0.5 * c.constant + c.delta.sqrt)
    (hy : y = -0.5 * c.constant - c.delta.sqrt) :
    |real x + real y + real c.constant| ≤ 1 / 2 ^ 47 * σ ^ 3 ∧
      |real x * real y + (real c.linear / 3) ^ 3| ≤ 1 / 2 ^ 47 * (σ ^ 3 * σ ^ 3) := by
  obtain ⟨hplus, hminus⟩ := near_radicands hσ hfinite hpos
  have hdelta := abs_delta_sub_le hσ hfinite
  have hsquare := Real.mul_self_sqrt hpos
  have hbound := hminus.abs_real_le (by norm_num)
  have hpower : 0 < σ ^ 3 := pow_pos hσ.moderate.pos 3
  obtain ⟨-, hr, hex⟩ := hplus
  obtain ⟨-, -, hey⟩ := hminus
  rw [← hx, zpow_ofNat] at hex
  rw [← hy, zpow_ofNat] at hey hbound
  rw [zpow_ofNat] at hr
  rw [grain_eq] at hex hey
  generalize √(real c.delta) = root at *
  generalize σ ^ 3 = S at *
  push_cast at hex hey
  generalize hrr : -(1 / 2) * real c.constant + root = r at *
  generalize hss : -(1 / 2) * real c.constant - root = s at *
  constructor
  · have hsplit : real x + real y + real c.constant = real x - r + (real y - s) := by
      rw [← hrr, ← hss]
      ring
    rw [hsplit]
    linarith [abs_add_le (real x - r) (real y - s)]
  · have hsplit : real x * real y + (real c.linear / 3) ^ 3 =
        (real x - r) * real y + r * (real y - s) +
          ((real c.constant / 2) ^ 2 + (real c.linear / 3) ^ 3 - real c.delta) := by
      rw [← hsquare, ← hrr, ← hss]
      ring
    have hleft := mul_le_mul hex hbound (abs_nonneg _) (by positivity)
    have hright := mul_le_mul hr hey (abs_nonneg _) (by positivity)
    have hSS := mul_pos hpower hpower
    rw [← abs_mul] at hleft hright
    rw [abs_sub_comm] at hdelta
    rw [hsplit]
    refine (abs_add_three _ _ _).trans ?_
    linarith

theorem almostCardano_of_pow {u v r s : ℝ} (hu : u ^ 3 = r) (hv : v ^ 3 = s)
    (hr : |r| ≤ 27 / 8 * σ ^ 3) (hs : |s| ≤ 27 / 8 * σ ^ 3)
    (hsum : |r + s + real c.constant| ≤ 1 / 2 ^ 47 * σ ^ 3)
    (hproduct : |r * s + (real c.linear / 3) ^ 3| ≤ 1 / 2 ^ 47 * (σ ^ 3 * σ ^ 3)) :
    AlmostCardano (real c.linear / σ ^ 2) (real c.constant / σ ^ 3) (u / σ) (v / σ) := by
  have hpos := hσ.moderate.pos
  have hpower := pow_pos hpos 3
  have hroot : ∀ {w t : ℝ}, w ^ 3 = t → |t| ≤ 27 / 8 * σ ^ 3 → |w / σ| ≤ 3 / 2 := by
    intro w t hw ht
    rw [abs_div, abs_of_pos hpos, div_le_iff₀ hpos]
    refine le_of_pow_le_pow_left₀ three_ne_zero (by linarith) ?_
    rw [pow_abs, hw, mul_pow]
    linarith
  refine ⟨hroot hu hr, hroot hv hs, ?_, ?_⟩
  · have hscale : (u / σ) ^ 3 + (v / σ) ^ 3 + real c.constant / σ ^ 3 =
        (r + s + real c.constant) / σ ^ 3 := by
      rw [← hu, ← hv]
      ring
    rw [hscale, abs_div, abs_of_pos hpower, div_le_iff₀ hpower]
    exact hsum
  · have hscale : (u / σ) ^ 3 * (v / σ) ^ 3 + (real c.linear / σ ^ 2 / 3) ^ 3 =
        (r * s + (real c.linear / 3) ^ 3) / (σ ^ 3 * σ ^ 3) := by
      rw [← hu, ← hv]
      field_simp
    rw [hscale, abs_div, abs_of_pos (mul_pos hpower hpower), div_le_iff₀ (mul_pos hpower hpower)]
    exact hproduct

theorem abs_div_sub_le {x : Float} {r d : ℝ} {n : ℕ} (h : Near σ 1 d n x r)
    (hfew : n * (grain * d) ≤ 1 / 2 ^ 40) : |real x / σ - r / σ| ≤ 1 / 2 ^ 40 := by
  have hpos := hσ.moderate.pos
  have herror := h.error
  rw [zpow_one, ← mul_assoc, ← mul_assoc] at herror
  rw [← sub_div, abs_div, abs_of_pos hpos, div_le_iff₀ hpos]
  refine herror.trans (mul_le_mul_of_nonneg_right ?_ hpos.le)
  rwa [mul_assoc]

theorem exists_almostCardano (hfinite : Scalar.isFinite c.delta = true) (hpos : 0 ≤ real c.delta) :
    ∃ u v, u ^ 3 = real (-0.5 * c.constant + c.delta.sqrt) ∧
      v ^ 3 = real (-0.5 * c.constant - c.delta.sqrt) ∧
      AlmostCardano (real c.linear / σ ^ 2) (real c.constant / σ ^ 3) (u / σ) (v / σ) ∧
      |real c.singleRoot / σ - (u / σ + v / σ)| ≤ 1 / 2 ^ 40 := by
  obtain ⟨hplus, hminus⟩ := near_radicands hσ hfinite hpos
  obtain ⟨hsum, hproduct⟩ := abs_radicands_le hσ hfinite hpos rfl rfl
  have hpower := pow_pos hσ.moderate.pos 3
  have hr := hplus.abs_real_le (by norm_num)
  have hs := hminus.abs_real_le (by norm_num)
  rw [zpow_ofNat] at hr hs
  have hu := cbrt_pow_three (real (-0.5 * c.constant + c.delta.sqrt))
  have hv := cbrt_pow_three (real (-0.5 * c.constant - c.delta.sqrt))
  generalize Scalar.cbrt (real (-0.5 * c.constant + c.delta.sqrt)) = u at hu
  generalize Scalar.cbrt (real (-0.5 * c.constant - c.delta.sqrt)) = v at hv
  have hcardano := almostCardano_of_pow hσ hu hv (by linarith) (by linarith) hsum hproduct
  refine ⟨u, v, hu, hv, hcardano, ?_⟩
  have hsize : ∀ {w : ℝ}, |w / σ| ≤ 3 / 2 → |w| ≤ 3 / 2 * σ ^ (1 : ℤ) := fun hw => by
    rwa [abs_div, abs_of_pos hσ.moderate.pos, div_le_iff₀ hσ.moderate.pos, ← zpow_one σ] at hw
  have hleft := hplus.cbrt hσ.moderate hu (hsize hcardano.left)
    (by norm_num [ordinary_iff])
  have hright := hminus.cbrt hσ.moderate hv (hsize hcardano.right)
    (by norm_num [ordinary_iff])
  have hroot := hleft.add hσ.moderate hright (by norm_num [ordinary_iff])
  rw [← add_div]
  refine abs_div_sub_le hσ hroot ?_
  rw [grain_eq]
  norm_num

theorem almostRoot_singleRoot {κ : ℝ} (hκ : c.BoundsProduct σ κ)
    (hfinite : Scalar.isFinite c.delta = true) (hpos : 0 ≤ real c.delta) :
    c.AlmostRoot σ κ c.singleRoot := by
  obtain ⟨u, v, -, -, hcardano, hroot⟩ := exists_almostCardano hσ hfinite hpos
  exact ⟨_, _, hcardano, hκ.le hcardano, _, .inl rfl, hroot⟩

omit hσ in
/-- Without a linear coefficient the square root is that of a square. -/
theorem real_sqrt_delta_of_linear_zero (hconstant : AtLeast (-400) (value c.constant))
    (hfinite : Scalar.isFinite c.delta = true) (hlinear : (c.linear == 0.0) = true) :
    real c.delta.sqrt = |real (-0.5 * c.constant)| := by
  obtain ⟨hsquare, -⟩ := isFinite_of_isFinite_add hfinite
  have hhalf : AtLeast (-401) (value (0.5 * c.constant)) :=
    atLeast_mul constantBounds.half.1 hconstant (by norm_num)
  have hlarge : AtLeast (-802) (value (Scalar.sq (0.5 * c.constant))) :=
    atLeast_mul hhalf hhalf (by norm_num)
  have hfactor : Scalar.isFinite (Scalar.third : Float) = true := isFinite_of_value value_third
  have hthird : (Scalar.third * c.linear == 0.0) = true := mul_beq_zero_right hfactor hlinear
  have hcube : (Scalar.cube (Scalar.third * c.linear) == 0.0) = true :=
    mul_beq_zero_left (mul_beq_zero_left hthird (isFinite_of_beq_zero hthird))
      (isFinite_of_beq_zero hthird)
  have hdelta : c.delta = Scalar.sq (0.5 * c.constant) :=
    add_of_beq_zero hsquare (ne_zero_of_atLeast hlarge) hcube
  have hself := real_sqrt_mul_self (isFinite_of_isFinite_mul hsquare)
    (AtLeast.mono (by norm_num) hhalf) hsquare
  have hneg : |real (-0.5 * c.constant)| = |real (0.5 * c.constant)| := by
    rw [neg_mul_eq, real_neg]
    exact abs_neg _
  rw [hdelta, hneg]
  exact hself

theorem zpow_le_pow_three : 2 ^ (-300 : ℤ) ≤ σ ^ 3 := by
  have hpower := pow_le_pow_left₀ (real_zpow_pos _).le hσ.moderate.low 3
  rwa [← zpow_natCast, ← zpow_mul] at hpower

/-- Without a linear coefficient one of the cube roots is taken of a difference of equal numbers. -/
theorem abs_radicand_le_underflow (hfinite : Scalar.isFinite c.delta = true)
    (hpos : 0 ≤ real c.delta) (hlinear : (c.linear == 0.0) = true)
    (hlarge : |real c.constant| = 2 * σ ^ 3) :
    |real (-0.5 * c.constant + c.delta.sqrt)| ≤ underflow ∨
      |real (-0.5 * c.constant - c.delta.sqrt)| ≤ underflow := by
  have hconstant : AtLeast (-400) (value c.constant) := by
    refine atLeast_of_le_abs_real hσ.finite_constant ?_
    have hlow := zpow_le_pow_three hσ
    have hcube := pow_pos hσ.moderate.pos 3
    rw [hlarge]
    exact (zpow_le_zpow_right₀ one_le_two (by norm_num)).trans (hlow.trans (by linarith))
  have hsqrt := real_sqrt_delta_of_linear_zero hconstant hfinite hlinear
  obtain ⟨hplus, hminus⟩ := near_radicands hσ hfinite hpos
  have hhalf := (near_neg_half hσ).finite
  have hroot := (near_sqrt_delta hσ hfinite hpos).finite
  obtain hle | hle := le_total (real (-0.5 * c.constant)) 0
  · left
    have herror := (rounded_add hhalf hroot).error hplus.finite
    rwa [hsqrt, abs_of_nonpos hle, add_neg_cancel, sub_zero, abs_zero, mul_zero, zero_add]
      at herror
  · right
    have herror := (rounded_sub hhalf hroot).error hminus.finite
    rwa [hsqrt, abs_of_nonneg hle, sub_self, sub_zero, abs_zero, mul_zero, zero_add] at herror

/-- The cube root of what underflows is small beside every scale. -/
theorem abs_div_le_of_underflow {w r : ℝ} (hw : w ^ 3 = r) (hr : |r| ≤ underflow) :
    |w / σ| ≤ 1 / 2 ^ 40 := by
  have hpos := hσ.moderate.pos
  rw [abs_div, abs_of_pos hpos, div_le_iff₀ hpos]
  refine le_of_pow_le_pow_left₀ three_ne_zero (by positivity) ?_
  calc |w| ^ 3 ≤ underflow := by rwa [pow_abs, hw]
    _ = 2 ^ (-1075 : ℤ) := underflow_eq_zpow
    _ ≤ 2 ^ (-120 + -300 : ℤ) := zpow_le_zpow_right₀ one_le_two (by norm_num)
    _ = 1 / 2 ^ 120 * 2 ^ (-300 : ℤ) := by
      rw [zpow_add₀ two_ne_zero]
      norm_num
    _ ≤ 1 / 2 ^ 120 * σ ^ 3 := mul_le_mul_of_nonneg_left (zpow_le_pow_three hσ) (by positivity)
    _ = (1 / 2 ^ 40 * σ) ^ 3 := by ring

/-- A product of two cube roots of which one is almost zero. -/
theorem almostRoot_singleRoot_of_linear_zero (hfinite : Scalar.isFinite c.delta = true)
    (hpos : 0 ≤ real c.delta) (hlinear : (c.linear == 0.0) = true)
    (hlarge : |real c.constant| = 2 * σ ^ 3) : c.AlmostRoot σ (1 / 2 ^ 36) c.singleRoot := by
  have hcancel := abs_radicand_le_underflow hσ hfinite hpos hlinear hlarge
  obtain ⟨u, v, hu, hv, hcardano, hroot⟩ := exists_almostCardano hσ hfinite hpos
  refine ⟨_, _, hcardano, ?_, _, .inl rfl, hroot⟩
  obtain ⟨s, hs⟩ := (beq_zero_iff _).mp hlinear
  rw [real_of_zero hs, zero_div, add_zero, abs_mul, abs_mul, abs_of_pos three_pos]
  have hleft := hcardano.left
  have hright := hcardano.right
  obtain hcancel | hcancel := hcancel
  · have hproduct := mul_le_mul (abs_div_le_of_underflow hσ hu hcancel) hright (abs_nonneg _)
      (by positivity)
    linarith
  · have hproduct := mul_le_mul hleft (abs_div_le_of_underflow hσ hv hcancel) (abs_nonneg _)
      (by norm_num)
    linarith

theorem abs_discriminant_le (hzero : (c.delta == 0.0) = true) :
    |(real c.constant / 2) ^ 2 + (real c.linear / 3) ^ 3| ≤ 19 / 2 ^ 53 * (σ ^ 3 * σ ^ 3) := by
  obtain ⟨s, hs⟩ := (beq_zero_iff _).mp hzero
  have hdelta := abs_delta_sub_le hσ (isFinite_of_beq_zero hzero)
  rwa [real_of_zero hs, abs_sub_comm, sub_zero] at hdelta

theorem almostRoot_zero {κ : ℝ} (hκ : c.BoundsProduct σ κ) (hzero : (c.delta == 0.0) = true)
    (hconstant : (c.constant == 0.0) = true) : c.AlmostRoot σ κ 0.0 := by
  obtain ⟨s, hs⟩ := (beq_zero_iff _).mp hconstant
  have hpower := pow_pos hσ.moderate.pos 3
  have hdelta := abs_discriminant_le hσ hzero
  have hB := real_of_zero hs
  rw [hB, zero_div, zero_pow two_ne_zero, zero_add] at hdelta
  have hcardano := almostCardano_of_pow hσ (zero_pow three_ne_zero) (zero_pow three_ne_zero)
    (by rw [abs_zero]; positivity) (by rw [abs_zero]; positivity)
    (by rw [hB, add_zero, add_zero, abs_zero]; positivity)
    (by
      rw [mul_zero, zero_add]
      linarith [mul_pos hpower hpower])
  refine ⟨_, _, hcardano, hκ.le hcardano, 0 / σ + 0 / σ, .inl rfl, ?_⟩
  have hreal : real 0.0 = 0 := real_of_zero value_zero
  rw [hreal, zero_div, add_zero, sub_zero, abs_zero]
  positivity

/-- For a repeated root the two cube roots of Cardano's formula agree. -/
theorem almostCardano_half (hzero : (c.delta == 0.0) = true) {w : ℝ}
    (hw : w ^ 3 = real (-4.0 * c.constant)) :
    AlmostCardano (real c.linear / σ ^ 2) (real c.constant / σ ^ 3) (w / 2 / σ) (w / 2 / σ) := by
  have hpower := pow_pos hσ.moderate.pos 3
  have hdelta := abs_discriminant_le hσ hzero
  have hbound := (near_neg_four hσ).abs_real_le (by norm_num)
  have herror := (near_neg_four hσ).error
  have hconstant := hσ.constant
  have hhalf : (w / 2) ^ 3 = real (-4.0 * c.constant) / 8 := by
    rw [← hw]
    ring
  have hr : |real (-4.0 * c.constant) / 8| ≤ 27 / 8 * σ ^ 3 := by
    rw [zpow_ofNat] at hbound
    rw [abs_div, abs_of_pos (by norm_num : (0 : ℝ) < 8)]
    linarith
  rw [zpow_ofNat, grain_eq] at herror
  rw [zpow_ofNat] at hconstant
  push_cast at herror
  refine almostCardano_of_pow hσ hhalf hhalf hr hr ?_ ?_
  · have hsplit : real (-4.0 * c.constant) / 8 + real (-4.0 * c.constant) / 8 + real c.constant =
        (real (-4.0 * c.constant) - -4 * real c.constant) / 4 := by ring
    rw [hsplit, abs_div, abs_of_pos (by norm_num : (0 : ℝ) < 4)]
    linarith
  · generalize real (-4.0 * c.constant) = r at *
    generalize real c.constant = q at *
    generalize σ ^ 3 = S at *
    have hsplit : r / 8 * (r / 8) + (real c.linear / 3) ^ 3 =
        (r - -4 * q) * (r - 4 * q) / 64 + ((q / 2) ^ 2 + (real c.linear / 3) ^ 3) := by ring
    have hsum : |r - 4 * q| ≤ 36 * S := by
      have hfour : |4 * q| = 4 * |q| := by
        rw [abs_mul, abs_of_pos (by norm_num : (0 : ℝ) < 4)]
      rw [abs_div, abs_of_pos (by norm_num : (0 : ℝ) < 8)] at hr
      linarith [abs_sub r (4 * q)]
    have hproduct := mul_le_mul herror hsum (abs_nonneg _) (by positivity)
    rw [← abs_mul] at hproduct
    have htriangle := abs_add_le ((r - -4 * q) * (r - 4 * q) / 64)
      ((q / 2) ^ 2 + (real c.linear / 3) ^ 3)
    rw [abs_div, abs_of_pos (by norm_num : (0 : ℝ) < 64)] at htriangle
    rw [hsplit]
    linarith [mul_pos hpower hpower]

theorem almostRoot_of_mem_repeatedRoots {κ : ℝ} (hκ : c.BoundsProduct σ κ)
    (hzero : (c.delta == 0.0) = true) {x : Float} (hx : x ∈ c.repeatedRoots) :
    c.AlmostRoot σ κ x := by
  rw [repeatedRoots] at hx
  split at hx
  · next hconstant =>
    rw [List.mem_singleton.mp hx]
    exact almostRoot_zero hσ hκ hzero hconstant
  · have hpos := hσ.moderate.pos
    have hw := cbrt_pow_three (real (-4.0 * c.constant))
    generalize Scalar.cbrt (real (-4.0 * c.constant)) = w at hw
    have hcardano := almostCardano_half hσ hzero hw
    have hsize : |w| ≤ 3 * σ ^ (1 : ℤ) := by
      have hleft := hcardano.left
      rw [abs_div, abs_of_pos hpos, div_le_iff₀ hpos, abs_div, abs_two] at hleft
      rw [zpow_one]
      linarith
    have hsimple := (near_neg_four hσ).cbrt hσ.moderate hw hsize (by norm_num [ordinary_iff])
    rw [mem_ascending, List.mem_cons, List.mem_singleton] at hx
    obtain rfl | rfl := hx
    · refine ⟨_, _, hcardano, hκ.le hcardano, w / σ, .inl (by ring), ?_⟩
      refine abs_div_sub_le hσ hsimple ?_
      rw [grain_eq]
      norm_num
    · have hneg : |real (-0.5)| ≤ 1 / 2 * σ ^ (0 : ℤ) := by
        norm_num [real_neg, real_half]
      have hfactor := near_real (isFinite_of_atMost constantBounds.neg_half) hneg
      have hdouble := hfactor.mul hσ.moderate hsimple (by norm_num [ordinary_iff])
      have hother : real (-0.5) * w / σ = -(w / 2 / σ) := by
        rw [real_neg, real_half]
        ring
      refine ⟨_, _, hcardano, hκ.le hcardano, _, .inr ⟨rfl, rfl⟩, ?_⟩
      rw [← hother]
      refine abs_div_sub_le hσ hdouble ?_
      rw [grain_eq]
      norm_num

/-! ### Which coefficient is the larger one -/

theorem le_abs_constant_div (hfinite : Scalar.isFinite c.delta = true) (hpos : 0 ≤ real c.delta)
    (hlinear : real c.linear ≤ 0)
    (hlarge : |real c.linear| = 3 * σ ^ 2 ∨ |real c.constant| = 2 * σ ^ 3) :
    19 / 10 ≤ |real c.constant / σ ^ 3| := by
  have hpower := pow_pos hσ.moderate.pos 3
  rw [abs_div, abs_of_pos hpower, le_div_iff₀ hpower]
  obtain hlarge | hlarge := hlarge
  · have hdelta := (abs_le.mp (abs_delta_sub_le hσ hfinite)).2
    have hcube : (real c.linear / 3) ^ 3 = -(σ ^ 3 * σ ^ 3) := by
      rw [abs_of_nonpos hlinear] at hlarge
      rw [neg_eq_iff_eq_neg.mp hlarge]
      ring
    rw [hcube] at hdelta
    refine le_of_pow_le_pow_left₀ two_ne_zero (abs_nonneg _) ?_
    rw [sq_abs, mul_pow, sq (σ ^ 3)]
    linarith [mul_pos hpower hpower, div_pow (real c.constant) 2 2]
  · linarith

/-- The linear coefficient is not almost zero where its cube is not swamped by the square. -/
theorem le_abs_linear_div (hlarge : |real c.linear| = 3 * σ ^ 2 ∨ |real c.constant| = 2 * σ ^ 3)
    (hcube : (real c.constant / 2) ^ 2 ≤ 10 ^ 6 * |real c.linear / 3| ^ 3) :
    1 / 100 ≤ |real c.linear / σ ^ 2 / 3| := by
  have hpower := pow_pos hσ.moderate.pos 2
  rw [div_right_comm, abs_div, abs_of_pos hpower, le_div_iff₀ hpower]
  obtain hlarge | hlarge := hlarge
  · rw [abs_div, hlarge, abs_of_pos three_pos]
    linarith
  · refine le_of_pow_le_pow_left₀ three_ne_zero (abs_nonneg _) ?_
    have hsquare : (real c.constant / 2) ^ 2 = (σ ^ 2) ^ 3 := by
      rw [← sq_abs, abs_div, hlarge, abs_two]
      ring
    rw [hsquare] at hcube
    rw [mul_pow]
    linarith

theorem sq_le_cube_of_delta_eq_zero (hzero : (c.delta == 0.0) = true)
    (hlarge : |real c.linear| = 3 * σ ^ 2 ∨ |real c.constant| = 2 * σ ^ 3) :
    (real c.constant / 2) ^ 2 ≤ 10 ^ 6 * |real c.linear / 3| ^ 3 := by
  have hdelta := (abs_le.mp (abs_discriminant_le hσ hzero)).2
  have hpower := pow_pos hσ.moderate.pos 3
  have hcube : -(real c.linear / 3) ^ 3 ≤ |real c.linear / 3| ^ 3 := by
    rw [← abs_pow]
    exact neg_le_abs _
  have hcases : |real c.linear / 3| ^ 3 = σ ^ 3 * σ ^ 3 ∨
      (real c.constant / 2) ^ 2 = σ ^ 3 * σ ^ 3 := by
    refine hlarge.imp (fun h => ?_) fun h => ?_
    · rw [abs_div, h, abs_of_pos three_pos]
      ring
    · rw [← sq_abs, abs_div, h, abs_two]
      ring
  have hpositive := mul_pos hpower hpower
  obtain h | h := hcases <;> linarith

end DepressedCubic

end EllipticPlot
