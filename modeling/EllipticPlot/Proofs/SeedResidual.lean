import EllipticPlot.Proofs.RootAccuracy

/-!
# Residuals of seeds

The seed of a root is brought to unit length before its residual is taken, and the residual of the
unit point is what the cubic makes of the root, over the cube of the length. The rounding of these
steps is not felt where the coefficients are not larger than the length allows.
-/

namespace EllipticPlot

open Binary64

namespace Binary64

theorem real_zero : real 0.0 = 0 := real_of_zero value_zero

theorem value_thousandth :
    value 1e-3 = .finite .positive 4611686018427388 (-62) (by norm_num) := by
  have hbits : (1e-3 : Float).toBits = 0x3f50624dd2f1a9fc := rfl
  rw [value_of_toBits hbits]
  rfl

theorem value_tolerance :
    value 1e-8 = .finite .positive 6044629098073146 (-79) (by norm_num) := by
  have hbits : (1e-8 : Float).toBits = 0x3e45798ee2308c3a := rfl
  rw [value_of_toBits hbits]
  rfl

theorem lt_real_thousandth : 9 / 10 ^ 4 < real 1e-3 := by
  rw [real_of_finite value_thousandth]
  change 9 / 10 ^ 4 < ((4611686018427388 : ℕ) : ℝ) * 2 ^ (-62 : ℤ)
  norm_num

theorem lt_real_tolerance : 9 / 10 ^ 9 < real 1e-8 := by
  rw [real_of_finite value_tolerance]
  change 9 / 10 ^ 9 < ((6044629098073146 : ℕ) : ℝ) * 2 ^ (-79 : ℤ)
  norm_num

variable {t : ℝ}

theorem near_zero (ht : Moderate t) (k : ℤ) : Near t k (1 / 4) 0 0.0 0 := by
  have hfinite : Scalar.isFinite (0.0 : Float) = true := rfl
  have hsize : |real 0.0| ≤ 1 / 4 * t ^ k := by
    rw [real_zero, abs_zero]
    exact mul_nonneg (by norm_num) (zpow_pos ht.pos k).le
  exact real_zero ▸ near_real hfinite hsize

theorem near_one (hone : 1 ≤ t) {k : ℤ} (hk : 0 ≤ k) : Near t k 1 0 1.0 1 := by
  have hfinite : Scalar.isFinite (1.0 : Float) = true := isFinite_of_atMost constantBounds.one.2
  have hsize : |real 1.0| ≤ 1 * t ^ k := by
    rw [real_one, abs_one, one_mul]
    exact one_le_zpow₀ hone hk
  have h := near_real hfinite hsize
  rwa [real_one] at h

/-- Above one, what is small for a power of the scale is small for a higher power. -/
theorem Near.lift {k l : ℤ} {c r : ℝ} {n : ℕ} {x : Float} (hone : 1 ≤ t) (h : Near t k c n x r)
    (hc : 0 ≤ c) (hkl : k ≤ l) : Near t l c n x r := by
  have hle : c * t ^ k ≤ c * t ^ l := mul_le_mul_of_nonneg_left (zpow_le_zpow_right₀ hone hkl) hc
  exact h.weaken (h.size.trans hle) (mul_le_mul_of_nonneg_left hle (Nat.cast_nonneg n))

end Binary64

/-! ### Unit length -/

section

variable {x : Float} {t : ℝ} (ht : Moderate t) (hx : Scalar.isFinite x = true)
  (hlength : real x ^ 2 + 1 = t ^ 2)

include ht hlength

theorem one_le_length : 1 ≤ t := by
  refine (one_le_sq_iff₀ ht.pos.le).mp ?_
  linarith [sq_nonneg (real x)]

include hx

theorem near_coordinate : Near t 1 1 0 x (real x) := by
  refine near_real hx ?_
  rw [one_mul, zpow_one]
  refine abs_le_of_sq_le_sq ?_ ht.pos.le
  linarith

theorem near_norm : Near t 1 1 8 (Point.norm ⟨x, 0.0, 1.0⟩) t := by
  have hX := near_coordinate ht hx hlength
  have hZero := near_zero ht 1
  have hOne := near_one (one_le_length ht hlength) (by norm_num : (0 : ℤ) ≤ 1)
  have hXX := hX.mul ht hX (by norm_num [ordinary_iff])
  have hZeros := hZero.mul ht hZero (by norm_num [ordinary_iff])
  have hOnes := hOne.mul ht hOne (by norm_num [ordinary_iff])
  have hsum := (hXX.add ht hZeros (by norm_num [ordinary_iff])).add ht hOnes
    (by norm_num [ordinary_iff])
  have hexact : real x * real x + 0 * 0 + 1 * 1 = t ^ (1 : ℤ) * t ^ (1 : ℤ) := by
    rw [zpow_one, ← sq t, ← hlength]
    ring
  have hpower : t ^ (1 : ℤ) * t ^ (1 : ℤ) = t ^ (1 + 1 : ℤ) := (zpow_add₀ ht.pos.ne' 1 1).symm
  have hpos := zpow_pos ht.pos (1 + 1)
  -- the sum is not larger than it would be without the two roundings of its parts
  have hsquare : Near t (1 + 1) 1 7 (Point.normSq ⟨x, 0.0, 1.0⟩) (t ^ (1 : ℤ) * t ^ (1 : ℤ)) := by
    rw [hexact] at hsum
    refine hsum.weaken ?_ ?_
    · rw [hpower, one_mul, abs_of_pos hpos]
    · norm_num at hpos ⊢
      linarith
  have hroot := hsquare.sqrt ht (by norm_num [ordinary_iff])
  rwa [zpow_one] at hroot

theorem near_normalize : ∀ p, p = (Point.normalize ⟨x, 0.0, 1.0⟩ : Point Float) →
    Near t 0 1 11 p.x (real x * t⁻¹) ∧ Near t (-1) (1 / 4) 11 p.y (0 * t⁻¹) ∧
      Near t (-1) 1 11 p.z (1 * t⁻¹) := by
  have hnorm := near_norm ht hx hlength
  have hone := one_le_length ht hlength
  have hpos : 0.0 < Point.norm (⟨x, 0.0, 1.0⟩ : Point Float) := by
    have herror := (abs_le.mp hnorm.error).1
    rw [zpow_one, grain_eq] at herror
    push_cast at herror
    rw [lt_iff_real_lt rfl hnorm.finite, real_zero]
    linarith [ht.pos]
  have hinverse := hnorm.one_div ht (by norm_num)
  rintro p rfl
  rw [Point.normalize, if_pos hpos]
  refine ⟨?_, ?_, ?_⟩
  · exact ((near_coordinate ht hx hlength).mul ht hinverse (by norm_num [ordinary_iff])).mono ht
      (by norm_num) (by norm_num)
  · exact ((near_zero ht 0).mul ht hinverse (by norm_num [ordinary_iff])).mono ht
      (by norm_num) (by norm_num)
  · exact ((near_one hone le_rfl).mul ht hinverse (by norm_num [ordinary_iff])).mono ht
      (by norm_num) (by norm_num)

end

/-! ### Residuals -/

theorem near_residual {a b x : Float} {t : ℝ} (ht : Moderate t) (hx : Scalar.isFinite x = true)
    (hlength : real x ^ 2 + 1 = t ^ 2) (ha : Scalar.isFinite a = true)
    (hb : Scalar.isFinite b = true) (hA : |real a| ≤ 16 / 3 * t ^ (2 : ℤ))
    (hB : |real b| ≤ 5 * t ^ (3 : ℤ)) :
    Near t 0 12 39 ((Equation.weierstrass a b).residual (Point.normalize ⟨x, 0.0, 1.0⟩))
      ((real x ^ 3 + real a * real x + real b) / t ^ 3) := by
  have hone := one_le_length ht hlength
  obtain ⟨hX, hY, hZ⟩ := near_normalize ht hx hlength _ rfl
  generalize (Point.normalize ⟨x, 0.0, 1.0⟩ : Point Float) = p at hX hY hZ ⊢
  have hY' := hY.lift hone (by norm_num) (by norm_num : (-1 : ℤ) ≤ 0)
  have hZ' := hZ.lift hone (by norm_num) (by norm_num : (-1 : ℤ) ≤ 0)
  have hcube := (hX.mul ht hX (by norm_num [ordinary_iff])).mul ht hX (by norm_num [ordinary_iff])
  have hsquare := hZ.mul ht hZ (by norm_num [ordinary_iff])
  have hlinear := ((near_real ha hA).mul ht hX (by norm_num [ordinary_iff])).mul ht hsquare
    (by norm_num [ordinary_iff])
  have hconstant := (near_real hb hB).mul ht (hsquare.mul ht hZ (by norm_num [ordinary_iff]))
    (by norm_num [ordinary_iff])
  have hrest := hZ'.mul ht (hY'.mul ht hY' (by norm_num [ordinary_iff]))
    (by norm_num [ordinary_iff])
  have hsum := ((hcube.add ht hlinear (by norm_num [ordinary_iff])).add ht hconstant
    (by norm_num [ordinary_iff])).sub ht hrest (by norm_num [ordinary_iff])
  have hexact : (real x ^ 3 + real a * real x + real b) / t ^ 3 =
      real x * t⁻¹ * (real x * t⁻¹) * (real x * t⁻¹) +
        real a * (real x * t⁻¹) * (1 * t⁻¹ * (1 * t⁻¹)) +
        real b * (1 * t⁻¹ * (1 * t⁻¹) * (1 * t⁻¹)) -
        1 * t⁻¹ * (0 * t⁻¹ * (0 * t⁻¹)) := by
    have hpos := ht.pos.ne'
    field_simp
    ring
  rw [hexact]
  exact hsum.mono ht (by norm_num) (by norm_num)

namespace DepressedCubic

variable {c : DepressedCubic Float} {σ κ ρ : ℝ} {x : Float}

theorem moderate_length {t : ℝ} (hσ : c.Scaled σ) (h : c.AlmostRoot σ κ x) (ht : 0 ≤ t)
    (hlength : real x ^ 2 + 1 = t ^ 2) : Moderate t := by
  have hroot := h.abs_div_le
  rw [abs_div, abs_of_pos hσ.moderate.pos, div_le_iff₀ hσ.moderate.pos] at hroot
  have hone : 1 ≤ t := by
    refine (one_le_sq_iff₀ ht).mp ?_
    linarith [sq_nonneg (real x)]
  refine ⟨le_trans ?_ hone, ?_⟩
  · exact zpow_le_one_of_nonpos₀ one_le_two (by norm_num)
  · have hlarge : (1 : ℝ) ≤ 2 ^ (175 : ℤ) := one_le_zpow₀ one_le_two (by norm_num)
    have hsplit : (2 : ℝ) ^ (180 : ℤ) = 32 * 2 ^ (175 : ℤ) := by
      rw [(by norm_num : (180 : ℤ) = 5 + 175), zpow_add₀ two_ne_zero]
      norm_num
    have hhigh := hσ.high
    rw [hsplit]
    generalize (2 : ℝ) ^ (175 : ℤ) = power at hlarge hhigh
    have hsquare := pow_le_pow_left₀ (abs_nonneg _) (hroot.trans (by linarith : _ ≤ 4 * power)) 2
    rw [sq_abs] at hsquare
    refine le_of_pow_le_pow_left₀ two_ne_zero (by linarith) ?_
    rw [← hlength]
    linarith [one_le_pow₀ hlarge (n := 2), mul_pow 4 power 2, mul_pow 32 power 2]

theorem AlmostRoot.mono {κ' : ℝ} (h : c.AlmostRoot σ κ x) (hle : κ ≤ κ') : c.AlmostRoot σ κ' x := by
  obtain ⟨u, v, hcardano, hκ, y, hy, hxy⟩ := h
  exact ⟨u, v, hcardano, hκ.trans hle, y, hy, hxy⟩

theorem abs_coefficients_le {t : ℝ} (hσ : c.Scaled σ) (ht : 0 ≤ t) (hle : σ ≤ 4 / 3 * t) :
    |real c.linear| ≤ 16 / 3 * t ^ (2 : ℤ) ∧ |real c.constant| ≤ 5 * t ^ (3 : ℤ) := by
  have hpos := hσ.moderate.pos
  have hlinear := hσ.linear
  have hconstant := hσ.constant
  rw [zpow_ofNat] at hlinear hconstant ⊢
  constructor
  · linarith [pow_le_pow_left₀ hpos.le hle 2, mul_pow (4 / 3) t 2]
  · rw [zpow_ofNat]
    linarith [pow_le_pow_left₀ hpos.le hle 3, mul_pow (4 / 3) t 3, pow_nonneg ht 3]

/-- The value of the cubic at the root, over the cube of the length. -/
theorem AlmostRoot.abs_value_div_le {t : ℝ} (hσ : c.Scaled σ) (h : c.AlmostRoot σ κ x) (ht : 0 < t)
    (hle : σ ≤ ρ * t) :
    |(real x ^ 3 + real c.linear * real x + real c.constant) / t ^ 3| ≤
      ρ ^ 3 * (3 * κ + 1 / 2 ^ 34) := by
  have hpos := hσ.moderate.pos
  have hscale : (real x ^ 3 + real c.linear * real x + real c.constant) / t ^ 3 =
      (σ / t) ^ 3 * ((real x / σ) ^ 3 + real c.linear / σ ^ 2 * (real x / σ) +
        real c.constant / σ ^ 3) := by
    have hσ0 := hpos.ne'
    have ht0 := ht.ne'
    field_simp
  have hratio : σ / t ≤ ρ := (div_le_iff₀ ht).mpr hle
  have hcube : |(σ / t) ^ 3| ≤ ρ ^ 3 := by
    rw [abs_of_pos (pow_pos (div_pos hpos ht) 3)]
    exact pow_le_pow_left₀ (div_pos hpos ht).le hratio 3
  rw [hscale, abs_mul]
  exact mul_le_mul hcube (h.abs_value_le hσ) (abs_nonneg _) ((abs_nonneg _).trans hcube)

/-- What is left of the residual at unit length, for a length that is not small beside the scale. -/
theorem AlmostRoot.abs_residual_le (hσ : c.Scaled σ) (h : c.AlmostRoot σ κ x)
    (hx : Scalar.isFinite x = true) (hρ : ρ ≤ 4 / 3) (hle : σ ≤ ρ * √(real x ^ 2 + 1)) :
    let residual := (Equation.weierstrass c.linear c.constant).residual
      (Point.normalize ⟨x, 0.0, 1.0⟩)
    Scalar.isFinite residual = true ∧
      |real residual| ≤ ρ ^ 3 * (3 * κ + 1 / 2 ^ 34) + 1 / 2 ^ 40 := by
  have hnonneg : 0 ≤ real x ^ 2 + 1 := by positivity
  have hlength := (Real.sq_sqrt hnonneg).symm
  have hroot := Real.sqrt_nonneg (real x ^ 2 + 1)
  generalize √(real x ^ 2 + 1) = t at hlength hroot hle
  have ht := moderate_length hσ h hroot hlength
  have hwide : σ ≤ 4 / 3 * t := hle.trans (mul_le_mul_of_nonneg_right hρ hroot)
  obtain ⟨hA, hB⟩ := abs_coefficients_le hσ hroot hwide
  have hnear := near_residual ht hx hlength hσ.finite_linear hσ.finite_constant hA hB
  have hvalue := h.abs_value_div_le hσ ht.pos hle
  refine ⟨hnear.finite, ?_⟩
  have herror := hnear.error
  rw [zpow_zero, grain_eq] at herror
  push_cast at herror
  exact (sub_le_iff_le_add'.mp ((abs_sub_abs_le_abs_sub _ _).trans herror)).trans
    (add_le_add hvalue (by norm_num))

/-- A length is not small beside the scale where the root is as large as the coefficients, and
where these are of moderate size. -/
theorem AlmostRoot.scale_le (hσ : c.Scaled σ) (h : c.AlmostRoot σ κ x)
    (hfinite : Scalar.isFinite c.delta = true) (hdelta : 0 ≤ real c.delta)
    (hlarge : |real c.linear| = 3 * σ ^ 2 ∨ |real c.constant| = 2 * σ ^ 3)
    (htame : real c.linear ≤ 0 ∨ |real c.linear| ≤ 4 ∧ |real c.constant| ≤ 4) :
    σ ≤ 4 / 3 * √(real x ^ 2 + 1) := by
  have hpos := hσ.moderate.pos
  obtain hlinear | ⟨hlinear, hconstant⟩ := htame
  · have hroot := h.le_abs_div hσ hlinear (le_abs_constant_div hσ hfinite hdelta hlinear hlarge)
    have hlength : |real x| ≤ √(real x ^ 2 + 1) := by
      rw [← Real.sqrt_sq_eq_abs]
      exact Real.sqrt_le_sqrt (by linarith)
    rw [abs_div, abs_of_pos hpos, le_div_iff₀ hpos] at hroot
    linarith
  · have hone : 1 ≤ √(real x ^ 2 + 1) := Real.one_le_sqrt.mpr (by linarith [sq_nonneg (real x)])
    have hscale : σ ≤ 4 / 3 := by
      obtain hlarge | hlarge := hlarge
      · refine le_of_pow_le_pow_left₀ two_ne_zero (by norm_num) ?_
        linarith
      · refine le_of_pow_le_pow_left₀ three_ne_zero (by norm_num) ?_
        linarith
    linarith

/-- Cardano's formula is what a `delta` that is not negative leads to. -/
theorem roots_of_nonneg {xs : List Float} (hroots : c.roots = .ok xs)
    (hfinite : Scalar.isFinite c.delta = true) (hdelta : 0 ≤ real c.delta) :
    (c.delta == 0.0) = true ∧ xs = c.repeatedRoots ∨
      ¬ (c.delta == 0.0) = true ∧ xs = [c.singleRoot] := by
  by_cases hzero : (c.delta == 0.0) = true
  · exact .inl ⟨hzero, eq_repeatedRoots hroots hzero⟩
  · obtain ⟨h, -⟩ | ⟨-, hxs⟩ | ⟨hpos, -⟩ := roots_cases hroots
    · exact absurd h hzero
    · exact .inr ⟨hzero, hxs⟩
    · rw [lt_iff_real_lt rfl hfinite, real_zero] at hpos
      exact absurd (beq_zero_of_real hfinite (le_antisymm (not_lt.mp hpos) hdelta)) hzero

theorem AlmostRoot.of_mem_roots {xs : List Float} (hσ : c.Scaled σ) (hκ : c.BoundsProduct σ κ)
    (hroots : c.roots = .ok xs) (hfinite : Scalar.isFinite c.delta = true)
    (hdelta : 0 ≤ real c.delta) (hx : x ∈ xs) : c.AlmostRoot σ κ x := by
  obtain ⟨hzero, rfl⟩ | ⟨-, rfl⟩ := roots_of_nonneg hroots hfinite hdelta
  · exact almostRoot_of_mem_repeatedRoots hσ hκ hzero hx
  · rw [List.mem_singleton.mp hx]
    exact almostRoot_singleRoot hσ hκ hfinite hdelta

/-- The linear coefficient does not work against the cube of the root, or both coefficients are of
moderate size. -/
def Tame (c : DepressedCubic Float) : Prop :=
  c.linear ≤ 0.0 ∨ Scalar.abs c.linear ≤ 4.0 ∧ Scalar.abs c.constant ≤ 4.0

/-- The cube in `delta` is not swamped by the square, unless there is none. -/
inductive Balanced (c : DepressedCubic Float) : Prop
  | linear (h : (c.linear == 0.0) = true)
  | delta (h : (c.delta == 0.0) = true)
  | cube (h : (real c.constant / 2) ^ 2 ≤ 10 ^ 6 * |real c.linear / 3| ^ 3)

theorem boundsProduct_coarse (σ : ℝ) : c.BoundsProduct σ (3 / 2 ^ 15) :=
  ⟨fun h => h.abs_product_le⟩

/-- Where the cube counts, the cube root does not magnify its error. -/
theorem AlmostRoot.of_balanced {xs : List Float} (hσ : c.Scaled σ) (hroots : c.roots = .ok xs)
    (hfinite : Scalar.isFinite c.delta = true) (hdelta : 0 ≤ real c.delta) (hbalanced : c.Balanced)
    (hlarge : |real c.linear| = 3 * σ ^ 2 ∨ |real c.constant| = 2 * σ ^ 3) (hx : x ∈ xs) :
    c.AlmostRoot σ (3 / 10 ^ 10) x := by
  have hsharp : (real c.constant / 2) ^ 2 ≤ 10 ^ 6 * |real c.linear / 3| ^ 3 →
      c.AlmostRoot σ (3 / 10 ^ 10) x := fun hcube =>
    .of_mem_roots hσ ⟨fun h => h.abs_product_le_of_le (le_abs_linear_div hσ hlarge hcube)⟩
      hroots hfinite hdelta hx
  obtain hlinear | hzero | hcube := hbalanced
  · obtain ⟨hzero, -⟩ | ⟨-, rfl⟩ := roots_of_nonneg hroots hfinite hdelta
    · exact hsharp (sq_le_cube_of_delta_eq_zero hσ hzero hlarge)
    · obtain ⟨s, hs⟩ := (beq_zero_iff _).mp hlinear
      have hconstant : |real c.constant| = 2 * σ ^ 3 := by
        refine hlarge.resolve_left fun h => ?_
        rw [real_of_zero hs, abs_zero] at h
        linarith [pow_pos hσ.moderate.pos 2]
      rw [List.mem_singleton.mp hx]
      exact (almostRoot_singleRoot_of_linear_zero hσ hfinite hdelta hlinear hconstant).mono
        (by norm_num)
  · exact hsharp (sq_le_cube_of_delta_eq_zero hσ hzero hlarge)
  · exact hsharp hcube

theorem Tame.real (htame : c.Tame) (hlinear : Scalar.isFinite c.linear = true)
    (hconstant : Scalar.isFinite c.constant = true) :
    Binary64.real c.linear ≤ 0 ∨ |Binary64.real c.linear| ≤ 4 ∧ |Binary64.real c.constant| ≤ 4 := by
  have hfour : Scalar.isFinite (4.0 : Float) = true := isFinite_of_value value_four
  refine htame.imp (fun h => ?_) (And.imp (fun h => ?_) fun h => ?_)
  · rwa [le_iff_real_le hlinear rfl, real_zero] at h
  · rwa [le_iff_real_le (isFinite_abs hlinear) hfour, real_abs hlinear, real_four] at h
  · rwa [le_iff_real_le (isFinite_abs hconstant) hfour, real_abs hconstant, real_four] at h

/-- The residual of a seed that Cardano's formula gives. -/
theorem abs_residual_lt {xs : List Float} (hroots : c.roots = .ok xs) (htame : c.Tame)
    (hfinite : Scalar.isFinite c.delta = true) (hdelta : 0.0 ≤ c.delta) (hx : x ∈ xs)
    (hfinite' : Scalar.isFinite x = true) :
    let residual := (Equation.weierstrass c.linear c.constant).residual
      (Point.normalize ⟨x, 0.0, 1.0⟩)
    Scalar.abs residual < (1e-3 : Float) ∧
      (c.Balanced → Scalar.abs residual < (1e-8 : Float)) := by
  intro residual
  obtain ⟨hlinear, hconstant⟩ := isFinite_of_roots hroots
  have hthousandth : Scalar.isFinite (1e-3 : Float) = true := isFinite_of_value value_thousandth
  have htolerance : Scalar.isFinite (1e-8 : Float) = true := isFinite_of_value value_tolerance
  rw [le_iff_real_le rfl hfinite, real_zero] at hdelta
  suffices hbounds : Scalar.isFinite residual = true ∧ |real residual| < 9 / 10 ^ 4 ∧
      (c.Balanced → |real residual| < 9 / 10 ^ 9) by
    obtain ⟨hres, hcoarse, hsharp⟩ := hbounds
    rw [abs_lt_iff hres hthousandth, abs_lt_iff hres htolerance]
    exact ⟨hcoarse.trans lt_real_thousandth, fun h => (hsharp h).trans lt_real_tolerance⟩
  obtain ⟨σ, hσ, hlarge⟩ := exists_scaled hlinear hconstant hfinite
  have hcoarse := AlmostRoot.of_mem_roots hσ (boundsProduct_coarse σ) hroots hfinite hdelta hx
  obtain hfloor | hlarge := hlarge
  · -- nothing is left of the cubic but the cube
    have hscale : σ ≤ 1 / 2 ^ 20 * √(real x ^ 2 + 1) := by
      have hone : 1 ≤ √(real x ^ 2 + 1) :=
        Real.one_le_sqrt.mpr (by linarith [sq_nonneg (real x)])
      have hpower : (2 : ℝ) ^ (-100 : ℤ) ≤ 1 / 2 ^ 20 := by norm_num
      rw [hfloor]
      linarith
    obtain ⟨hres, hbound⟩ := hcoarse.abs_residual_le hσ hfinite' (by norm_num) hscale
    have hsmall : |real residual| < 9 / 10 ^ 9 := hbound.trans_lt (by norm_num)
    exact ⟨hres, hsmall.trans (by norm_num), fun _ => hsmall⟩
  · have hscale := hcoarse.scale_le hσ hfinite hdelta hlarge (htame.real hlinear hconstant)
    obtain ⟨hres, hbound⟩ := hcoarse.abs_residual_le hσ hfinite' le_rfl hscale
    refine ⟨hres, hbound.trans_lt (by norm_num), fun hbalanced => ?_⟩
    have hsharp := AlmostRoot.of_balanced hσ hroots hfinite hdelta hbalanced hlarge hx
    exact (hsharp.abs_residual_le hσ hfinite' le_rfl hscale).2.trans_lt (by norm_num)

end DepressedCubic

end EllipticPlot
