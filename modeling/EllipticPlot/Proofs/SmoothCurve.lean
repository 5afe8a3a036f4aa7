import EllipticPlot.Proofs.Acceptance
import EllipticPlot.Proofs.RealPlane

/-!
# Smooth Weierstrass curves

A Weierstrass curve with a repeated root is singular at the seed of that root, so it is refused;
every other one has a gradient, hence a tangent, at all of its points.
-/

namespace EllipticPlot

/-! ### Repeated roots -/

theorem cbrt_pow_three (x : ℝ) : Scalar.cbrt x ^ 3 = x := by
  have hpow : ∀ y : ℝ, 0 ≤ y → (y ^ (1 / 3 : ℝ)) ^ 3 = y := by
    intro y hy
    rw [← Real.rpow_natCast, ← Real.rpow_mul hy]
    norm_num
  change (if 0 ≤ x then x ^ (1 / 3 : ℝ) else -(-x) ^ (1 / 3 : ℝ)) ^ 3 = x
  split
  · next h => exact hpow x h
  · next h =>
    have hneg := hpow (-x) (by linarith)
    linear_combination -hneg

theorem delta_eq {a b : ℝ} :
    (DepressedCubic.mk a b).delta = (4 * a ^ 3 + 27 * b ^ 2) / 108 := by
  simp only [DepressedCubic.delta, Scalar.sq, Scalar.cube, Scalar.third]
  norm_num
  ring

theorem roots_of_delta_eq_zero {c : DepressedCubic ℝ} (h : c.delta = 0) :
    c.roots = .ok c.repeatedRoots := by
  rw [DepressedCubic.roots, if_neg (by simp [Scalar.isFinite]), if_pos]
  rw [beq_iff_eq, h]
  norm_num

/-- At the repeated root both derivatives of the equation vanish. -/
theorem exists_repeated_root {a b : ℝ} (h : 4 * a ^ 3 + 27 * b ^ 2 = 0) :
    ∃ xs, (DepressedCubic.mk a b).roots = .ok xs ∧
      ∃ x ∈ xs, 3 * x ^ 2 + a = 0 ∧ 2 * a * x + 3 * b = 0 := by
  refine ⟨_, roots_of_delta_eq_zero (by rw [delta_eq, h, zero_div]), ?_⟩
  rw [DepressedCubic.repeatedRoots]
  by_cases hb : b = 0
  · have ha : a = 0 := by
      rw [hb] at h
      exact pow_eq_zero_iff three_ne_zero |>.1 (by linarith)
    refine ⟨0.0, ?_, ?_⟩
    · rw [if_pos (by rw [beq_iff_eq, hb]; norm_num)]
      exact List.mem_singleton_self _
    · rw [ha, hb]
      norm_num
  · refine ⟨-0.5 * Scalar.cbrt (-4.0 * b), ?_, ?_⟩
    · rw [if_neg (by rw [beq_iff_eq]; norm_num [hb]), mem_ascending]
      simp
    · have hcube := cbrt_pow_three (-4.0 * b)
      norm_num at hcube ⊢
      set x := -(1 / 2) * Scalar.cbrt (-(4 * b)) with hx
      have hxcube : x ^ 3 = b / 2 := by
        rw [hx]
        linear_combination -(1 / 8) * hcube
      -- `x²` and `-a/3` have the same cube
      have hsq : 3 * x ^ 2 + a = 0 := by
        have hodd : Odd 3 := by decide
        have hcubes : (3 * x ^ 2) ^ 3 = (-a) ^ 3 := by
          linear_combination (27 * x ^ 3 + 27 * b / 2) * hxcube + h / 4
        linear_combination hodd.pow_injective hcubes
      exact ⟨by linear_combination hsq, by linear_combination 2 * x * hsq - 6 * hxcube⟩

/-! ### Accepted curves -/

namespace Curve

theorem isSingularAt_of_repeated {a b x : ℝ} (hx : 3 * x ^ 2 + a = 0)
    (hxb : 2 * a * x + 3 * b = 0) : isSingularAt (.weierstrass a b) ⟨x, 0.0, 1.0⟩ = true := by
  have hseed : (⟨x, 0.0, 1.0⟩ : Point ℝ) ≠ Point.zero := by
    rw [Ne, Point.eq_zero_iff]
    norm_num
  have hgradient : (Equation.weierstrass a b).gradient (Point.normalize ⟨x, 0.0, 1.0⟩) =
      Point.zero := by
    rw [Point.normalize_eq hseed, Equation.gradient_weierstrass, Point.zero_eq]
    simp only [Point.scale_x, Point.scale_y, Point.scale_z]
    set s := (Point.norm ⟨x, 0.0, 1.0⟩)⁻¹
    norm_num
    exact ⟨by linear_combination s ^ 2 * hx, by linear_combination s ^ 2 * hxb⟩
  rw [isSingularAt, hgradient, Point.norm_eq, Point.normSq_eq_zero.2 rfl, Real.sqrt_zero]
  norm_num [singularGradient]

/-- A seed where the cubic rises is smooth. -/
theorem isSingularAt_eq_false {a b r : ℝ} (h : r ^ 2 + 1 ≤ 3 * r ^ 2 + a) :
    isSingularAt (.weierstrass a b) ⟨r, 0.0, 1.0⟩ = false := by
  have hnormSq : (⟨r, 0.0, 1.0⟩ : Point ℝ).normSq = r ^ 2 + 1 := by
    rw [Point.normSq_eq]
    norm_num
  have hpos : 0 < r ^ 2 + 1 := by positivity
  have hseed : (⟨r, 0.0, 1.0⟩ : Point ℝ) ≠ Point.zero := by
    rw [Ne, ← Point.normSq_eq_zero, hnormSq]
    exact hpos.ne'
  have hinv : ((√(r ^ 2 + 1))⁻¹) ^ 2 = 1 / (r ^ 2 + 1) := by
    rw [inv_pow, Real.sq_sqrt hpos.le, one_div]
  have hgradient : 1 ≤ ((Equation.weierstrass a b).gradient
      (⟨r, 0.0, 1.0⟩ : Point ℝ).normalize).normSq := by
    rw [Point.normalize_eq hseed, Point.norm_eq, hnormSq, Equation.gradient_weierstrass,
      Point.normSq_eq]
    simp only [Point.scale_x, Point.scale_y, Point.scale_z]
    generalize (√(r ^ 2 + 1))⁻¹ = c at hinv
    have hx : 1 ≤ 3 * (r * c) ^ 2 + a * (1.0 * c) ^ 2 := by
      calc (1 : ℝ) ≤ (3 * r ^ 2 + a) / (r ^ 2 + 1) := (one_le_div hpos).mpr h
        _ = 3 * (r * c) ^ 2 + a * (1.0 * c) ^ 2 := by
          rw [mul_pow, mul_pow, hinv]
          norm_num
          field_simp
    exact le_add_of_le_of_nonneg (le_add_of_le_of_nonneg (one_le_pow₀ hx) (sq_nonneg _))
      (sq_nonneg _)
  rw [isSingularAt, Point.norm_eq, decide_eq_false_iff_not, not_lt]
  exact le_trans (by norm_num [singularGradient]) (Real.one_le_sqrt.mpr hgradient)

/-- The curve `y² = x³ + 1` is accepted, with the seed where `x = -1`. -/
theorem accepted_zero_one : ofEquation (.weierstrass 0 1 : Equation ℝ) =
    .ok ⟨.weierstrass 0 1, [⟨-1, 0.0, 1.0⟩]⟩ := by
  have hdelta : (DepressedCubic.mk (0 : ℝ) 1).delta = 1 / 4 := by
    rw [delta_eq]
    norm_num
  have hcbrt0 : Scalar.cbrt (0 : ℝ) = 0 := by
    change (if (0 : ℝ) ≤ 0 then (0 : ℝ) ^ (1 / 3 : ℝ) else _) = 0
    norm_num
  have hcbrt1 : Scalar.cbrt (-1 : ℝ) = -1 := by
    change (if (0 : ℝ) ≤ -1 then _ else -(-(-1 : ℝ)) ^ (1 / 3 : ℝ)) = -1
    norm_num
  have hsqrt : Scalar.sqrt (1 / 4 : ℝ) = 1 / 2 := by
    change √(1 / 4 : ℝ) = 1 / 2
    rw [Real.sqrt_eq_iff_mul_self_eq] <;> norm_num
  have hroot : (DepressedCubic.mk (0 : ℝ) 1).singleRoot = -1 := by
    rw [DepressedCubic.singleRoot, hdelta, hsqrt]
    norm_num [hcbrt0, hcbrt1]
  have hroots : (DepressedCubic.mk (0 : ℝ) 1).roots = .ok [-1] := by
    rw [DepressedCubic.roots, if_neg (by simp [Scalar.isFinite]),
      if_neg (by rw [beq_iff_eq, hdelta]; norm_num), if_pos (by rw [hdelta]; norm_num), hroot]
  have hsmooth : isSingularAt (.weierstrass 0 1) (⟨-1, 0.0, 1.0⟩ : Point ℝ) = false :=
    isSingularAt_eq_false (by norm_num)
  rw [ofEquation, if_neg (by simp [Equation.isFinite, Scalar.isFinite]), seedsOf, hroots]
  simp [Except.map, hsmooth]

/-- An accepted Weierstrass curve has no repeated root. -/
theorem discriminant_ne_zero {a b : ℝ} {curve : Curve ℝ}
    (h : ofEquation (.weierstrass a b) = .ok curve) : 4 * a ^ 3 + 27 * b ^ 2 ≠ 0 := by
  intro hzero
  obtain ⟨hseeds, hsmooth⟩ := seeds_of_accepted h
  obtain ⟨xs, hroots, x, hmem, hx, hxb⟩ := exists_repeated_root hzero
  rw [seedsOf, hroots] at hseeds
  obtain hseeds := Except.ok.inj hseeds
  have hseed : (⟨x, 0.0, 1.0⟩ : Point ℝ) ∈ curve.seeds := by
    rw [← hseeds]
    exact List.mem_map_of_mem hmem
  rw [List.any_eq_false] at hsmooth
  exact hsmooth _ hseed (isSingularAt_of_repeated hx hxb)

end Curve

/-- Without a repeated root the gradient vanishes nowhere in the plane, infinity included. -/
theorem Equation.gradient_ne_zero {a b : ℝ} (h : 4 * a ^ 3 + 27 * b ^ 2 ≠ 0) {p : Point ℝ}
    (hp : p ≠ Point.zero) : (weierstrass a b).gradient p ≠ Point.zero := by
  rw [Ne, Point.eq_zero_iff, gradient_weierstrass]
  rintro ⟨hx, hy, hz⟩
  simp only at hx hy hz
  by_cases hpz : p.z = 0
  · rw [hpz] at hx hz
    have hpx : p.x = 0 := pow_eq_zero_iff two_ne_zero |>.1 (by linarith)
    have hpy : p.y = 0 := pow_eq_zero_iff two_ne_zero |>.1 (by linarith)
    exact hp (Point.eq_zero_iff.2 ⟨hpx, hpy, hpz⟩)
  · have hpy : p.y = 0 := by simpa [hpz] using hy
    rw [hpy] at hz
    have hxz : 2 * a * p.x = -(3 * b * p.z) := by
      apply mul_right_cancel₀ hpz
      linear_combination hz
    apply h
    apply mul_right_cancel₀ (pow_ne_zero 2 hpz)
    linear_combination 4 * a ^ 2 * hx - 6 * a * p.x * hxz + 9 * b * p.z * hxz

end EllipticPlot
