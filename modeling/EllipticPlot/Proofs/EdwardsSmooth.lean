import EllipticPlot.Proofs.Acceptance
import EllipticPlot.Proofs.EdwardsLaw

/-!
# Smooth Edwards curves

Every real parameter is accepted: the seeds lie on the axes, where the gradient does not feel it. In
the finite plane only the curve with parameter `1` is singular. Its equation is the product
`(x² - z²)·(y² - z²)`, so it consists of four lines, and they cross in points that are no seeds.
-/

namespace EllipticPlot

open Point

/-! ### Singular points -/

namespace Edwards

variable {d x y z : ℝ} {p : Point ℝ}

theorem gradient_affine : (Equation.edwards d).gradient ⟨x * z, y * z, z⟩ =
    Point.scale (z ^ 3) ⟨2 * x * (1 - d * y ^ 2), 2 * y * (1 - d * x ^ 2),
      2 * (x ^ 2 + y ^ 2 - 2)⟩ := by
  rw [Equation.gradient_edwards]
  ext <;> simp only [scale_x, scale_y, scale_z] <;> ring

/-- The derivatives in the plane vanish together only where two of the four lines cross. -/
theorem derivatives_eq_zero_iff (h : OnCurve d x y) :
    (2 * x * (1 - d * y ^ 2) = 0 ∧ 2 * y * (1 - d * x ^ 2) = 0 ∧ 2 * (x ^ 2 + y ^ 2 - 2) = 0) ↔
      d = 1 ∧ x ^ 2 = 1 ∧ y ^ 2 = 1 := by
  have hcurve := h
  rw [OnCurve] at hcurve
  constructor
  · rintro ⟨hx, hy, hz⟩
    have hproduct : d * x ^ 2 * y ^ 2 = 1 := by linarith
    -- the product is not zero, so neither coordinate is
    have hx0 : x ≠ 0 := by
      rintro rfl
      norm_num at hproduct
    have hy0 : y ≠ 0 := by
      rintro rfl
      norm_num at hproduct
    have hdy : 1 - d * y ^ 2 = 0 := by simpa [hx0] using hx
    have hdx : 1 - d * x ^ 2 = 0 := by simpa [hy0] using hy
    have hx1 : x ^ 2 = 1 := by linear_combination hproduct + x ^ 2 * hdy
    have hy1 : y ^ 2 = 1 := by linear_combination hproduct + y ^ 2 * hdx
    exact ⟨eq_one_of_corner h hx1 hy1, hx1, hy1⟩
  · rintro ⟨rfl, hx, hy⟩
    rw [hx, hy]
    norm_num

end Edwards

/-! ### Accepted parameters -/

theorem inv_sqrt_two_sq : ((√2 : ℝ)⁻¹) ^ 2 = 1 / 2 := by
  rw [inv_pow, Real.sq_sqrt (by norm_num), one_div]

namespace Curve

variable {d : ℝ}

/-- At a unit length apart on an axis the gradient has unit length, whatever the parameter. -/
theorem isSingularAt_axis {x y : ℝ} (hx : x ^ 2 = 1 ∧ y = 0 ∨ x = 0 ∧ y ^ 2 = 1) :
    isSingularAt (.edwards d) ⟨x, y, 1.0⟩ = false := by
  have hnormSq : (⟨x, y, 1.0⟩ : Point ℝ).normSq = 2 := by
    rw [normSq_eq]
    obtain ⟨hx, rfl⟩ | ⟨rfl, hy⟩ := hx
    · norm_num [hx]
    · norm_num [hy]
  have hseed : (⟨x, y, 1.0⟩ : Point ℝ) ≠ zero := by
    rw [Ne, ← normSq_eq_zero, hnormSq]
    norm_num
  have hinv := inv_sqrt_two_sq
  have hgradient :
      ((Equation.edwards d).gradient (⟨x, y, 1.0⟩ : Point ℝ).normalize).normSq = 1 := by
    rw [normalize_eq hseed, norm_eq, hnormSq, Equation.gradient_edwards, normSq_eq]
    simp only [scale_x, scale_y, scale_z]
    generalize (√2 : ℝ)⁻¹ = r at hinv
    have hr : r ^ 6 = 1 / 8 := by
      linear_combination (r ^ 4 + r ^ 2 / 2 + 1 / 4) * hinv
    obtain ⟨hx, rfl⟩ | ⟨rfl, hy⟩ := hx
    · norm_num
      linear_combination (4 * x ^ 2 + 4 * x ^ 4 - 16 * x ^ 2 + 16) * hr + (x ^ 2 / 2 - 1) * hx
    · norm_num
      linear_combination (4 * y ^ 2 + 4 * y ^ 4 - 16 * y ^ 2 + 16) * hr + (y ^ 2 / 2 - 1) * hy
  rw [isSingularAt, norm_eq, hgradient, Real.sqrt_one]
  norm_num [singularGradient]

theorem exists_accepted_edwards (d : ℝ) :
    ∃ curve : Curve ℝ, ofEquation (.edwards d) = .ok curve := by
  have hsides : ∀ x : ℝ, x ^ 2 = 1 → isSingularAt (.edwards d) ⟨x, 0.0, 1.0⟩ = false :=
    fun x hx => isSingularAt_axis (.inl ⟨hx, by norm_num⟩)
  have hpoles : ∀ y : ℝ, y ^ 2 = 1 → isSingularAt (.edwards d) ⟨0.0, y, 1.0⟩ = false :=
    fun y hy => isSingularAt_axis (.inr ⟨by norm_num, hy⟩)
  rw [ofEquation, if_neg (by simp [Equation.isFinite, Scalar.isFinite]), seedsOf]
  dsimp only
  rw [if_neg]
  · exact ⟨_, rfl⟩
  · split <;> simp [hsides _ (by norm_num : (-1.0 : ℝ) ^ 2 = 1),
      hsides _ (by norm_num : (1.0 : ℝ) ^ 2 = 1), hpoles _ (by norm_num : (-1.0 : ℝ) ^ 2 = 1),
      hpoles _ (by norm_num : (1.0 : ℝ) ^ 2 = 1)]

/-- At a finite point of an accepted Edwards curve the gradient vanishes only where the four lines
of the curve with parameter `1` cross. -/
theorem gradient_edwards_eq_zero_iff {curve : Curve ℝ}
    (haccepted : ofEquation (.edwards d) = .ok curve) {p : Point ℝ} (hz : p.z ≠ 0)
    (hp : curve.equation.residual p = 0) :
    curve.equation.gradient p = zero ↔ d = 1 ∧ p.x ^ 2 = p.z ^ 2 ∧ p.y ^ 2 = p.z ^ 2 := by
  rw [equation_of_accepted haccepted] at hp ⊢
  obtain ⟨haffine, hcurve⟩ := Edwards.exists_affine hz hp
  have hderivatives := Edwards.derivatives_eq_zero_iff hcurve
  have hsquare : ∀ x : ℝ, (x / p.z) ^ 2 = 1 ↔ x ^ 2 = p.z ^ 2 := by
    intro x
    rw [div_pow, div_eq_one_iff_eq (pow_ne_zero 2 hz)]
  rw [hsquare, hsquare] at hderivatives
  have hgradient := Edwards.gradient_affine (d := d) (x := p.x / p.z) (y := p.y / p.z) (z := p.z)
  rw [← haffine] at hgradient
  rw [← hderivatives, hgradient, eq_zero_iff]
  simp only [scale_x, scale_y, scale_z, mul_eq_zero, pow_ne_zero 3 hz, or_false]

/-- On the curve with parameter `-8` at `(1/2, 1/2)`. -/
theorem gradient_half_half_ne_zero :
    ∃ curve : Curve ℝ, ofEquation (.edwards (-8)) = .ok curve ∧
      (⟨1, 1, 2⟩ : Point ℝ).z ≠ 0 ∧ curve.equation.residual ⟨1, 1, 2⟩ = 0 ∧
      curve.equation.gradient ⟨1, 1, 2⟩ ≠ zero := by
  obtain ⟨curve, haccepted⟩ := exists_accepted_edwards (-8)
  have hz : (⟨1, 1, 2⟩ : Point ℝ).z ≠ 0 := two_ne_zero
  have hp : curve.equation.residual ⟨1, 1, 2⟩ = 0 := by
    rw [equation_of_accepted haccepted, Equation.residual_edwards]
    norm_num
  refine ⟨curve, haccepted, hz, hp, fun h => ?_⟩
  have hone := ((gradient_edwards_eq_zero_iff haccepted hz hp).mp h).1
  norm_num at hone

/-- The curve with parameter `1` is accepted, and singular at `(1, 1)`. -/
theorem singular_at_one_one :
    ∃ curve : Curve ℝ, ofEquation (.edwards 1) = .ok curve ∧
      ∃ p : Point ℝ, p.z ≠ 0 ∧ curve.equation.residual p = 0 ∧
        curve.equation.gradient p = zero := by
  obtain ⟨curve, haccepted⟩ := exists_accepted_edwards 1
  refine ⟨curve, haccepted, ⟨1, 1, 1⟩, one_ne_zero, ?_, ?_⟩
  · rw [equation_of_accepted haccepted, Equation.residual_edwards]
    norm_num
  · rw [equation_of_accepted haccepted, Equation.gradient_edwards, eq_zero_iff]
    norm_num

end Curve

end EllipticPlot
