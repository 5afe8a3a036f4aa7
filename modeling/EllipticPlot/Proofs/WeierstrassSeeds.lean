import EllipticPlot.Proofs.CubicRoots

/-!
# Seeds of accepted Weierstrass curves

Accepting a Weierstrass curve looks at the gradient at its seeds only. That is enough: the seeds
are all the points of the curve on the axis `y = 0`, a singular point can lie nowhere else, and at
infinity there is none.
-/

namespace EllipticPlot

open Point

variable {a b : ℝ} {curve : Curve ℝ}

theorem Equation.discriminant?_weierstrass :
    (weierstrass a b).discriminant? = some ((4 * a ^ 3 + 27 * b ^ 2) / 108) := by
  rw [discriminant?, Scalar.sq, Scalar.cube, Option.some_inj]
  norm_num
  ring

namespace Curve

theorem mem_seeds_iff (h : ofEquation (.weierstrass a b) = .ok curve) (p : Point ℝ) :
    p ∈ curve.seeds ↔
      p.y = 0 ∧ p.z = 1 ∧ (Equation.weierstrass a b).residual p = 0 := by
  obtain ⟨xs, hroots, hseeds⟩ := exists_roots_of_accepted h
  obtain ⟨-, hmem⟩ := DepressedCubic.roots_spec hroots
  rw [hseeds, List.mem_map, Equation.residual_weierstrass]
  constructor
  · rintro ⟨x, hx, rfl⟩
    have hroot := (hmem x).1 hx
    rw [DepressedCubic.IsRoot] at hroot
    norm_num
    exact hroot
  · rintro ⟨hy, hz, hcurve⟩
    refine ⟨p.x, (hmem p.x).2 ?_, ?_⟩
    · rw [hy, hz] at hcurve
      rw [DepressedCubic.IsRoot]
      linear_combination hcurve
    · ext <;> norm_num [hy, hz]

/-- No seed is listed twice. -/
theorem pairwise_seeds (h : ofEquation (.weierstrass a b) = .ok curve) :
    curve.seeds.Pairwise fun p q => p.x < q.x := by
  obtain ⟨xs, hroots, hseeds⟩ := exists_roots_of_accepted h
  rw [hseeds, List.pairwise_map]
  exact (DepressedCubic.roots_spec hroots).1

/-- An accepted Weierstrass curve has a discriminant that is not zero, its seeds are its points
with `y = 0` and `z = 1`, each once, and it is smooth at all of its points, infinity included. -/
theorem smooth_of_accepted (h : ofEquation (.weierstrass a b) = .ok curve) :
    (∃ discriminant, curve.equation.discriminant? = some discriminant ∧ discriminant ≠ 0) ∧
      curve.seeds.Pairwise (fun p q => p.x < q.x) ∧
      (∀ p, p ∈ curve.seeds ↔ p.y = 0 ∧ p.z = 1 ∧ curve.equation.residual p = 0) ∧
      ∀ p, p ≠ zero → curve.equation.residual p = 0 → curve.equation.gradient p ≠ zero := by
  have hsmooth := discriminant_ne_zero h
  rw [equation_of_accepted h]
  refine ⟨⟨_, Equation.discriminant?_weierstrass, ?_⟩, pairwise_seeds h, mem_seeds_iff h, ?_⟩
  · exact div_ne_zero hsmooth (by norm_num)
  · exact fun p hp _ => Equation.gradient_ne_zero hsmooth hp

/-- On `y² = x³ + 1` the only seed is `(-1, 0)`, and the point at infinity is smooth. -/
theorem smooth_zero_one :
    let curve : Curve ℝ := ⟨.weierstrass 0 1, [⟨-1, 0.0, 1.0⟩]⟩
    ofEquation (.weierstrass 0 1) = .ok curve ∧
      (∀ p, p ∈ curve.seeds ↔ p.y = 0 ∧ p.z = 1 ∧ curve.equation.residual p = 0) ∧
      (∃ discriminant, curve.equation.discriminant? = some discriminant ∧ discriminant ≠ 0) ∧
      curve.equation.gradient ⟨0, 1, 0⟩ ≠ zero := by
  intro curve
  obtain ⟨hdiscriminant, -, hseeds, hsmooth⟩ := smooth_of_accepted accepted_zero_one
  refine ⟨accepted_zero_one, hseeds, hdiscriminant, hsmooth _ ?_ ?_⟩
  · rw [Ne, eq_zero_iff]
    norm_num
  · rw [Equation.residual_weierstrass]
    norm_num

end Curve

end EllipticPlot
