import EllipticPlot.Proofs.Newton
import EllipticPlot.Proofs.RealPlane

/-!
# The length of Newton's iterates

Over the real numbers Newton's iteration is safe. By Euler's identity the gradient vanishes only
where the residual does, so no step divides by zero. A step shortens its triple, but by Cauchy and
Schwarz to no less than `(n - 1) / n` of its length, where `n` is the degree of the equation; so no
iterate is zero, and every projection ends in a triple of unit length.
-/

namespace EllipticPlot.Equation

open Point

variable {equation : Equation ℝ} {p : Point ℝ}

theorem two_le_degree (equation : Equation ℝ) : (2 : ℝ) ≤ equation.degree := by
  cases equation <;> norm_num [degree]

/-! ### One step -/

theorem gradient_ne_zero_of_residual (h : equation.residual p ≠ 0) :
    equation.gradient p ≠ zero := by
  intro hgradient
  have heuler := equation.gradient_dot_self (p := p)
  rw [hgradient, zero_eq, dot_eq] at heuler
  have hdegree : (equation.degree : ℝ) ≠ 0 := by linarith [equation.two_le_degree]
  refine mul_ne_zero hdegree h ?_
  linear_combination -heuler

theorem residual_normalize_eq_zero (hp : p ≠ zero) (h : equation.residual p = 0) :
    equation.residual p.normalize = 0 := by
  exact residual_eq_zero_of_projEq (projEq_normalize hp) h

theorem normSq_newtonStep (h : equation.gradient p ≠ zero) :
    (equation.newtonStep p).normSq = p.normSq - (2 * equation.degree - 1) *
      (equation.residual p ^ 2 / (equation.gradient p).normSq) := by
  have hpos := normSq_pos h
  rw [newtonStep, normSq_move, gradient_dot_self]
  field_simp
  ring

/-- The part of the length that a step can take away is limited by the degree. -/
theorem residual_sq_div_le (h : equation.gradient p ≠ zero) :
    equation.residual p ^ 2 / (equation.gradient p).normSq ≤
      p.normSq / (equation.degree : ℝ) ^ 2 := by
  have hpos := normSq_pos h
  have hdegree : 0 < (equation.degree : ℝ) := by linarith [equation.two_le_degree]
  have hcauchy := dot_sq_le (p := equation.gradient p) (q := p)
  rw [gradient_dot_self] at hcauchy
  rw [div_le_div_iff₀ hpos (by positivity)]
  linarith

/-- A step shortens the triple, to no less than `(n - 1) / n` of its length. -/
theorem newtonStep_bounds (h : equation.gradient p ≠ zero) :
    (((equation.degree : ℝ) - 1) / equation.degree) ^ 2 * p.normSq ≤
        (equation.newtonStep p).normSq ∧
      (equation.newtonStep p).normSq ≤ p.normSq := by
  have hstep := normSq_newtonStep h
  have hle := residual_sq_div_le h
  have htwo := equation.two_le_degree
  have hnonneg : 0 ≤ equation.residual p ^ 2 / (equation.gradient p).normSq :=
    div_nonneg (sq_nonneg _) (normSq_nonneg _)
  set n := (equation.degree : ℝ)
  have hfactor : 0 ≤ 2 * n - 1 := by linarith
  constructor
  · have hloss := mul_le_mul_of_nonneg_left hle hfactor
    calc ((n - 1) / n) ^ 2 * p.normSq = p.normSq - (2 * n - 1) * (p.normSq / n ^ 2) := by
          field_simp
          ring
      _ ≤ (equation.newtonStep p).normSq := by linarith
  · have hloss := mul_nonneg hfactor hnonneg
    linarith

theorem newtonStep_ne_zero (hp : p ≠ zero) (h : equation.gradient p ≠ zero) :
    equation.newtonStep p ≠ zero := by
  have hbound := (newtonStep_bounds h).1
  have htwo := equation.two_le_degree
  have hpos := normSq_pos hp
  have hfactor : 0 < ((equation.degree : ℝ) - 1) / equation.degree :=
    div_pos (by linarith) (by linarith)
  intro hzero
  rw [normSq_eq_zero.2 hzero] at hbound
  have : 0 < (((equation.degree : ℝ) - 1) / equation.degree) ^ 2 * p.normSq := by positivity
  linarith

/-! ### The whole iteration -/

/-- Where a step is taken, the residual does not vanish, so neither does the gradient. -/
theorem gradient_ne_zero_of_beyond {tolerance : ℝ} (hp : p ≠ zero) (htolerance : 0 < tolerance)
    (hbeyond : ¬ Scalar.abs (equation.residual p.normalize) < tolerance) :
    equation.gradient p ≠ zero := by
  apply gradient_ne_zero_of_residual
  intro hzero
  apply hbeyond
  rw [residual_normalize_eq_zero hp hzero]
  change |(0 : ℝ)| < tolerance
  rwa [abs_zero]

theorem StopsAt.iterate_ne_zero {tolerance : ℝ} {limit k : ℕ} (hp : p ≠ zero)
    (htolerance : 0 < tolerance) (h : equation.StopsAt tolerance limit p k) :
    ∀ i ≤ k, equation.newtonStep^[i] p ≠ zero := by
  intro i
  induction i with
  | zero => exact fun _ => hp
  | succ i ih =>
    intro hi
    rw [Function.iterate_succ_apply']
    have hne := ih (Nat.le_of_succ_le hi)
    exact newtonStep_ne_zero hne (gradient_ne_zero_of_beyond hne htolerance (h.beyond i hi))

theorem projectWithin_eq_newton (equation : Equation ℝ) (limit : ℕ) (tolerance : ℝ)
    (hp : p ≠ zero) :
    equation.projectWithin limit tolerance p = equation.newton tolerance limit 0 p := by
  rw [projectWithin, if_neg]
  rw [Bool.or_eq_true, Point.beq_iff]
  simp [Point.isFinite, Scalar.isFinite, hp]

/-- The projection of a nonzero triple has unit length, converged or not. -/
theorem norm_projectWithin (equation : Equation ℝ) (hp : p ≠ zero) {tolerance : ℝ}
    (htolerance : 0 < tolerance) (limit : ℕ) :
    (equation.projectWithin limit tolerance p).point.norm = 1 := by
  obtain ⟨k, hstops, heq⟩ := equation.newton_stopsAt tolerance limit 0 p
  rw [equation.projectWithin_eq_newton limit tolerance hp, heq]
  exact norm_normalize (hstops.iterate_ne_zero hp htolerance k le_rfl)

/-- A projection of a nonzero triple divides by no zero gradient, each of its steps keeps the
length between `(n - 1) / n` of it and itself, and its point is the unit representative of the
last iterate, which is not zero, whether or not the tolerance was met. -/
theorem projectWithin_length (equation : Equation ℝ) (hp : p ≠ zero) {tolerance : ℝ}
    (htolerance : 0 < tolerance) (limit : ℕ) :
    let projection := equation.projectWithin limit tolerance p
    let iterate := fun k => equation.newtonStep^[k] p
    let n : ℝ := equation.degree
    projection.iterations ≤ limit ∧
      (∀ k < projection.iterations, equation.gradient (iterate k) ≠ zero ∧
        ((n - 1) / n) ^ 2 * (iterate k).normSq ≤ (iterate (k + 1)).normSq ∧
        (iterate (k + 1)).normSq ≤ (iterate k).normSq) ∧
      (∀ k ≤ projection.iterations, iterate k ≠ zero) ∧
      projection.point = (iterate projection.iterations).normalize ∧
      projection.point.norm = 1 := by
  intro projection iterate n
  obtain ⟨k, hstops, heq⟩ := equation.newton_stopsAt tolerance limit 0 p
  have hprojection : projection = equation.newton tolerance limit 0 p :=
    equation.projectWithin_eq_newton limit tolerance hp
  have hiterations : projection.iterations = k := by rw [hprojection, heq, Nat.zero_add]
  have hpoint : projection.point = (iterate k).normalize := by rw [hprojection, heq]
  have hne := hstops.iterate_ne_zero hp htolerance
  rw [hiterations, hpoint]
  refine ⟨hstops.le_limit, fun i hi => ?_, hne, rfl, norm_normalize (hne k le_rfl)⟩
  have hgradient :=
    gradient_ne_zero_of_beyond (hne i hi.le) htolerance (hstops.beyond i hi)
  have hbounds := newtonStep_bounds hgradient
  rw [← Function.iterate_succ_apply' equation.newtonStep i p] at hbounds
  exact ⟨hgradient, hbounds⟩

/-- A projection onto the unit circle that one step does not finish, from `(1, 1)`. -/
theorem projectWithin_length_circle :
    let p : Point ℝ := ⟨1, 1, 1⟩
    let projection := (Equation.edwards (0 : ℝ)).projectWithin 1 (1 / 10) p
    p ≠ zero ∧ (0 : ℝ) < 1 / 10 ∧ projection.iterations = 1 ∧
      (Equation.edwards 0).gradient p ≠ zero ∧
      (3 / 4) ^ 2 * p.normSq ≤ ((Equation.edwards 0).newtonStep p).normSq ∧
      ((Equation.edwards 0).newtonStep p).normSq ≤ p.normSq ∧ projection.point.norm = 1 := by
  intro p projection
  have hp : p ≠ zero := by
    rw [Ne, eq_zero_iff]
    norm_num [p]
  have htolerance : (0 : ℝ) < 1 / 10 := by norm_num
  obtain ⟨-, hsteps, -, -, hnorm⟩ := (Equation.edwards 0).projectWithin_length hp htolerance 1
  have hresidual : (Equation.edwards 0).residual p.normalize = 1 / 9 := by
    have hnormSq : p.norm ^ 2 = 3 := by
      rw [sq_norm, normSq_eq]
      norm_num [p]
    rw [normalize_eq hp, residual_scale, residual_edwards, degree,
      show p.norm⁻¹ ^ 4 = ((p.norm ^ 2)⁻¹) ^ 2 by ring, hnormSq]
    norm_num [p]
  have hbeyond : ¬ Scalar.abs ((Equation.edwards 0).residual p.normalize) < (1 / 10 : ℝ) := by
    rw [hresidual]
    change ¬ |(1 / 9 : ℝ)| < 1 / 10
    norm_num
  have hiterations : projection.iterations = 1 := by
    have hprojection := (Equation.edwards 0).projectWithin_eq_newton 1 (1 / 10) hp
    rw [newton, if_neg hbeyond] at hprojection
    exact congrArg Projection.iterations hprojection
  obtain ⟨hgradient, hlow, hhigh⟩ := hsteps 0 (Nat.zero_lt_one.trans_eq hiterations.symm)
  refine ⟨hp, htolerance, hiterations, hgradient, ?_, hhigh, hnorm⟩
  norm_num [degree] at hlow ⊢
  exact hlow

end EllipticPlot.Equation
