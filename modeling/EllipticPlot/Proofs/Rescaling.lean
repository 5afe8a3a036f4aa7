import EllipticPlot.Proofs.NewtonLength
import Mathlib.Data.Real.Sign

/-!
# Projecting projective points

Over the real numbers the projection acts on projective points. A residual scales with the degree of
its equation and a gradient with one degree less, so a Newton step commutes with scaling in both
families; a unit representative keeps only the sign of the scale, and so does everything that a
projection returns. Where a projection converged, projecting its point again changes nothing.
-/

namespace EllipticPlot

namespace Point

variable {p : Point ℝ} {s : ℝ}

theorem sign_eq_mul_inv_abs (hs : s ≠ 0) : Real.sign s = s * |s|⁻¹ := by
  obtain hneg | hpos := hs.lt_or_gt
  · rw [Real.sign_of_neg hneg, abs_of_neg hneg, inv_neg, mul_neg, mul_inv_cancel₀ hs]
  · rw [Real.sign_of_pos hpos, abs_of_pos hpos, mul_inv_cancel₀ hs]

theorem zero_scale (s : ℝ) : zero.scale s = zero := by
  rw [eq_zero_iff, zero_eq]
  simp

theorem scale_ne_zero (hp : p ≠ zero) (hs : s ≠ 0) : p.scale s ≠ zero :=
  (ProjEq.scale hs).ne_zero hp

theorem normalize_scale (hs : s ≠ 0) : (p.scale s).normalize = p.normalize.scale (Real.sign s) := by
  by_cases hp : p = zero
  · have hzero : (zero : Point ℝ).normalize = zero := by
      rw [normalize, norm_eq, normSq_eq_zero.2 rfl]
      norm_num
    rw [hp, zero_scale, hzero, zero_scale]
  · have hlength : ∀ x, x * s * (|s| * p.norm)⁻¹ = x * p.norm⁻¹ * Real.sign s := by
      intro x
      rw [sign_eq_mul_inv_abs hs, mul_inv]
      ring
    rw [normalize_eq (scale_ne_zero hp hs), normalize_eq hp, norm_scale]
    ext
    · exact hlength p.x
    · exact hlength p.y
    · exact hlength p.z

theorem normalize_of_unit (h : p.norm = 1) : p.normalize = p := by
  rw [normalize_eq (ne_zero_of_norm_eq_one h), h, inv_one]
  ext <;> simp

end Point

open Point

/-- The sign of a residual after the sign of the triple has changed: it stays in even degree. -/
def Equation.residualSign (equation : Equation ℝ) (sign : ℝ) : ℝ :=
  match equation with
  | .weierstrass _ _ => sign
  | .edwards _ => 1

/-- A projection, for a start of the given sign. -/
noncomputable def Projection.turn (equation : Equation ℝ) (sign : ℝ) (projection : Projection ℝ) :
    Projection ℝ :=
  { projection with
    point := projection.point.scale sign
    residual? := projection.residual?.map (equation.residualSign sign * ·) }

namespace Equation

variable {equation : Equation ℝ} {p : Point ℝ} {s tolerance : ℝ} {limit : ℕ}

/-! ### One step -/

theorem gradient_scale (equation : Equation ℝ) :
    equation.gradient (p.scale s) =
      (equation.gradient p).scale (s ^ (equation.degree - 1)) := by
  cases equation
  · rw [gradient_weierstrass, gradient_weierstrass, degree]
    ext <;> simp only [scale_x, scale_y, scale_z] <;> ring
  · rw [gradient_edwards, gradient_edwards, degree]
    ext <;> simp only [scale_x, scale_y, scale_z] <;> ring

/-- A step from a multiple is the multiple of the step, also where the gradient is zero. -/
theorem newtonStep_scale (hs : s ≠ 0) :
    equation.newtonStep (p.scale s) = (equation.newtonStep p).scale s := by
  have hdegree : equation.degree - 1 + 1 = equation.degree := by cases equation <;> rfl
  -- the amount of the step gains one degree and loses it twice
  have hamount : s ^ (equation.degree - 1) *
      (-(s ^ equation.degree * equation.residual p) /
        ((s ^ (equation.degree - 1)) ^ 2 * (equation.gradient p).normSq)) =
      s * (-equation.residual p / (equation.gradient p).normSq) := by
    have hpow : s ^ (equation.degree - 1) ≠ 0 := pow_ne_zero _ hs
    rw [← mul_neg, mul_div_mul_comm, ← mul_assoc]
    congr 1
    rw [← hdegree, pow_succ, Nat.add_sub_cancel]
    field_simp
  rw [newtonStep, newtonStep, gradient_scale, residual_scale, normSq_scale, move_eq, move_eq]
  ext
  · simp only [scale_x]
    linear_combination (equation.gradient p).x * hamount
  · simp only [scale_y]
    linear_combination (equation.gradient p).y * hamount
  · simp only [scale_z]
    linear_combination (equation.gradient p).z * hamount

theorem residual_scale_sign (equation : Equation ℝ) (hs : s ≠ 0) :
    equation.residual (p.scale (Real.sign s)) =
      equation.residualSign (Real.sign s) * equation.residual p := by
  rw [residual_scale]
  congr 1
  obtain hsign | hsign := Real.sign_apply_eq_of_ne_zero s hs <;>
    cases equation <;> rw [hsign] <;> norm_num [degree, residualSign]

theorem abs_residual_scale_sign (equation : Equation ℝ) (hs : s ≠ 0) :
    |equation.residual (p.scale (Real.sign s))| = |equation.residual p| := by
  rw [residual_scale]
  obtain hsign | hsign := Real.sign_apply_eq_of_ne_zero s hs <;> rw [hsign] <;> simp

theorem residual_normalize_edwards {d : ℝ} (hp : p ≠ zero) :
    (edwards d).residual p.normalize = (edwards d).residual p / p.normSq ^ 2 := by
  rw [normalize_eq hp, residual_scale, degree, ← sq_norm]
  ring

/-! ### The whole iteration -/

theorem newton_scale (hs : s ≠ 0) (left taken : ℕ) (p : Point ℝ) :
    equation.newton tolerance left taken (p.scale s) =
      (equation.newton tolerance left taken p).turn equation (Real.sign s) := by
  induction left generalizing taken p with
  | zero =>
    rw [newton, newton, normalize_scale hs, residual_scale_sign equation hs]
    rfl
  | succ left ih =>
    have htest : ∀ q : Point ℝ,
        Scalar.abs (equation.residual (q.scale (Real.sign s))) < tolerance ↔
          Scalar.abs (equation.residual q) < tolerance := by
      intro q
      change |_| < tolerance ↔ |_| < tolerance
      rw [abs_residual_scale_sign equation hs]
    rw [newton, newton]
    simp only [normalize_scale hs, htest, newtonStep_scale hs, ih]
    split
    · rw [residual_scale_sign equation hs]
      rfl
    · rfl

theorem projectWithin_of_scale (hs : s ≠ 0) (p : Point ℝ) :
    equation.projectWithin limit tolerance (p.scale s) =
      (equation.projectWithin limit tolerance p).turn equation (Real.sign s) := by
  by_cases hp : p = zero
  · rw [hp, zero_scale, projectWithin_of_improper (.inr (beq_iff.2 rfl)), Projection.turn,
      zero_scale]
    rfl
  · rw [equation.projectWithin_eq_newton limit tolerance hp,
      equation.projectWithin_eq_newton limit tolerance (scale_ne_zero hp hs)]
    exact newton_scale hs limit 0 p

theorem projectWithin_of_converged
    (h : (equation.projectWithin limit tolerance p).converged = true) :
    equation.projectWithin limit tolerance (equation.projectWithin limit tolerance p).point =
      { equation.projectWithin limit tolerance p with iterations := 0 } := by
  have hp : p ≠ zero := by
    rintro rfl
    rw [projectWithin_of_improper (.inr (beq_iff.2 rfl))] at h
    cases h
  have hwithin := abs_residual_lt_of_converged h
  have htolerance : 0 < tolerance := (abs_nonneg _).trans_lt hwithin
  have hnorm := equation.norm_projectWithin hp htolerance limit
  have hresidual := equation.newton_residual? tolerance limit 0 p
  rw [← equation.projectWithin_eq_newton limit tolerance hp] at hresidual
  generalize hprojection : equation.projectWithin limit tolerance p = projection at *
  cases limit with
  | zero =>
    rw [equation.projectWithin_eq_newton 0 tolerance hp, newton] at hprojection
    rw [← hprojection] at h
    cases h
  | succ limit =>
    rw [equation.projectWithin_eq_newton _ _ (ne_zero_of_norm_eq_one hnorm), newton,
      normalize_of_unit hnorm, if_pos hwithin, ← hresidual, ← h]

/-- Scaling a start by a nonzero number only turns the projection by the sign of the number, and a
projection that converged is kept, in no steps, by the same projection. -/
theorem projectWithin_acts (equation : Equation ℝ) (limit : ℕ) (tolerance : ℝ) (p : Point ℝ)
    (hs : s ≠ 0) :
    let projection := equation.projectWithin limit tolerance p
    let scaled := equation.projectWithin limit tolerance (p.scale s)
    scaled.iterations = projection.iterations ∧ scaled.converged = projection.converged ∧
      scaled.point = projection.point.scale (Real.sign s) ∧
      scaled.residual? = projection.residual?.map (equation.residualSign (Real.sign s) * ·) ∧
      (projection.converged = true →
        equation.projectWithin limit tolerance projection.point =
          { projection with iterations := 0 }) := by
  intro projection scaled
  have hscaled : scaled = projection.turn equation (Real.sign s) := projectWithin_of_scale hs p
  rw [hscaled]
  exact ⟨rfl, rfl, rfl, rfl, projectWithin_of_converged⟩

/-- A projection from `(1, 1)` that reaches the unit circle, up to the tolerance, in one step. -/
theorem projectWithin_acts_circle :
    let p : Point ℝ := ⟨1, 1, 1⟩
    let project := (Equation.edwards (0 : ℝ)).projectWithin 2 (1 / 10)
    (-2 : ℝ) ≠ 0 ∧ (project p).iterations = 1 ∧ (project p).converged = true ∧
      (project (p.scale (-2))).iterations = 1 ∧ (project (p.scale (-2))).converged = true ∧
      (project (p.scale (-2))).point = (project p).point.scale (-1) ∧
      project (project p).point = { project p with iterations := 0 } := by
  intro p project
  have hs : (-2 : ℝ) ≠ 0 := by norm_num
  have hp : p ≠ zero := by
    rw [Ne, eq_zero_iff]
    norm_num [p]
  have hstep : (Equation.edwards 0).newtonStep p = ⟨3 / 4, 3 / 4, 1⟩ := by
    rw [newtonStep, gradient_edwards, residual_edwards, normSq_eq, move_eq]
    norm_num [p]
  have hnext : (Equation.edwards 0).newtonStep p ≠ zero := by
    rw [hstep, Ne, eq_zero_iff]
    norm_num
  have hbeyond : ¬ Scalar.abs ((Equation.edwards 0).residual p.normalize) < (1 / 10 : ℝ) := by
    rw [residual_normalize_edwards hp, residual_edwards, normSq_eq]
    change ¬ |_| < (1 / 10 : ℝ)
    norm_num [p]
  have hwithin : Scalar.abs ((Equation.edwards 0).residual
      ((Equation.edwards 0).newtonStep p).normalize) < (1 / 10 : ℝ) := by
    rw [residual_normalize_edwards hnext, hstep, residual_edwards, normSq_eq]
    change |_| < (1 / 10 : ℝ)
    norm_num
  have hproject := (Equation.edwards 0).projectWithin_eq_newton 2 (1 / 10) hp
  rw [newton, if_neg hbeyond, newton, if_pos hwithin] at hproject
  have hiterations : (project p).iterations = 1 := congrArg Projection.iterations hproject
  have hconverged : (project p).converged = true := congrArg Projection.converged hproject
  obtain ⟨htaken, hflag, hpoint, -, hagain⟩ :=
    (Equation.edwards 0).projectWithin_acts 2 (1 / 10) p hs
  rw [Real.sign_of_neg (by norm_num)] at hpoint
  exact ⟨hs, hiterations, hconverged, htaken.trans hiterations, hflag.trans hconverged, hpoint,
    hagain hconverged⟩

end Equation

end EllipticPlot
