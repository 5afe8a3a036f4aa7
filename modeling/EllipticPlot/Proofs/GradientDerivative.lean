import EllipticPlot.Proofs.RealPlane
import Mathlib

/-!
# The gradient as a derivative

Along a line of triples the residual of an equation is a polynomial in the time. Over the real
numbers its slope at any time is the component of the gradient there in the direction of the line,
so the formulas of both families agree with the equations in every term. The component of a gradient
in the direction of its own point is known from Euler's identity, and with Lagrange's identity so is
the length of what lies across the point, which is the tangent of a trace.
-/

namespace EllipticPlot

open Point Polynomial

/-! ### Lines as polynomials in the time -/

/-- A coordinate that starts at a value and changes at a constant speed. -/
noncomputable def moving (start speed : ℝ) : ℝ[X] := C start + C speed * X

@[simp] theorem eval_moving (start speed t : ℝ) :
    (moving start speed).eval t = start + speed * t := by
  simp [moving]

@[simp] theorem derivative_moving (start speed : ℝ) :
    derivative (moving start speed) = C speed := by
  simp [moving]

namespace Equation

/-- The residual on the line from `p` in the direction `v`, as a polynomial in the time. -/
noncomputable def onLine (equation : Equation ℝ) (p v : Point ℝ) : ℝ[X] :=
  let x := moving p.x v.x
  let y := moving p.y v.y
  let z := moving p.z v.z
  match equation with
  | weierstrass a b => x ^ 3 + C a * x * z ^ 2 + C b * z ^ 3 - z * y ^ 2
  | edwards d => (x ^ 2 + y ^ 2) * z ^ 2 - z ^ 4 - C d * x ^ 2 * y ^ 2

theorem eval_onLine (equation : Equation ℝ) (p v : Point ℝ) (t : ℝ) :
    (equation.onLine p v).eval t = equation.residual (p.move t v) := by
  cases equation
  · simp [onLine, residual_weierstrass, move_eq]
  · simp [onLine, residual_edwards, move_eq]

/-! ### Slopes -/

theorem eval_derivative_onLine (equation : Equation ℝ) (p v : Point ℝ) (t : ℝ) :
    (derivative (equation.onLine p v)).eval t = (equation.gradient (p.move t v)).dot v := by
  cases equation with
  | weierstrass a b =>
    rw [gradient_weierstrass, move_eq, dot_eq]
    simp only [onLine, derivative_add, derivative_sub, derivative_mul, derivative_pow, derivative_C,
      derivative_moving, eval_add, eval_sub, eval_mul, eval_pow, eval_zero, eval_C, eval_moving,
      Nat.cast_ofNat]
    ring
  | edwards d =>
    rw [gradient_edwards, move_eq, dot_eq]
    simp only [onLine, derivative_add, derivative_sub, derivative_mul, derivative_pow, derivative_C,
      derivative_moving, eval_add, eval_sub, eval_mul, eval_pow, eval_zero, eval_C, eval_moving,
      Nat.cast_ofNat]
    ring

theorem coeff_zero_onLine (equation : Equation ℝ) (p v : Point ℝ) :
    (equation.onLine p v).coeff 0 = equation.residual p := by
  rw [coeff_zero_eq_eval_zero, eval_onLine, move_zero]

theorem coeff_one_onLine (equation : Equation ℝ) (p v : Point ℝ) :
    (equation.onLine p v).coeff 1 = (equation.gradient p).dot v := by
  have hslope : (derivative (equation.onLine p v)).coeff 0 = (equation.onLine p v).coeff 1 := by
    rw [coeff_derivative]
    norm_num
  rw [← hslope, coeff_zero_eq_eval_zero, eval_derivative_onLine, move_zero]

theorem hasDerivAt_residual (equation : Equation ℝ) (p v : Point ℝ) (t : ℝ) :
    HasDerivAt (fun time => equation.residual (p.move time v))
      ((equation.gradient (p.move t v)).dot v) t := by
  have hline : (fun time => equation.residual (p.move time v)) = (equation.onLine p v).eval :=
    funext fun time => (equation.eval_onLine p v time).symm
  rw [hline, ← eval_derivative_onLine]
  exact (equation.onLine p v).hasDerivAt t

/-- The gradient is the derivative of the residual: on every line it gives the linear coefficient,
and the slope at all times. In the direction of its own point it is the residual times the degree,
and its length across the point is what this leaves. -/
theorem gradient_is_derivative (equation : Equation ℝ) (p v : Point ℝ) :
    (∀ t, (equation.onLine p v).eval t = equation.residual (p.move t v)) ∧
      (equation.onLine p v).coeff 0 = equation.residual p ∧
      (equation.onLine p v).coeff 1 = (equation.gradient p).dot v ∧
      (∀ t, HasDerivAt (fun time => equation.residual (p.move time v))
        ((equation.gradient (p.move t v)).dot v) t) ∧
      (equation.gradient p).dot p = equation.degree * equation.residual p ∧
      (p.cross (equation.gradient p)).normSq = p.normSq * (equation.gradient p).normSq -
        (equation.degree : ℝ) ^ 2 * equation.residual p ^ 2 := by
  refine ⟨equation.eval_onLine p v, equation.coeff_zero_onLine p v, equation.coeff_one_onLine p v,
    equation.hasDerivAt_residual p v, equation.gradient_dot_self, ?_⟩
  rw [normSq_cross_gradient, mul_pow]

end Equation

end EllipticPlot
