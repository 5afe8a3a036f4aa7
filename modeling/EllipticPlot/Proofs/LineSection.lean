import EllipticPlot.Proofs.RealPlane
import Mathlib.Algebra.Polynomial.Roots
import Mathlib.Tactic.Ring

/-!
# Where a line meets a curve

A line of the plane is given by its normal `n`: it carries the triples `v` with `n · v = 0`. On it
the form of a cubic curve is a form in two variables, and to know its zeros with their
multiplicities is to write it as a product of three linear forms. The linear form that vanishes at
a point `p` of the line is the triple product of `n`, `p` and the variable.
-/

namespace EllipticPlot

namespace Point

variable {n p q v : Point ℝ} {s : ℝ}

/-- The triple product; as a form in `v` on a line through `p` with normal `n` it vanishes at `p`. -/
def det {α : Type} [Scalar α] (n p v : Point α) : α := n.dot (p.cross v)

theorem det_eq : det n p v = n.x * (p.y * v.z - v.y * p.z) + n.y * (p.z * v.x - v.z * p.x) +
    n.z * (p.x * v.y - v.x * p.y) := rfl

theorem det_self : det n p p = 0 := by
  rw [det_eq]
  ring

theorem det_scale_left : det n (p.scale s) v = s * det n p v := by
  simp only [det_eq, scale_x, scale_y, scale_z]
  ring

theorem ProjEq.dot_eq_zero (h : p.ProjEq q) (hp : n.dot p = 0) : n.dot q = 0 := by
  obtain ⟨k, -, rfl⟩ := h
  rw [dot_scale_right, hp, mul_zero]

/-- The cross product of two points of a line is a multiple of its normal. -/
theorem cross_scale_normSq (hp : n.dot p = 0) (hv : n.dot v = 0) :
    (p.cross v).scale n.normSq = n.scale (det n p v) := by
  rw [dot_eq] at hp hv
  rw [normSq_eq, det_eq, cross_eq]
  ext
  · simp only [scale_x]
    linear_combination (n.y * v.z - n.z * v.y) * hp - (n.y * p.z - n.z * p.y) * hv
  · simp only [scale_y]
    linear_combination (n.z * v.x - n.x * v.z) * hp - (n.z * p.x - n.x * p.z) * hv
  · simp only [scale_z]
    linear_combination (n.x * v.y - n.y * v.x) * hp - (n.x * p.y - n.y * p.x) * hv

theorem det_mul_x (hp : n.dot p = 0) (hv : n.dot v = 0) :
    det n p v * n.x = n.normSq * (p.y * v.z - v.y * p.z) := by
  have h := congrArg Point.x (cross_scale_normSq hp hv)
  simp only [scale_x, cross_eq] at h
  linear_combination -h

theorem det_mul_y (hp : n.dot p = 0) (hv : n.dot v = 0) :
    det n p v * n.y = n.normSq * (p.z * v.x - v.z * p.x) := by
  have h := congrArg Point.y (cross_scale_normSq hp hv)
  simp only [scale_y, cross_eq] at h
  linear_combination -h

theorem det_eq_zero_iff (hn : n ≠ zero) (hp : n.dot p = 0) (hv : n.dot v = 0) (hp0 : p ≠ zero)
    (hv0 : v ≠ zero) : det n p v = 0 ↔ p.ProjEq v := by
  rw [projEq_iff_cross hp0 hv0]
  have hcross := cross_scale_normSq hp hv
  constructor
  · intro hdet
    rw [hdet, Point.ext_iff] at hcross
    simpa [eq_zero_iff, (normSq_pos hn).ne'] using hcross
  · intro h
    rw [det, h, zero_eq, dot_eq]
    ring

end Point

open Point

/-! ### Cubic forms in two variables -/

/-- A cubic with the zeros `t` and `u`, the latter a double one if it is `t`, is a product with
the third zero that its second coefficient asks for. -/
theorem cubic_form_eq {c₃ c₂ c₁ c₀ t u w : ℝ} (ht : c₃ * t ^ 3 + c₂ * t ^ 2 + c₁ * t + c₀ = 0)
    (hu : c₃ * u ^ 3 + c₂ * u ^ 2 + c₁ * u + c₀ = 0)
    (htu : t = u → 3 * c₃ * t ^ 2 + 2 * c₂ * t + c₁ = 0) (hw : c₃ * (t + u + w) = -c₂)
    (x y : ℝ) : c₃ * x ^ 3 + c₂ * x ^ 2 * y + c₁ * x * y ^ 2 + c₀ * y ^ 3 =
      c₃ * (x - t * y) * (x - u * y) * (x - w * y) := by
  -- the divided difference at `t` and `u`
  have hdiff : c₃ * (t ^ 2 + t * u + u ^ 2) + c₂ * (t + u) + c₁ = 0 := by
    by_cases h : t = u
    · subst h
      linear_combination htu rfl
    · apply mul_left_cancel₀ (sub_ne_zero.2 h)
      linear_combination ht - hu
  linear_combination (x ^ 2 * y - (t + u) * x * y ^ 2 + t * u * y ^ 3) * hw +
    (x * y ^ 2 - t * y ^ 3) * hdiff + y ^ 3 * ht

theorem affine_eq_zero_of_mul {a₀ a₁ b₀ b₁ c₀ c₁ : ℝ}
    (h : ∀ t : ℝ, (a₀ + a₁ * t) * (b₀ + b₁ * t) * (c₀ + c₁ * t) = 0) :
    (a₀ = 0 ∧ a₁ = 0) ∨ (b₀ = 0 ∧ b₁ = 0) ∨ (c₀ = 0 ∧ c₁ = 0) := by
  open Polynomial in
  have hmul : (C a₀ + C a₁ * X) * (C b₀ + C b₁ * X) * (C c₀ + C c₁ * X) = 0 := by
    apply Polynomial.funext
    intro t
    simpa using h t
  have hcoeff : ∀ e₀ e₁ : ℝ, C e₀ + C e₁ * X = 0 → e₀ = 0 ∧ e₁ = 0 := by
    intro e₀ e₁ he
    have h0 := congrArg (Polynomial.eval 0) he
    have h1 := congrArg (Polynomial.eval 1) he
    simp at h0 h1
    exact ⟨h0, by linarith⟩
  rcases mul_eq_zero.1 hmul with hab | hc
  · rcases mul_eq_zero.1 hab with ha | hb
    · exact .inl (hcoeff _ _ ha)
    · exact .inr (.inl (hcoeff _ _ hb))
  · exact .inr (.inr (hcoeff _ _ hc))

/-! ### Zeros on a line -/

namespace Equation

/-- The zeros of the equation's form on the line with normal `n` are `p`, `q` and `r`, counted with
multiplicity: there the form is a multiple of the product of the linear forms of these points. -/
structure CutsAt (equation : Equation ℝ) (n p q r : Point ℝ) : Prop where
  first : n.dot p = 0
  second : n.dot q = 0
  third : n.dot r = 0
  factors : ∃ k : ℝ, k ≠ 0 ∧ ∀ v, n.dot v = 0 →
    equation.residual v = k * (det n p v * det n q v * det n r v)

variable {equation : Equation ℝ} {n p q r v : Point ℝ}

namespace CutsAt

theorem swap (h : equation.CutsAt n p q r) : equation.CutsAt n q p r := by
  obtain ⟨k, hk, hfactors⟩ := h.factors
  refine ⟨h.second, h.first, h.third, k, hk, fun v hv => ?_⟩
  rw [hfactors v hv]
  ring

theorem rotate (h : equation.CutsAt n p q r) : equation.CutsAt n q r p := by
  obtain ⟨k, hk, hfactors⟩ := h.factors
  refine ⟨h.second, h.third, h.first, k, hk, fun v hv => ?_⟩
  rw [hfactors v hv]
  ring

theorem congr_first (h : equation.CutsAt n p q r) {p' : Point ℝ} (hp : p.ProjEq p') :
    equation.CutsAt n p' q r := by
  obtain ⟨k, hk, hfactors⟩ := h.factors
  have hp' := hp.dot_eq_zero h.first
  obtain ⟨s, hs, rfl⟩ := hp
  refine ⟨hp', h.second, h.third, k / s, div_ne_zero hk hs, fun v hv => ?_⟩
  rw [hfactors v hv, det_scale_left]
  field_simp

theorem congr_third (h : equation.CutsAt n p q r) {r' : Point ℝ} (hr : r.ProjEq r') :
    equation.CutsAt n p q r' :=
  (h.rotate.rotate.congr_first hr).rotate

theorem residual_third (h : equation.CutsAt n p q r) : equation.residual r = 0 := by
  obtain ⟨k, -, hfactors⟩ := h.factors
  rw [hfactors r h.third, det_self]
  ring

/-- On the line the curve has the three points and no other. -/
theorem residual_eq_zero_iff (h : equation.CutsAt n p q r) (hn : n ≠ zero) (hp : p ≠ zero)
    (hq : q ≠ zero) (hr : r ≠ zero) (hv : v ≠ zero) (hline : n.dot v = 0) :
    equation.residual v = 0 ↔ p.ProjEq v ∨ q.ProjEq v ∨ r.ProjEq v := by
  obtain ⟨k, hk, hfactors⟩ := h.factors
  rw [hfactors v hline, mul_eq_zero, mul_eq_zero, mul_eq_zero, or_iff_right hk,
    det_eq_zero_iff hn h.first hline hp hv, det_eq_zero_iff hn h.second hline hq hv,
    det_eq_zero_iff hn h.third hline hr hv, or_assoc]

/-- Two zeros with their multiplicities determine the third. -/
theorem third_unique (h : equation.CutsAt n p q r) {r' : Point ℝ}
    (h' : equation.CutsAt n p q r') (hn : n ≠ zero) (hp : p ≠ zero) (hq : q ≠ zero)
    (hr : r ≠ zero) (hr' : r' ≠ zero) : r.ProjEq r' := by
  obtain ⟨k, hk, hfactors⟩ := h.factors
  obtain ⟨k', hk', hfactors'⟩ := h'.factors
  rw [← det_eq_zero_iff hn h.third h'.third hr hr']
  by_contra hdet
  -- along `r + t · r'` the two products differ by the factor `k · t + k'`
  have hzero : ∀ t : ℝ, (det n p r + det n p r' * t) * (det n q r + det n q r' * t) *
      (k' + k * t) = 0 := by
    intro t
    let v : Point ℝ := ⟨r.x + t * r'.x, r.y + t * r'.y, r.z + t * r'.z⟩
    have hline : n.dot v = 0 := by
      have hthird := h.third
      have hthird' := h'.third
      simp only [v, dot_eq] at hthird hthird' ⊢
      linear_combination hthird + t * hthird'
    have hlinear : ∀ u : Point ℝ, det n u v = det n u r + det n u r' * t := by
      intro u
      simp only [v, det_eq]
      ring
    have heq := (hfactors v hline).symm.trans (hfactors' v hline)
    rw [hlinear p, hlinear q, hlinear r, hlinear r', det_self, det_self,
      show det n r' r = -det n r r' by simp only [det_eq]; ring] at heq
    apply mul_left_cancel₀ hdet
    linear_combination heq
  have hmeet : ∀ u : Point ℝ, u ≠ zero → n.dot u = 0 → ¬(det n u r = 0 ∧ det n u r' = 0) := by
    rintro u hu huline ⟨h0, h1⟩
    have hur := (det_eq_zero_iff hn huline h.third hu hr).1 h0
    have hur' := (det_eq_zero_iff hn huline h'.third hu hr').1 h1
    exact hdet ((det_eq_zero_iff hn h.third h'.third hr hr').2 (hur.symm.trans hur'))
  rcases affine_eq_zero_of_mul hzero with h0 | h0 | h0
  · exact hmeet p hp h.first h0
  · exact hmeet q hq h.second h0
  · exact hk' h0.1

end CutsAt

/-- The zeros on a line with coordinates `x` and `y`, in which none of the points has `y = 0`: the
third one is read off the second coefficient. -/
theorem cutsAt_of_form (x y : Point ℝ → ℝ) (s c₃ c₂ c₁ c₀ : ℝ) (hs : s ≠ 0) (hc : c₃ ≠ 0)
    (hdet : ∀ u v, n.dot u = 0 → n.dot v = 0 → y u * x v - x u * y v = s * det n u v)
    (hform : ∀ v, n.dot v = 0 → equation.residual v =
      c₃ * x v ^ 3 + c₂ * x v ^ 2 * y v + c₁ * x v * y v ^ 2 + c₀ * y v ^ 3)
    (hn : n ≠ zero) (hp : n.dot p = 0) (hq : n.dot q = 0) (hr : n.dot r = 0)
    (hp0 : p ≠ zero) (hq0 : q ≠ zero)
    (hpcurve : equation.residual p = 0) (hqcurve : equation.residual q = 0)
    (hyp : y p ≠ 0) (hyq : y q ≠ 0) (hyr : y r ≠ 0)
    (htangent : p.ProjEq q → 3 * c₃ * (x p / y p) ^ 2 + 2 * c₂ * (x p / y p) + c₁ = 0)
    (hsum : c₃ * (x p / y p + x q / y q + x r / y r) = -c₂) :
    equation.CutsAt n p q r := by
  have hroot : ∀ u, n.dot u = 0 → equation.residual u = 0 → y u ≠ 0 →
      c₃ * (x u / y u) ^ 3 + c₂ * (x u / y u) ^ 2 + c₁ * (x u / y u) + c₀ = 0 := by
    intro u hu hcurve hyu
    rw [hform u hu] at hcurve
    field_simp
    linear_combination hcurve
  have hdouble : x p / y p = x q / y q →
      3 * c₃ * (x p / y p) ^ 2 + 2 * c₂ * (x p / y p) + c₁ = 0 := by
    intro heq
    apply htangent
    rw [← det_eq_zero_iff hn hp hq hp0 hq0]
    have h := hdet p q hp hq
    rw [div_eq_div_iff hyp hyq] at heq
    apply mul_left_cancel₀ hs
    linear_combination -heq - h
  have hlinear : ∀ u v, n.dot u = 0 → n.dot v = 0 → y u ≠ 0 →
      x v - x u / y u * y v = s / y u * det n u v := by
    intro u v hu hv hyu
    have h := hdet u v hu hv
    field_simp
    linear_combination h
  refine ⟨hp, hq, hr, c₃ * (s / y p) * (s / y q) * (s / y r), ?_, fun v hv => ?_⟩
  · exact mul_ne_zero (mul_ne_zero (mul_ne_zero hc (div_ne_zero hs hyp)) (div_ne_zero hs hyq))
      (div_ne_zero hs hyr)
  · rw [hform v hv, cubic_form_eq (hroot p hp hpcurve hyp) (hroot q hq hqcurve hyq) hdouble hsum,
      hlinear p v hp hv hyp, hlinear q v hq hv hyq, hlinear r v hr hv hyr]
    ring

end Equation

end EllipticPlot
