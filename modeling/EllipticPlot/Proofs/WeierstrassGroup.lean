import EllipticPlot.Proofs.ChordTangent
import EllipticPlot.Proofs.PointGroup
import Mathlib.AlgebraicGeometry.EllipticCurve.Affine.Point

/-!
# The group of a Weierstrass curve

The points of a smooth Weierstrass curve form an abelian group, with the point at infinity as its
neutral element. The third zero on the line of two summands is the inverse of their sum, so the
chord-tangent law of the computed sum makes it compute the sums of this group; its laws follow.
-/

namespace EllipticPlot

open Point

variable {a b : ℝ} {n p q r : Point ℝ}

namespace Weierstrass

open WeierstrassCurve.Affine (slope_of_X_ne slope_of_Y_ne)

/-! ### Elements and their triples -/

/-- The curve `y² = x³ + a·x + b` of the affine plane. -/
def affine (a b : ℝ) : WeierstrassCurve.Affine ℝ := ⟨0, 0, 0, a, b⟩

/-- An element of the group as a point: the neutral element lies at infinity. -/
noncomputable def triple : (affine a b).Point → Point ℝ
  | .zero => neutral
  | .some x y _ => ⟨x, y, 1⟩

theorem equation_affine_iff {x y : ℝ} :
    (affine a b).Equation x y ↔ (Equation.weierstrass a b).residual ⟨x, y, 1⟩ = 0 := by
  rw [WeierstrassCurve.Affine.equation_iff, Equation.residual_weierstrass, affine]
  constructor
  · intro h
    linear_combination -h
  · intro h
    linear_combination -h

theorem nonsingular_of_residual (hsmooth : 4 * a ^ 3 + 27 * b ^ 2 ≠ 0) {x y : ℝ}
    (h : (Equation.weierstrass a b).residual ⟨x, y, 1⟩ = 0) : (affine a b).Nonsingular x y := by
  have hΔ : (affine a b).Δ = -16 * (4 * a ^ 3 + 27 * b ^ 2) := by
    rw [WeierstrassCurve.Δ, WeierstrassCurve.b₂, WeierstrassCurve.b₄, WeierstrassCurve.b₆,
      WeierstrassCurve.b₈, affine]
    ring
  have hne : (affine a b).Δ ≠ 0 := by
    rw [hΔ]
    exact mul_ne_zero (by norm_num) hsmooth
  exact (WeierstrassCurve.Affine.equation_iff_nonsingular_of_Δ_ne_zero hne).1
    (equation_affine_iff.2 h)

theorem triple_ne_zero (P : (affine a b).Point) : triple P ≠ zero := by
  cases P with
  | zero => exact neutral_ne_zero
  | some x y h =>
    rw [Ne, eq_zero_iff]
    norm_num [triple]

theorem residual_triple (P : (affine a b).Point) :
    (Equation.weierstrass a b).residual (triple P) = 0 := by
  cases P with
  | zero =>
    rw [triple, neutral_eq, Equation.residual_weierstrass]
    ring
  | some x y h => exact equation_affine_iff.1 h.1

theorem on_curve_of_triple {P : (affine a b).Point} (hp : (triple P).ProjEq p) :
    (Equation.weierstrass a b).residual p = 0 :=
  Equation.residual_eq_zero_of_projEq hp (residual_triple P)

/-- Every point of the curve denotes an element. -/
theorem exists_triple (hsmooth : 4 * a ^ 3 + 27 * b ^ 2 ≠ 0) (hp : p ≠ zero)
    (hcurve : (Equation.weierstrass a b).residual p = 0) :
    ∃ P : (affine a b).Point, (triple P).ProjEq p := by
  by_cases hz : p.z = 0
  · exact ⟨.zero, neutral_projEq hp hz hcurve⟩
  · have hprojEq : (⟨p.x / p.z, p.y / p.z, 1⟩ : Point ℝ).ProjEq p := by
      refine ⟨p.z, hz, ?_⟩
      ext <;> simp [hz]
    have haffine := Equation.residual_eq_zero_of_projEq hprojEq.symm hcurve
    exact ⟨.some _ _ (nonsingular_of_residual hsmooth haffine), hprojEq⟩

/-- The inverse is the mirror image. -/
theorem triple_neg (P : (affine a b).Point) : (triple P).mirrorY.ProjEq (triple (-P)) := by
  cases P with
  | zero => exact neutral_projEq_mirrorY.symm
  | some x y h =>
    refine ⟨1, one_ne_zero, ?_⟩
    rw [WeierstrassCurve.Affine.Point.neg_some]
    ext <;> simp [triple, WeierstrassCurve.Affine.negY, affine]

/-! ### The third zero is the inverse of the sum -/

theorem finitePoint_of_affine {x y : ℝ} (h : (affine a b).Nonsingular x y)
    (hp : (⟨x, y, 1⟩ : Point ℝ).ProjEq p) : (Equation.weierstrass a b).FinitePoint p := by
  refine ⟨?_, Equation.residual_eq_zero_of_projEq hp (equation_affine_iff.1 h.1)⟩
  obtain ⟨k, hk, rfl⟩ := hp
  simpa using hk

theorem x_div_z_of_affine {x y : ℝ} (hp : (⟨x, y, 1⟩ : Point ℝ).ProjEq p) : p.x / p.z = x := by
  obtain ⟨k, hk, rfl⟩ := hp
  rw [scale_x, scale_z, one_mul, mul_div_cancel_right₀ _ hk]

theorem line_at_affine {x y : ℝ} (hline : n.dot p = 0) (hp : (⟨x, y, 1⟩ : Point ℝ).ProjEq p) :
    n.x * x + n.y * y + n.z = 0 := by
  have h := hp.symm.dot_eq_zero hline
  rw [dot_eq] at h
  linear_combination h

section Chord

variable {x₁ y₁ x₂ y₂ : ℝ} (hline : (Equation.weierstrass a b).IsChord n p q)
  (hp : (⟨x₁, y₁, 1⟩ : Point ℝ).ProjEq p) (hq : (⟨x₂, y₂, 1⟩ : Point ℝ).ProjEq q)

include hline hp

/-- The tangent at a finite point. -/
theorem tangent_eq (hpq : p.ProjEq q) :
    ∃ k : ℝ, k ≠ 0 ∧ n.x = k * (3 * x₁ ^ 2 + a) ∧ n.y = k * (-2 * y₁) := by
  have htangent := hline.tangent hpq
  obtain ⟨k, hk, rfl⟩ := hp
  rw [Equation.gradient_weierstrass] at htangent
  refine ⟨k ^ 2, pow_ne_zero 2 hk, ?_, ?_⟩
  · rw [htangent]
    simp only [scale_x, scale_z]
    ring
  · rw [htangent]
    simp only [scale_y, scale_z]
    ring

include hq

/-- The line through a finite point and its mirror image is vertical. -/
theorem chord_vertical (hx : x₁ = x₂) (hy : y₁ = -y₂) : n.y = 0 := by
  have hfirst := line_at_affine hline.first hp
  have hsecond := line_at_affine hline.second hq
  by_cases hzero : y₁ = 0
  · have hpq : p.ProjEq q := by
      have hsame : y₂ = y₁ := by linarith
      rw [← hx, hsame] at hq
      exact hp.symm.trans hq
    obtain ⟨k, -, -, hny⟩ := tangent_eq hline hp hpq
    rw [hny, hzero]
    ring
  · apply mul_right_cancel₀ hzero
    rw [hx] at hfirst
    linear_combination (hfirst - hsecond + n.y * hy) / 2

/-- Any other line through two finite points has the slope that the group law asks for. -/
theorem chord_slope (hpcurve : (affine a b).Equation x₁ y₁)
    (hqcurve : (affine a b).Equation x₂ y₂)
    (hxy : ¬(x₁ = x₂ ∧ y₁ = (affine a b).negY x₂ y₂)) :
    n.y ≠ 0 ∧ (affine a b).slope x₁ x₂ y₁ y₂ = -(n.x / n.y) := by
  have hfirst := line_at_affine hline.first hp
  have hsecond := line_at_affine hline.second hq
  by_cases hx : x₁ = x₂
  · have hne : y₁ ≠ (affine a b).negY x₂ y₂ := fun hy => hxy ⟨hx, hy⟩
    have hy := WeierstrassCurve.Affine.Y_eq_of_Y_ne hpcurve hqcurve hx hne
    rw [slope_of_Y_ne hx hne]
    -- one point twice, so the line is its tangent
    rw [← hx, ← hy] at hq hne
    have hne : y₁ ≠ 0 := by
      rintro rfl
      simp [WeierstrassCurve.Affine.negY, affine] at hne
    obtain ⟨k, hk, hnx, hny⟩ := tangent_eq hline hp (hp.symm.trans hq)
    have hvertical : n.y ≠ 0 := by
      rw [hny]
      exact mul_ne_zero hk (mul_ne_zero (by norm_num) hne)
    refine ⟨hvertical, ?_⟩
    have hdouble : y₁ - (-y₁ - 0 * x₁ - 0) = 2 * y₁ := by ring
    rw [hnx, hny, mul_div_mul_left _ _ hk, WeierstrassCurve.Affine.negY, affine, hdouble]
    field_simp
    ring
  · have hdiff : x₁ - x₂ ≠ 0 := sub_ne_zero.2 hx
    have hvertical : n.y ≠ 0 := by
      intro hny
      have hnx : n.x = 0 := by
        apply mul_right_cancel₀ hdiff
        linear_combination hfirst - hsecond - (y₁ - y₂) * hny
      have hnz : n.z = 0 := by
        rw [hnx, hny] at hfirst
        linear_combination hfirst
      exact hline.ne_zero (eq_zero_iff.2 ⟨hnx, hny, hnz⟩)
    refine ⟨hvertical, ?_⟩
    rw [slope_of_X_ne hx]
    field_simp
    linear_combination hfirst - hsecond

end Chord

/-- The inverse of a sum, by the slope of the line. -/
theorem triple_neg_add {x₁ y₁ x₂ y₂ s : ℝ} (h₁ : (affine a b).Nonsingular x₁ y₁)
    (h₂ : (affine a b).Nonsingular x₂ y₂) (hxy : ¬(x₁ = x₂ ∧ y₁ = (affine a b).negY x₂ y₂))
    (hs : (affine a b).slope x₁ x₂ y₁ y₂ = s) :
    triple (-(WeierstrassCurve.Affine.Point.some x₁ y₁ h₁ + .some x₂ y₂ h₂)) =
      ⟨s ^ 2 - x₁ - x₂, s * (s ^ 2 - x₁ - x₂ - x₁) + y₁, 1⟩ := by
  rw [WeierstrassCurve.Affine.Point.add_some hxy, WeierstrassCurve.Affine.Point.neg_some,
    triple, hs, WeierstrassCurve.Affine.addY, WeierstrassCurve.Affine.negY_negY,
    WeierstrassCurve.Affine.negAddY, WeierstrassCurve.Affine.addX, affine]
  ext
  · ring
  · ring
  · rfl

theorem cutsAt_affine {x₁ y₁ x₂ y₂ : ℝ} (h₁ : (affine a b).Nonsingular x₁ y₁)
    (h₂ : (affine a b).Nonsingular x₂ y₂) (hp : (⟨x₁, y₁, 1⟩ : Point ℝ).ProjEq p)
    (hq : (⟨x₂, y₂, 1⟩ : Point ℝ).ProjEq q) (hline : (Equation.weierstrass a b).IsChord n p q) :
    (Equation.weierstrass a b).CutsAt n p q
      (triple (-(WeierstrassCurve.Affine.Point.some x₁ y₁ h₁ + .some x₂ y₂ h₂))) := by
  have hpfinite := finitePoint_of_affine h₁ hp
  have hqfinite := finitePoint_of_affine h₂ hq
  by_cases hxy : x₁ = x₂ ∧ y₁ = (affine a b).negY x₂ y₂
  · obtain ⟨hx, hy⟩ := hxy
    have hneg : y₁ = -y₂ := by simpa [WeierstrassCurve.Affine.negY, affine] using hy
    -- mirror images add up to the neutral element, the third zero of a vertical line
    rw [WeierstrassCurve.Affine.Point.add_of_Y_eq hx hy, neg_zero]
    exact cutsAt_neutral hline (chord_vertical hline hp hq hx hneg) hpfinite hqfinite
  · obtain ⟨hny, hslope⟩ := chord_slope hline hp hq h₁.1 h₂.1 hxy
    have hfirst := line_at_affine hline.first hp
    rw [triple_neg_add h₁ h₂ hxy hslope]
    refine cutsAt_chartZ hline hpfinite hqfinite hny ?_ one_ne_zero ?_
    · rw [dot_eq]
      field_simp
      linear_combination n.y ^ 2 * hfirst
    · rw [x_div_z_of_affine hp, x_div_z_of_affine hq]
      ring

/-- The zeros of the curve's form on the line of two points are these points and the inverse of
their sum. -/
theorem cutsAt_triple {P Q : (affine a b).Point} (hp : (triple P).ProjEq p)
    (hq : (triple Q).ProjEq q) (hline : (Equation.weierstrass a b).IsChord n p q) :
    (Equation.weierstrass a b).CutsAt n p q (triple (-(P + Q))) := by
  cases P with
  | zero =>
    have hsum : (0 : (affine a b).Point) + Q = Q := zero_add Q
    rw [← WeierstrassCurve.Affine.Point.zero_def, hsum]
    exact (cutsAt_neutral_left hline hp (hq.ne_zero (triple_ne_zero Q))
      (on_curve_of_triple hq)).congr_third (hq.symm.mirrorY.trans (triple_neg Q))
  | some x₁ y₁ h₁ =>
    cases Q with
    | zero =>
      rw [← WeierstrassCurve.Affine.Point.zero_def, add_zero]
      exact (cutsAt_neutral_right hline (finitePoint_of_affine h₁ hp) hq).congr_third
        (hp.symm.mirrorY.trans (triple_neg _))
    | some x₂ y₂ h₂ => exact cutsAt_affine h₁ h₂ hp hq hline

/-! ### The computed sum -/

/-- A pair of triples about which the tolerances of the addition leave no doubt. -/
structure Sharp (p q : Point ℝ) : Prop where
  resolved : p.Resolved q
  first : p.ClearOfInfinity
  second : q.ClearOfInfinity

theorem Sharp.symm (h : Sharp p q) : Sharp q p := ⟨h.resolved.symm, h.second, h.first⟩

/-- Whether a pair is sharp depends on the points that its triples denote. -/
theorem Sharp.congr {p' q' : Point ℝ} (h : Sharp p q) (hp : p.ProjEq p') (hq : q.ProjEq q') :
    Sharp p' q' :=
  ⟨h.resolved.congr hp hq, h.first.congr hp, h.second.congr hq⟩

/-- On sharp pairs the sum is computed in the group. -/
theorem computesSum (hsmooth : 4 * a ^ 3 + 27 * b ^ 2 ≠ 0) (threshold : ℝ) :
    ComputesSum (G := (affine a b).Point) triple Sharp
      fun p q => (sum a b threshold p q).point where
  projEq {P Q p q} hp hq hpq := by
    have hp0 := hp.ne_zero (triple_ne_zero P)
    have hq0 := hq.ne_zero (triple_ne_zero Q)
    have hpcurve := on_curve_of_triple hp
    have hqcurve := on_curve_of_triple hq
    have hline := isChord_line hsmooth hp0 hq0 hpcurve hpq.resolved
    obtain ⟨hnorm, hcuts⟩ :=
      cutsAt_sum hsmooth hp0 hq0 hpcurve hqcurve hpq.resolved hpq.first hpq.second threshold
    -- both sums come from the third zero of one line
    have hthird := (cutsAt_triple hp hq hline).third_unique hcuts hline.ne_zero hp0 hq0
      (triple_ne_zero _) (mirrorY_ne_zero (ne_zero_of_norm_eq_one hnorm))
    have hneg := triple_neg (-(P + Q))
    rw [neg_neg] at hneg
    have hsum := hneg.symm.trans hthird.mirrorY
    rwa [mirrorY_mirrorY] at hsum

/-- The chord formula for the sum of two finite points. -/
theorem sum_chord (hsmooth : 4 * a ^ 3 + 27 * b ^ 2 ≠ 0) {x₁ y₁ x₂ y₂ s : ℝ} (hx : x₁ ≠ x₂)
    (hs : s * (x₁ - x₂) = y₁ - y₂)
    (h₁ : (Equation.weierstrass a b).residual ⟨x₁, y₁, 1⟩ = 0)
    (h₂ : (Equation.weierstrass a b).residual ⟨x₂, y₂, 1⟩ = 0)
    (hsharp : Sharp ⟨x₁, y₁, 1⟩ ⟨x₂, y₂, 1⟩) (threshold : ℝ) :
    (⟨s ^ 2 - x₁ - x₂, -(s * (s ^ 2 - x₁ - x₂ - x₁) + y₁), 1⟩ : Point ℝ).ProjEq
      (sum a b threshold ⟨x₁, y₁, 1⟩ ⟨x₂, y₂, 1⟩).point := by
  have hns₁ := nonsingular_of_residual hsmooth h₁
  have hns₂ := nonsingular_of_residual hsmooth h₂
  have hslope : (affine a b).slope x₁ x₂ y₁ y₂ = s := by
    rw [slope_of_X_ne hx, div_eq_iff (sub_ne_zero.2 hx), hs]
  have hthird := triple_neg_add hns₁ hns₂ (fun h => hx h.1) hslope
  have hneg := triple_neg (-(WeierstrassCurve.Affine.Point.some x₁ y₁ hns₁ + .some x₂ y₂ hns₂))
  rw [hthird, neg_neg] at hneg
  exact hneg.trans ((computesSum hsmooth threshold).projEq (.refl _) (.refl _) hsharp)

end Weierstrass

open Weierstrass

/-- On an accepted Weierstrass curve the addition of points is an abelian group law up to the scale
of triples, as long as every pair that is added is sharp: it is associative and commutative, the
point at infinity is neutral, and mirror images are inverse to each other. -/
theorem add_group_laws {curve : Curve ℝ}
    (haccepted : Curve.ofEquation (.weierstrass a b) = .ok curve)
    (hp : p ≠ zero) (hq : q ≠ zero) (hr : r ≠ zero) (hpcurve : curve.equation.residual p = 0)
    (hqcurve : curve.equation.residual q = 0) (hrcurve : curve.equation.residual r = 0) :
    let add := fun p q => (curve.equation.add p q).point
    (Sharp p q → Sharp q r → Sharp (add p q) r → Sharp p (add q r) →
        (add (add p q) r).ProjEq (add p (add q r))) ∧
      (Sharp p q → (add p q).ProjEq (add q p)) ∧
      (Sharp p neutral → (add p neutral).ProjEq p) ∧
      (Sharp p p.mirrorY → (add p p.mirrorY).ProjEq neutral) := by
  intro add
  have hsmooth := Curve.discriminant_ne_zero haccepted
  have hcomputes := computesSum hsmooth defaultThreshold
  rw [Curve.equation_of_accepted haccepted] at hpcurve hqcurve hrcurve
  have hadd : add = fun p q => (sum a b defaultThreshold p q).point := by
    simp only [add, Curve.equation_of_accepted haccepted]
    rfl
  rw [← hadd] at hcomputes
  obtain ⟨P, hP⟩ := exists_triple hsmooth hp hpcurve
  obtain ⟨Q, hQ⟩ := exists_triple hsmooth hq hqcurve
  obtain ⟨R, hR⟩ := exists_triple hsmooth hr hrcurve
  refine ⟨fun hpq hqr hleft hright => ?_, fun hpq => ?_, fun hpO => ?_, fun hpp => ?_⟩
  · exact hcomputes.assoc hP hQ hR hpq hqr hleft hright
  · exact hcomputes.comm hP hQ hpq hpq.symm
  · exact hcomputes.zero_right hP (.refl neutral) hpO
  · exact (hcomputes.neg_right hP ((triple_neg P).symm.trans hP.mirrorY) hpp).symm

/-- On `y² = x³ + 1` the points `(2, 3)`, `(0, 1)` and `(-1, 0)` add up to the neutral element, on
the left as the double of `(-1, 0)` and on the right as the sum of `(2, 3)` and `(2, -3)`. -/
theorem group_laws_two_three :
    let curve : Curve ℝ := ⟨.weierstrass 0 1, [⟨-1, 0.0, 1.0⟩]⟩
    let p : Point ℝ := ⟨2, 3, 1⟩
    let q : Point ℝ := ⟨0, 1, 1⟩
    let r : Point ℝ := ⟨-1, 0, 1⟩
    let add := fun p q => (curve.equation.add p q).point
    Curve.ofEquation (.weierstrass 0 1) = .ok curve ∧ p ≠ zero ∧ q ≠ zero ∧ r ≠ zero ∧
      curve.equation.residual p = 0 ∧ curve.equation.residual q = 0 ∧
      curve.equation.residual r = 0 ∧ Sharp p q ∧ Sharp q r ∧ Sharp (add p q) r ∧
      Sharp p (add q r) ∧ Sharp p neutral ∧ Sharp p p.mirrorY ∧
      (add (add p q) r).ProjEq (add p (add q r)) ∧ (add p q).ProjEq (add q p) ∧
      (add p neutral).ProjEq p ∧ (add p p.mirrorY).ProjEq neutral := by
  intro curve p q r add
  have hsmooth : (4 * 0 ^ 3 + 27 * 1 ^ 2 : ℝ) ≠ 0 := by norm_num
  have hcurve : ∀ x y : ℝ, y ^ 2 = x ^ 3 + 1 → curve.equation.residual ⟨x, y, 1⟩ = 0 := by
    intro x y h
    rw [Equation.residual_weierstrass]
    linear_combination -h
  have hpcurve := hcurve 2 3 (by norm_num)
  have hqcurve := hcurve 0 1 (by norm_num)
  have hrcurve := hcurve (-1) 0 (by norm_num)
  have hne : ∀ x y : ℝ, (⟨x, y, 1⟩ : Point ℝ) ≠ zero := by
    intro x y h
    exact one_ne_zero (eq_zero_iff.1 h).2.2
  have hclear : ∀ x y : ℝ, x ^ 2 + y ^ 2 < 14 → (⟨x, y, 1⟩ : Point ℝ).ClearOfInfinity := by
    intro x y h
    apply ClearOfInfinity.of_normSq_lt
    rw [normSq_eq]
    norm_num
    linarith
  have hpclear := hclear 2 3 (by norm_num)
  have hqclear := hclear 0 1 (by norm_num)
  have hrclear := hclear (-1) 0 (by norm_num)
  have hnclear := hclear 2 (-3) (by norm_num)
  have hpq : Sharp p q := ⟨.of_one_le_cross (by norm_num [normSq_eq, cross_eq, p, q])
    (by norm_num [normSq_eq, p, q]), hpclear, hqclear⟩
  have hqr : Sharp q r := ⟨.of_one_le_cross (by norm_num [normSq_eq, cross_eq, q, r])
    (by norm_num [normSq_eq, q, r]), hqclear, hrclear⟩
  have hleft : r.ProjEq (add p q) := by
    have h := sum_chord hsmooth (s := 1) (by norm_num) (by norm_num) hpcurve hqcurve hpq
      defaultThreshold
    norm_num at h
    exact h
  have hright : (⟨2, -3, 1⟩ : Point ℝ).ProjEq (add q r) := by
    have h := sum_chord hsmooth (s := 1) (by norm_num) (by norm_num) hqcurve hrcurve hqr
      defaultThreshold
    norm_num at h
    exact h
  have hpp : Sharp p p.mirrorY := ⟨.of_one_le_cross (by norm_num [normSq_eq, cross_eq, p])
    (by norm_num [normSq_eq, p]), hpclear, hnclear⟩
  have hpO : Sharp p neutral := ⟨.of_one_le_cross (by norm_num [normSq_eq, cross_eq, neutral_eq, p])
    (by norm_num [normSq_eq, neutral_eq, p]), hpclear, .inl (by norm_num [neutral])⟩
  have hpqr : Sharp (add p q) r := Sharp.congr ⟨.inl (.refl r), hrclear, hrclear⟩ hleft (.refl r)
  have hp_qr : Sharp p (add q r) := hpp.congr (.refl p) hright
  obtain ⟨hassoc, hcomm, hzero, hneg⟩ := add_group_laws Curve.accepted_zero_one (hne 2 3)
    (hne 0 1) (hne (-1) 0) hpcurve hqcurve hrcurve
  exact ⟨Curve.accepted_zero_one, hne 2 3, hne 0 1, hne (-1) 0, hpcurve, hqcurve, hrcurve, hpq,
    hqr, hpqr, hp_qr, hpO, hpp, hassoc hpq hqr hpqr hp_qr, hcomm hpq, hzero hpO, hneg hpp⟩

end EllipticPlot
