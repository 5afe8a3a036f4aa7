import EllipticPlot.GroupLaw
import EllipticPlot.Proofs.Candidates
import EllipticPlot.Proofs.RealPlane

/-!
# The Edwards addition law

The sum of two finite points of an Edwards curve, read over the real numbers. With affine
coordinates `(x₁, y₁)` and `(x₂, y₂)` and `m = d·x₁x₂y₁y₂` the reference law is

  `x₃ = (x₁y₂ + y₁x₂) / (1 + m)`, `y₃ = (y₁y₂ - x₁x₂) / (1 - m)`.

The unified formula is this law with the denominators multiplied out. The dedicated formulas do not
mention `d`: they agree with the law because both summands satisfy the curve equation.
-/

namespace EllipticPlot.Edwards

open Point

/-- The affine coordinates of a point of the curve with parameter `d`. -/
def OnCurve (d x y : ℝ) : Prop := x ^ 2 + y ^ 2 = 1 + d * x ^ 2 * y ^ 2

/-- The reference law as a triple. -/
noncomputable def referenceSum (d x₁ y₁ x₂ y₂ : ℝ) : Point ℝ :=
  let m := d * x₁ * x₂ * y₁ * y₂
  ⟨(x₁ * y₂ + y₁ * x₂) * (1 - m), (y₁ * y₂ - x₁ * x₂) * (1 + m), (1 + m) * (1 - m)⟩

variable {d x₁ y₁ z₁ x₂ y₂ z₂ : ℝ} {p q r s : Point ℝ}

theorem exists_affine (hz : p.z ≠ 0) (hp : (Equation.edwards d).residual p = 0) :
    p = ⟨p.x / p.z * p.z, p.y / p.z * p.z, p.z⟩ ∧ OnCurve d (p.x / p.z) (p.y / p.z) := by
  constructor
  · rw [div_mul_cancel₀ _ hz, div_mul_cancel₀ _ hz]
  · rw [Equation.residual_edwards] at hp
    rw [OnCurve]
    field_simp
    linear_combination hp

/-- The four points with coordinates `±1` lie on the curve with parameter `1` only. -/
theorem eq_one_of_corner (h : OnCurve d x₁ y₁) (hx : x₁ ^ 2 = 1) (hy : y₁ ^ 2 = 1) : d = 1 := by
  rw [OnCurve, hx, hy] at h
  linarith

/-! ### The reference law stays on the curve -/

theorem residual_referenceSum (h₁ : OnCurve d x₁ y₁) (h₂ : OnCurve d x₂ y₂) :
    (Equation.edwards d).residual (referenceSum d x₁ y₁ x₂ y₂) = 0 := by
  rw [OnCurve] at h₁ h₂
  have hclosed : (x₁ * y₂ + y₁ * x₂) ^ 2 * (1 - d * x₁ * x₂ * y₁ * y₂) ^ 2 +
      (y₁ * y₂ - x₁ * x₂) ^ 2 * (1 + d * x₁ * x₂ * y₁ * y₂) ^ 2 =
      (1 + d * x₁ * x₂ * y₁ * y₂) ^ 2 * (1 - d * x₁ * x₂ * y₁ * y₂) ^ 2 +
        d * (x₁ * y₂ + y₁ * x₂) ^ 2 * (y₁ * y₂ - x₁ * x₂) ^ 2 := by
    linear_combination
      ((x₂ ^ 2 + y₂ ^ 2) * (1 + (d * x₁ * x₂ * y₁ * y₂) ^ 2) -
        d * x₂ ^ 2 * y₂ ^ 2 * (x₁ ^ 2 + y₁ ^ 2 + 1 + d * x₁ ^ 2 * y₁ ^ 2)) * h₁ +
      ((1 + d * x₁ ^ 2 * y₁ ^ 2) * (1 + (d * x₁ * x₂ * y₁ * y₂) ^ 2) -
        d * x₁ ^ 2 * y₁ ^ 2 * (x₂ ^ 2 + y₂ ^ 2 + 1 + d * x₂ ^ 2 * y₂ ^ 2)) * h₂
  rw [Equation.residual_edwards, referenceSum]
  linear_combination (1 + d * x₁ * x₂ * y₁ * y₂) ^ 2 * (1 - d * x₁ * x₂ * y₁ * y₂) ^ 2 * hclosed

/-! ### Both formulas give the reference law -/

theorem dedicated_eq : dedicated ⟨x₁ * z₁, y₁ * z₁, z₁⟩ ⟨x₂ * z₂, y₂ * z₂, z₂⟩ =
    Point.scale ((z₁ * z₂) ^ 4) ⟨(x₁ * y₁ + x₂ * y₂) * (x₁ * y₂ - y₁ * x₂),
      (x₁ * y₁ - x₂ * y₂) * (x₁ * x₂ + y₁ * y₂),
      (x₁ * y₂ - y₁ * x₂) * (x₁ * x₂ + y₁ * y₂)⟩ := by
  rw [dedicated]
  ext <;> simp only [scale_x, scale_y, scale_z] <;> ring

theorem doubled_eq : doubled ⟨x₁ * z₁, y₁ * z₁, z₁⟩ =
    Point.scale (z₁ ^ 4) ⟨2 * x₁ * y₁ * (x₁ ^ 2 + y₁ ^ 2 - 2),
      (x₁ ^ 2 + y₁ ^ 2) * (x₁ ^ 2 - y₁ ^ 2),
      (x₁ ^ 2 + y₁ ^ 2) * (x₁ ^ 2 + y₁ ^ 2 - 2)⟩ := by
  rw [doubled]
  ext <;> simp only [scale_x, scale_y, scale_z, Scalar.sq] <;> norm_num <;> ring

theorem unifiedSum?_eq : unifiedSum? d ⟨x₁ * z₁, y₁ * z₁, z₁⟩ ⟨x₂ * z₂, y₂ * z₂, z₂⟩ =
    ((referenceSum d x₁ y₁ x₂ y₂).scale ((z₁ * z₂) ^ 4)).proper? := by
  rw [unifiedSum?]
  dsimp only
  congr 1
  ext <;> simp only [scale_x, scale_y, scale_z, Scalar.sq, referenceSum] <;> ring

theorem dedicated_cross_referenceSum (h₁ : OnCurve d x₁ y₁) (h₂ : OnCurve d x₂ y₂) :
    (dedicated ⟨x₁ * z₁, y₁ * z₁, z₁⟩ ⟨x₂ * z₂, y₂ * z₂, z₂⟩).cross
      (referenceSum d x₁ y₁ x₂ y₂) = zero := by
  rw [OnCurve] at h₁ h₂
  -- the law's fractions and the dedicated ones agree, coordinate by coordinate
  have hx : (x₁ * y₁ + x₂ * y₂) * (1 + d * x₁ * x₂ * y₁ * y₂) =
      (x₁ * x₂ + y₁ * y₂) * (x₁ * y₂ + y₁ * x₂) := by
    linear_combination -(x₂ * y₂) * h₁ - (x₁ * y₁) * h₂
  have hy : (x₁ * y₁ - x₂ * y₂) * (1 - d * x₁ * x₂ * y₁ * y₂) =
      (x₁ * y₂ - y₁ * x₂) * (y₁ * y₂ - x₁ * x₂) := by
    linear_combination (x₂ * y₂) * h₁ - (x₁ * y₁) * h₂
  rw [dedicated_eq, eq_zero_iff, cross_eq, referenceSum]
  simp only [scale_x, scale_y, scale_z]
  refine ⟨?_, ?_, ?_⟩
  · linear_combination (z₁ * z₂) ^ 4 * (x₁ * x₂ + y₁ * y₂) * (1 + d * x₁ * x₂ * y₁ * y₂) * hy
  · linear_combination
      -(z₁ * z₂) ^ 4 * (x₁ * y₂ - y₁ * x₂) * (1 - d * x₁ * x₂ * y₁ * y₂) * hx
  · linear_combination
      (z₁ * z₂) ^ 4 * (x₁ * y₂ - y₁ * x₂) * (y₁ * y₂ - x₁ * x₂) * hx -
        (z₁ * z₂) ^ 4 * (x₁ * x₂ + y₁ * y₂) * (x₁ * y₂ + y₁ * x₂) * hy

theorem doubled_cross_referenceSum (h₁ : OnCurve d x₁ y₁) :
    (doubled ⟨x₁ * z₁, y₁ * z₁, z₁⟩).cross (referenceSum d x₁ y₁ x₁ y₁) = zero := by
  rw [OnCurve] at h₁
  rw [doubled_eq, eq_zero_iff, cross_eq, referenceSum]
  simp only [scale_x, scale_y, scale_z]
  refine ⟨?_, ?_, ?_⟩
  · linear_combination
      z₁ ^ 4 * (x₁ ^ 2 + y₁ ^ 2) * (x₁ ^ 2 - y₁ ^ 2) * (1 + d * x₁ * x₁ * y₁ * y₁) * h₁
  · linear_combination
      z₁ ^ 4 * (2 * x₁ * y₁) * (x₁ ^ 2 + y₁ ^ 2 - 2) * (1 - d * x₁ * x₁ * y₁ * y₁) * h₁
  · linear_combination -(z₁ ^ 4) * (4 * x₁ * y₁) * (x₁ ^ 2 - y₁ ^ 2) * h₁

/-! ### The formula that fits a pair -/

theorem same_iff_cross (hpz : p.z ≠ 0) (hqz : q.z ≠ 0) (hpq : p.Resolved q) :
    p.same q = true ↔ p.cross q = zero := by
  have hp : p ≠ zero := fun h => hpz (eq_zero_iff.1 h).2.2
  have hq : q ≠ zero := fun h => hqz (eq_zero_iff.1 h).2.2
  rw [same_iff hp hq hpq, projEq_iff_cross hp hq]

theorem dedicatedSum?_of_projEq (hpz : p.z ≠ 0) (hqz : q.z ≠ 0) (hpq : p.ProjEq q)
    (h : doubled p ≠ zero) : ∃ r, dedicatedSum? p q = some r ∧ (doubled p).ProjEq r := by
  have hp : p ≠ zero := fun h => hpz (eq_zero_iff.1 h).2.2
  have hq : q ≠ zero := fun h => hqz (eq_zero_iff.1 h).2.2
  rw [dedicatedSum?, if_pos ((same_iff hp hq (.inl hpq)).2 hpq)]
  exact ⟨_, proper?_eq h, projEq_normalize h⟩

theorem dedicatedSum?_of_cross (hpz : p.z ≠ 0) (hqz : q.z ≠ 0) (hpq : p.Resolved q)
    (hcross : p.cross q ≠ zero) (h : dedicated p q ≠ zero) :
    ∃ r, dedicatedSum? p q = some r ∧ (dedicated p q).ProjEq r := by
  rw [dedicatedSum?, if_neg fun hsame => hcross ((same_iff_cross hpz hqz hpq).1 hsame)]
  exact ⟨_, proper?_eq h, projEq_normalize h⟩

/-! ### The candidates denote the point of the law -/

/-- Every candidate for a sum denotes the point of the reference law. -/
theorem dedicatedSum?_projEq (hp : OnCurve d x₁ y₁) (hq : OnCurve d x₂ y₂) (hz₁ : z₁ ≠ 0)
    (hz₂ : z₂ ≠ 0) (hpq : Point.Resolved ⟨x₁ * z₁, y₁ * z₁, z₁⟩ ⟨x₂ * z₂, y₂ * z₂, z₂⟩)
    (hreference : referenceSum d x₁ y₁ x₂ y₂ ≠ zero)
    (h : dedicatedSum? ⟨x₁ * z₁, y₁ * z₁, z₁⟩ ⟨x₂ * z₂, y₂ * z₂, z₂⟩ = some r) :
    r.norm = 1 ∧ (referenceSum d x₁ y₁ x₂ y₂).ProjEq r := by
  have hne₁ : (⟨x₁ * z₁, y₁ * z₁, z₁⟩ : Point ℝ) ≠ zero := fun h => hz₁ (eq_zero_iff.1 h).2.2
  have hne₂ : (⟨x₂ * z₂, y₂ * z₂, z₂⟩ : Point ℝ) ≠ zero := fun h => hz₂ (eq_zero_iff.1 h).2.2
  have hsame := same_iff hne₁ hne₂ hpq
  rw [dedicatedSum?] at h
  obtain ⟨hnorm, hprojEq⟩ := proper?_spec h
  refine ⟨hnorm, ProjEq.trans ?_ hprojEq⟩
  refine ((projEq_iff_cross (ne_zero_of_proper? h) hreference).2 ?_).symm
  split
  · next hs =>
    obtain ⟨k, hk, hscale⟩ := hsame.1 hs
    have hz : z₂ = z₁ * k := congrArg Point.z hscale
    have hx : x₂ = x₁ := by
      have hx := congrArg Point.x hscale
      simp only [scale_x, hz] at hx
      apply mul_right_cancel₀ (mul_ne_zero hz₁ hk)
      linear_combination hx
    have hy : y₂ = y₁ := by
      have hy := congrArg Point.y hscale
      simp only [scale_y, hz] at hy
      apply mul_right_cancel₀ (mul_ne_zero hz₁ hk)
      linear_combination hy
    rw [hx, hy]
    exact doubled_cross_referenceSum hp
  · exact dedicated_cross_referenceSum hp hq

theorem unifiedSum?_projEq (hz₁ : z₁ ≠ 0) (hz₂ : z₂ ≠ 0)
    (h : unifiedSum? d ⟨x₁ * z₁, y₁ * z₁, z₁⟩ ⟨x₂ * z₂, y₂ * z₂, z₂⟩ = some s) :
    s.norm = 1 ∧ (referenceSum d x₁ y₁ x₂ y₂).ProjEq s := by
  rw [unifiedSum?_eq] at h
  obtain ⟨hnorm, hprojEq⟩ := proper?_spec h
  exact ⟨hnorm, (ProjEq.scale (pow_ne_zero 4 (mul_ne_zero hz₁ hz₂))).trans hprojEq⟩

theorem unifiedSum?_isSome (hz₁ : z₁ ≠ 0) (hz₂ : z₂ ≠ 0)
    (h : referenceSum d x₁ y₁ x₂ y₂ ≠ zero) :
    ∃ s, unifiedSum? d ⟨x₁ * z₁, y₁ * z₁, z₁⟩ ⟨x₂ * z₂, y₂ * z₂, z₂⟩ = some s := by
  refine ⟨_, unifiedSum?_eq.trans (proper?_eq ?_)⟩
  exact (ProjEq.scale (pow_ne_zero 4 (mul_ne_zero hz₁ hz₂))).ne_zero h

/-! ### The sum -/

/-- Where the law's denominators do not vanish, the sum is the law's point. -/
theorem sum_projEq (hp : OnCurve d x₁ y₁) (hq : OnCurve d x₂ y₂) (hz₁ : z₁ ≠ 0) (hz₂ : z₂ ≠ 0)
    (hpq : Point.Resolved ⟨x₁ * z₁, y₁ * z₁, z₁⟩ ⟨x₂ * z₂, y₂ * z₂, z₂⟩)
    (hz : (referenceSum d x₁ y₁ x₂ y₂).z ≠ 0) :
    (sum d ⟨x₁ * z₁, y₁ * z₁, z₁⟩ ⟨x₂ * z₂, y₂ * z₂, z₂⟩).norm = 1 ∧
      0 < (sum d ⟨x₁ * z₁, y₁ * z₁, z₁⟩ ⟨x₂ * z₂, y₂ * z₂, z₂⟩).z ∧
      (referenceSum d x₁ y₁ x₂ y₂).ProjEq
        (sum d ⟨x₁ * z₁, y₁ * z₁, z₁⟩ ⟨x₂ * z₂, y₂ * z₂, z₂⟩) := by
  have hreference : referenceSum d x₁ y₁ x₂ y₂ ≠ zero := fun h => hz (eq_zero_iff.1 h).2.2
  rw [sum]
  cases hsum : Sum.closer? (.edwards d)
    (dedicatedSum? ⟨x₁ * z₁, y₁ * z₁, z₁⟩ ⟨x₂ * z₂, y₂ * z₂, z₂⟩)
    (unifiedSum? d ⟨x₁ * z₁, y₁ * z₁, z₁⟩ ⟨x₂ * z₂, y₂ * z₂, z₂⟩) with
  | some r =>
    obtain ⟨hnorm, hr⟩ : r.norm = 1 ∧ (referenceSum d x₁ y₁ x₂ y₂).ProjEq r := by
      rcases Sum.closer?_eq_some hsum with h | h
      · exact dedicatedSum?_projEq hp hq hz₁ hz₂ hpq hreference h
      · exact unifiedSum?_projEq hz₁ hz₂ h
    have hrz : r.z ≠ 0 := fun h => hz (hr.symm.z_eq_zero h)
    obtain ⟨hupper, hpos, hprojEq⟩ := upper_spec hrz
    exact ⟨hupper.trans hnorm, hpos, hr.trans hprojEq⟩
  | none =>
    obtain ⟨s, hs⟩ := unifiedSum?_isSome hz₁ hz₂ hreference
    rw [(Sum.closer?_eq_none hsum).2] at hs
    exact nomatch hs

theorem referenceSum_ne_zero (hz₁ : z₁ ≠ 0) (hz₂ : z₂ ≠ 0)
    (h : unifiedSum? d ⟨x₁ * z₁, y₁ * z₁, z₁⟩ ⟨x₂ * z₂, y₂ * z₂, z₂⟩ = some s) :
    referenceSum d x₁ y₁ x₂ y₂ ≠ zero := by
  rw [unifiedSum?_eq] at h
  exact (ProjEq.scale (pow_ne_zero 4 (mul_ne_zero hz₁ hz₂))).symm.ne_zero (ne_zero_of_proper? h)

/-- The dedicated and the unified sum of two finite points of an Edwards curve are one point of the
curve wherever both exist, and the sum is the upper unit representative of the reference law's
point wherever its denominators do not vanish. -/
theorem add_reference_law (hpz : p.z ≠ 0) (hqz : q.z ≠ 0)
    (hp : (Equation.edwards d).residual p = 0) (hq : (Equation.edwards d).residual q = 0)
    (hpq : p.Resolved q) :
    (∀ r s, dedicatedSum? p q = some r → unifiedSum? d p q = some s →
      r.ProjEq s ∧ (Equation.edwards d).residual r = 0 ∧ (Equation.edwards d).residual s = 0) ∧
    let x₁ := p.x / p.z
    let y₁ := p.y / p.z
    let x₂ := q.x / q.z
    let y₂ := q.y / q.z
    let m := d * x₁ * x₂ * y₁ * y₂
    let sum := ((Equation.edwards d).add p q).point
    1 + m ≠ 0 → 1 - m ≠ 0 → sum.norm = 1 ∧ 0 < sum.z ∧
      sum.x / sum.z = (x₁ * y₂ + y₁ * x₂) / (1 + m) ∧
      sum.y / sum.z = (y₁ * y₂ - x₁ * x₂) / (1 - m) := by
  obtain ⟨hpaffine, hpcurve⟩ := exists_affine hpz hp
  obtain ⟨hqaffine, hqcurve⟩ := exists_affine hqz hq
  constructor
  · intro r s hr hs
    rw [hpaffine, hqaffine] at hr hs hpq
    have hreference := referenceSum_ne_zero hpz hqz hs
    have hr := (dedicatedSum?_projEq hpcurve hqcurve hpz hqz hpq hreference hr).2
    have hs := (unifiedSum?_projEq hpz hqz hs).2
    have hclosed := residual_referenceSum hpcurve hqcurve
    exact ⟨hr.symm.trans hs, Equation.residual_eq_zero_of_projEq hr hclosed,
      Equation.residual_eq_zero_of_projEq hs hclosed⟩
  · intro x₁ y₁ x₂ y₂ m s hplus hminus
    have hz : (referenceSum d x₁ y₁ x₂ y₂).z ≠ 0 := mul_ne_zero hplus hminus
    rw [hpaffine, hqaffine] at hpq
    have hsum := sum_projEq hpcurve hqcurve hpz hqz hpq hz
    rw [← hpaffine, ← hqaffine] at hsum
    obtain ⟨hnorm, hpos, k, hk, hscale⟩ := hsum
    have hs : s = (referenceSum d x₁ y₁ x₂ y₂).scale k := hscale
    refine ⟨hnorm, hpos, ?_, ?_⟩
    · rw [hs, scale_x, scale_z, mul_div_mul_right _ _ hk]
      exact mul_div_mul_right _ _ hminus
    · rw [hs, scale_y, scale_z, mul_div_mul_right _ _ hk]
      change (y₁ * y₂ - x₁ * x₂) * (1 + m) / ((1 + m) * (1 - m)) = _
      rw [mul_comm, mul_div_mul_left _ _ hplus]

/-- Doubling `(1/2, 1/2)` on the curve with parameter `-8`, its two triples scaled differently, and
the sum `(3/2, -10)` of `(5/3, 8/3)` and `(2/3, 5/6)` on the curve with parameter `9/20`. -/
theorem double_half_half_and_add_different :
    (let p : Point ℝ := ⟨1, 1, 2⟩
     let q : Point ℝ := ⟨2, 2, 4⟩
     let sum := ((Equation.edwards (-8)).add p q).point
     p.z ≠ 0 ∧ q.z ≠ 0 ∧ (Equation.edwards (-8)).residual p = 0 ∧
       (Equation.edwards (-8)).residual q = 0 ∧ p.Resolved q ∧
       (∃ r s, dedicatedSum? p q = some r ∧ (doubled p).ProjEq r ∧
         unifiedSum? (-8) p q = some s ∧ r.ProjEq s ∧ (Equation.edwards (-8)).residual r = 0) ∧
       sum.norm = 1 ∧ 0 < sum.z ∧ sum.x / sum.z = 1 ∧ sum.y / sum.z = 0) ∧
    (let p : Point ℝ := ⟨5, 8, 3⟩
     let q : Point ℝ := ⟨4, 5, 6⟩
     let sum := ((Equation.edwards (9 / 20)).add p q).point
     p.z ≠ 0 ∧ q.z ≠ 0 ∧ (Equation.edwards (9 / 20)).residual p = 0 ∧
       (Equation.edwards (9 / 20)).residual q = 0 ∧ p.Resolved q ∧
       (∃ r s, dedicatedSum? p q = some r ∧ (dedicated p q).ProjEq r ∧
         unifiedSum? (9 / 20) p q = some s ∧ r.ProjEq s ∧
         (Equation.edwards (9 / 20)).residual r = 0) ∧
       sum.norm = 1 ∧ 0 < sum.z ∧ sum.x / sum.z = 3 / 2 ∧ sum.y / sum.z = -10) := by
  constructor
  · intro p q sum
    have hpz : p.z ≠ 0 := by norm_num [p]
    have hqz : q.z ≠ 0 := by norm_num [q]
    have hp : (Equation.edwards (-8)).residual p = 0 := by
      rw [Equation.residual_edwards]
      norm_num [p]
    have hq : (Equation.edwards (-8)).residual q = 0 := by
      rw [Equation.residual_edwards]
      norm_num [q]
    have hprojEq : p.ProjEq q := by
      refine ⟨2, two_ne_zero, ?_⟩
      ext <;> norm_num [p, q]
    have hdoubled : doubled p ≠ zero := fun h => by
      have hz := (eq_zero_iff.1 h).2.2
      norm_num [doubled, p, Scalar.sq] at hz
    obtain ⟨r, hr, hpr⟩ := dedicatedSum?_of_projEq hpz hqz hprojEq hdoubled
    obtain ⟨s, hs⟩ : ∃ s, unifiedSum? (-8) p q = some s := by
      refine ⟨_, proper?_eq fun h => ?_⟩
      have hz := (eq_zero_iff.1 h).2.2
      norm_num [p, q, Scalar.sq] at hz
    obtain ⟨hagree, hlaw⟩ := add_reference_law hpz hqz hp hq (.inl hprojEq)
    obtain ⟨hrs, hcurve, -⟩ := hagree r s hr hs
    obtain ⟨hnorm, hpos, hx, hy⟩ := hlaw (by norm_num [p, q]) (by norm_num [p, q])
    refine ⟨hpz, hqz, hp, hq, .inl hprojEq, ⟨r, s, hr, hpr, hs, hrs, hcurve⟩, hnorm, hpos, ?_, ?_⟩
    · rw [hx]
      norm_num [p, q]
    · rw [hy]
      norm_num [p, q]
  · intro p q sum
    have hpz : p.z ≠ 0 := by norm_num [p]
    have hqz : q.z ≠ 0 := by norm_num [q]
    have hp : (Equation.edwards (9 / 20)).residual p = 0 := by
      rw [Equation.residual_edwards]
      norm_num [p]
    have hq : (Equation.edwards (9 / 20)).residual q = 0 := by
      rw [Equation.residual_edwards]
      norm_num [q]
    have hcross : p.cross q ≠ zero := by
      rw [Ne, eq_zero_iff, cross_eq]
      norm_num [p, q]
    have hpq : p.Resolved q := .of_one_le_cross (by norm_num [normSq_eq, cross_eq, p, q])
      (by norm_num [normSq_eq, p, q])
    have hdedicated : dedicated p q ≠ zero := fun h => by
      have hz := (eq_zero_iff.1 h).2.2
      norm_num [dedicated, p, q] at hz
    obtain ⟨r, hr, hpr⟩ := dedicatedSum?_of_cross hpz hqz hpq hcross hdedicated
    obtain ⟨s, hs⟩ : ∃ s, unifiedSum? (9 / 20) p q = some s := by
      refine ⟨_, proper?_eq fun h => ?_⟩
      have hz := (eq_zero_iff.1 h).2.2
      norm_num [p, q, Scalar.sq] at hz
    obtain ⟨hagree, hlaw⟩ := add_reference_law hpz hqz hp hq hpq
    obtain ⟨hrs, hcurve, -⟩ := hagree r s hr hs
    obtain ⟨hnorm, hpos, hx, hy⟩ := hlaw (by norm_num [p, q]) (by norm_num [p, q])
    refine ⟨hpz, hqz, hp, hq, hpq, ⟨r, s, hr, hpr, hs, hrs, hcurve⟩, hnorm, hpos, ?_, ?_⟩
    · rw [hx]
      norm_num [p, q]
    · rw [hy]
      norm_num [p, q]

end EllipticPlot.Edwards
