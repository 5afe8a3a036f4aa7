import EllipticPlot.GroupLaw
import EllipticPlot.Proofs.Candidates
import EllipticPlot.Proofs.LineSection
import EllipticPlot.Proofs.SmoothCurve

/-!
# The chord-tangent law

The sum of two points of a Weierstrass curve, read over the real numbers. Each chart solves for the
third zero of the curve's form on the line of the summands; where neither chart does, the line is
vertical and its third zero is the neutral element. Two zeros with their multiplicities determine
the third, so which chart is tried first makes no difference.
-/

namespace EllipticPlot

open Point

variable {a b : ℝ} {n p q r : Point ℝ}

/-! ### Lines and summands -/

/-- The line with normal `n` joins `p` and `q`, and is the tangent where they are one point. -/
structure Equation.IsChord (equation : Equation ℝ) (n p q : Point ℝ) : Prop where
  ne_zero : n ≠ zero
  first : n.dot p = 0
  second : n.dot q = 0
  tangent : p.ProjEq q → n = equation.gradient p

/-- A point at infinity, or one that is far enough from it not to be taken for the neutral
element. -/
def Point.ClearOfInfinity (p : Point ℝ) : Prop := p.z = 0 ∨ 1e-12 * p.norm < |p.z|

theorem Point.ClearOfInfinity.of_normSq_lt (h : p.normSq < 1e24 * p.z ^ 2) :
    p.ClearOfInfinity := by
  right
  have hlt : (1e-12 * p.norm) ^ 2 < p.z ^ 2 := by
    rw [mul_pow, Point.sq_norm]
    norm_num at h ⊢
    linarith
  exact lt_of_le_of_lt (le_abs_self _) (sq_lt_sq.1 hlt)

theorem Point.ClearOfInfinity.congr (h : p.ClearOfInfinity) (hq : p.ProjEq q) :
    q.ClearOfInfinity := by
  rcases h with hz | hz
  · exact .inl (hq.z_eq_zero hz)
  · right
    obtain ⟨k, hk, rfl⟩ := hq
    rw [norm_scale, scale_z, abs_mul]
    linarith [mul_lt_mul_of_pos_right hz (abs_pos.2 hk)]

structure Equation.FinitePoint (equation : Equation ℝ) (p : Point ℝ) : Prop where
  z_ne_zero : p.z ≠ 0
  on_curve : equation.residual p = 0

theorem Equation.FinitePoint.ne_zero {equation : Equation ℝ} (h : equation.FinitePoint p) :
    p ≠ zero := fun hp => h.z_ne_zero (eq_zero_iff.1 hp).2.2

theorem Equation.dot_gradient (h : (weierstrass a b).residual p = 0) :
    ((weierstrass a b).gradient p).dot p = 0 := by
  rw [residual_weierstrass] at h
  rw [gradient_weierstrass, dot_eq]
  linear_combination 3 * h

namespace Weierstrass

theorem neutral_eq : (neutral : Point ℝ) = ⟨0, 1, 0⟩ := by
  norm_num [neutral]

theorem neutral_ne_zero : (neutral : Point ℝ) ≠ zero := by
  rw [Ne, eq_zero_iff, neutral_eq]
  norm_num

theorem neutral_projEq_mirrorY : (neutral : Point ℝ).ProjEq neutral.mirrorY := by
  refine ⟨-1, by norm_num, ?_⟩
  rw [neutral_eq]
  ext <;> simp

theorem norm_neutral : (neutral : Point ℝ).norm = 1 := by
  rw [norm_eq, normSq_eq, neutral_eq]
  norm_num

theorem sqrt_sameAngleSq : √(sameAngleSq : ℝ) = 1e-12 := by
  rw [Real.sqrt_eq_iff_mul_self_eq] <;> norm_num [sameAngleSq]

theorem isNeutral_iff_le : isNeutral p = true ↔ |p.z| ≤ 1e-12 * p.norm := by
  rw [← sqrt_sameAngleSq]
  exact decide_eq_true_iff

theorem isNeutral_iff (h : p.ClearOfInfinity) : isNeutral p = true ↔ p.z = 0 := by
  rw [isNeutral_iff_le]
  constructor
  · intro hle
    exact h.resolve_right (not_lt.2 hle)
  · intro hz
    have hnorm : 0 ≤ p.norm := Real.sqrt_nonneg _
    rw [hz, abs_zero]
    positivity

/-- At infinity the curve has the neutral element only. -/
theorem neutral_projEq (hp : p ≠ zero) (hz : p.z = 0)
    (hcurve : (Equation.weierstrass a b).residual p = 0) : (neutral : Point ℝ).ProjEq p := by
  rw [Equation.residual_weierstrass, hz] at hcurve
  have hx : p.x = 0 := pow_eq_zero_iff three_ne_zero |>.1 (by linear_combination hcurve)
  have hy : p.y ≠ 0 := fun hy => hp (eq_zero_iff.2 ⟨hx, hy, hz⟩)
  refine ⟨p.y, hy, ?_⟩
  rw [neutral_eq]
  ext <;> simp [hx, hz]

theorem isChord_line (hsmooth : 4 * a ^ 3 + 27 * b ^ 2 ≠ 0) (hp : p ≠ zero) (hq : q ≠ zero)
    (hpcurve : (Equation.weierstrass a b).residual p = 0) (hpq : p.Resolved q) :
    (Equation.weierstrass a b).IsChord (line a b p q) p q := by
  have hsame := same_iff hp hq hpq
  by_cases h : p.ProjEq q
  · have hline : line a b p q = (Equation.weierstrass a b).gradient p := if_pos (hsame.2 h)
    have hfirst := Equation.dot_gradient hpcurve
    rw [hline]
    exact ⟨Equation.gradient_ne_zero hsmooth hp, hfirst, h.dot_eq_zero hfirst, fun _ => rfl⟩
  · have hline : line a b p q = p.cross q := if_neg fun hs => h (hsame.1 hs)
    rw [hline]
    refine ⟨fun hzero => h ((projEq_iff_cross hp hq).2 hzero), ?_, ?_, fun h' => absurd h' h⟩
    · rw [dot_eq, cross_eq]
      ring
    · rw [dot_eq, cross_eq]
      ring

/-! ### The charts -/

theorem quotient?_eq_some_iff {x y z : ℝ} :
    Scalar.quotient? x y = some z ↔ y ≠ 0 ∧ x / y = z := by
  change (if y = 0 then none else some (x / y)) = some z ↔ _
  split <;> simp_all

/-- In the chart `z = 1` the form of the curve on a line that is not vertical is monic in `x`. -/
theorem cutsAt_chartZ (hline : (Equation.weierstrass a b).IsChord n p q)
    (hp : (Equation.weierstrass a b).FinitePoint p)
    (hq : (Equation.weierstrass a b).FinitePoint q) (hn : n.y ≠ 0) (hr : n.dot r = 0)
    (hrz : r.z ≠ 0) (hsum : p.x / p.z + q.x / q.z + r.x / r.z = (n.x / n.y) ^ 2) :
    (Equation.weierstrass a b).CutsAt n p q r := by
  have hnormSq := (normSq_pos hline.ne_zero).ne'
  have hpz := hp.z_ne_zero
  have hy : ∀ v : Point ℝ, n.dot v = 0 → v.y = -(n.x / n.y * v.x + n.z / n.y * v.z) := by
    intro v hv
    rw [dot_eq] at hv
    field_simp
    linear_combination hv
  refine Equation.cutsAt_of_form Point.x Point.z (n.y / n.normSq) 1 (-(n.x / n.y) ^ 2)
    (a - 2 * (n.x / n.y) * (n.z / n.y)) (b - (n.z / n.y) ^ 2) (div_ne_zero hn hnormSq)
    one_ne_zero ?_ ?_ hline.ne_zero hline.first hline.second hr hp.ne_zero hq.ne_zero hp.on_curve
    hq.on_curve hpz hq.z_ne_zero hrz ?_ (by linear_combination hsum)
  · intro u v hu hv
    have h := det_mul_y hu hv
    field_simp
    linear_combination -h
  · intro v hv
    rw [Equation.residual_weierstrass, hy v hv]
    ring
  · intro hpq
    -- the line is the tangent: its slope annihilates the derivative at `p`
    have hpy := hy p hline.first
    have htangent := hline.tangent hpq
    rw [Equation.gradient_weierstrass] at htangent
    have hx : n.x = 3 * p.x ^ 2 + a * p.z ^ 2 := congrArg Point.x htangent
    have hny : n.y = -2 * p.y * p.z := congrArg Point.y htangent
    have hslope : n.x / n.y * n.y = n.x := div_mul_cancel₀ _ hn
    generalize n.x / n.y = s at hpy hslope ⊢
    generalize n.z / n.y = c at hpy ⊢
    rw [hx, hny] at hslope
    apply mul_left_cancel₀ (pow_ne_zero 2 hpz)
    field_simp
    linear_combination -hslope - 2 * s * p.z * hpy

/-- In the chart `y = 1` the form of the curve on a line not through `(0, 0)` is a cubic in `z`. -/
theorem cutsAt_chartY (hline : (Equation.weierstrass a b).IsChord n p q)
    (hp : (Equation.weierstrass a b).FinitePoint p)
    (hq : (Equation.weierstrass a b).FinitePoint q) (hn : n.x ≠ 0) (hpy : p.y ≠ 0)
    (hqy : q.y ≠ 0) (hlead : b - (n.z / n.x) ^ 3 - a * (n.z / n.x) ≠ 0) (hr : n.dot r = 0)
    (hry : r.y ≠ 0) (hsum : p.z / p.y + q.z / q.y + r.z / r.y =
      (3 * (n.z / n.x) ^ 2 + a) * (n.y / n.x) / (b - (n.z / n.x) ^ 3 - a * (n.z / n.x))) :
    (Equation.weierstrass a b).CutsAt n p q r := by
  have hnormSq := (normSq_pos hline.ne_zero).ne'
  have hx : ∀ v : Point ℝ, n.dot v = 0 → v.x = -(n.y / n.x * v.y + n.z / n.x * v.z) := by
    intro v hv
    rw [dot_eq] at hv
    field_simp
    linear_combination hv
  rw [eq_div_iff hlead] at hsum
  refine Equation.cutsAt_of_form Point.z Point.y (n.x / n.normSq)
    (b - (n.z / n.x) ^ 3 - a * (n.z / n.x)) (-((3 * (n.z / n.x) ^ 2 + a) * (n.y / n.x)))
    (-(3 * (n.z / n.x) * (n.y / n.x) ^ 2 + 1)) (-(n.y / n.x) ^ 3) (div_ne_zero hn hnormSq) hlead
    ?_ ?_ hline.ne_zero hline.first hline.second hr hp.ne_zero hq.ne_zero hp.on_curve hq.on_curve
    hpy hqy hry ?_ (by linear_combination hsum)
  · intro u v hu hv
    have h := det_mul_x hu hv
    field_simp
    linear_combination -h
  · intro v hv
    rw [Equation.residual_weierstrass, hx v hv]
    ring
  · intro hpq
    have hpx := hx p hline.first
    have htangent := hline.tangent hpq
    rw [Equation.gradient_weierstrass] at htangent
    have hnx : n.x = 3 * p.x ^ 2 + a * p.z ^ 2 := congrArg Point.x htangent
    have hnz : n.z = 2 * a * p.x * p.z + 3 * b * p.z ^ 2 - p.y ^ 2 := congrArg Point.z htangent
    have hslope : n.z / n.x * n.x = n.z := div_mul_cancel₀ _ hn
    generalize n.z / n.x = s at hpx hslope ⊢
    generalize n.y / n.x = u at hpx ⊢
    rw [hnx, hnz] at hslope
    apply mul_left_cancel₀ (pow_ne_zero 2 hpy)
    field_simp
    linear_combination -hslope - (2 * a * p.z - 3 * s * (p.x - (u * p.y + s * p.z))) * hpx

theorem cutsAt_sumInChartZ (hline : (Equation.weierstrass a b).IsChord n p q)
    (hp : (Equation.weierstrass a b).FinitePoint p)
    (hq : (Equation.weierstrass a b).FinitePoint q) (h : sumInChartZ? p q n = some r) :
    r.norm = 1 ∧ (Equation.weierstrass a b).CutsAt n p q r.mirrorY := by
  simp only [sumInChartZ?, Option.bind_eq_bind, Option.bind_eq_some_iff,
    quotient?_eq_some_iff] at h
  obtain ⟨s, ⟨hn, hs⟩, x₁, ⟨-, hx₁⟩, x₂, ⟨-, hx₂⟩, y₃, ⟨-, hy₃⟩, hproper⟩ := h
  generalize hx₃ : Scalar.sq s - x₁ - x₂ = x₃ at hy₃ hproper
  have hne := ne_zero_of_proper? hproper
  rw [proper?_eq hne] at hproper
  obtain rfl := Option.some.inj hproper
  refine ⟨norm_normalize hne, ?_⟩
  refine (cutsAt_chartZ hline hp hq hn (r := mirrorY ⟨x₃, y₃, 1.0⟩) ?_ ?_ ?_).congr_third
    (projEq_normalize hne).mirrorY
  · rw [dot_eq, mirrorY_x, mirrorY_y, mirrorY_z, ← hy₃]
    field_simp
    norm_num
  · norm_num
  · simp only [mirrorY_x, mirrorY_z, ← hx₃, ← hs, ← hx₁, ← hx₂, Scalar.sq]
    norm_num
    ring

theorem cutsAt_sumInChartY (hline : (Equation.weierstrass a b).IsChord n p q)
    (hp : (Equation.weierstrass a b).FinitePoint p)
    (hq : (Equation.weierstrass a b).FinitePoint q) (h : sumInChartY? a b p q n = some r) :
    r.norm = 1 ∧ (Equation.weierstrass a b).CutsAt n p q r.mirrorY := by
  simp only [sumInChartY?, Option.bind_eq_bind, Option.bind_eq_some_iff,
    quotient?_eq_some_iff] at h
  obtain ⟨s, ⟨hn, hs⟩, u, ⟨-, hu⟩, z₁, ⟨hpy, hz₁⟩, z₂, ⟨hqy, hz₂⟩, total, ⟨hlead, htotal⟩, h⟩ := h
  generalize hz₃ : total - z₁ - z₂ = z₃ at h
  have hlead' : b - (n.z / n.x) ^ 3 - a * (n.z / n.x) ≠ 0 := by
    rw [hs]
    convert hlead using 3
    simp only [Scalar.cube]
    ring
  -- both representatives that the chart may choose have the same mirror image
  obtain ⟨w, hproper, hline₃, hwy, hwz⟩ : ∃ w : Point ℝ, w.proper? = some r ∧
      n.dot w.mirrorY = 0 ∧ w.mirrorY.y ≠ 0 ∧ w.mirrorY.z / w.mirrorY.y = z₃ := by
    split at h
    all_goals
      simp only [Option.bind_eq_some_iff, quotient?_eq_some_iff] at h
      obtain ⟨x₃, ⟨-, hx₃⟩, hproper⟩ := h
      refine ⟨_, hproper, ?_, by norm_num, by norm_num⟩
      rw [dot_eq, mirrorY_x, mirrorY_y, mirrorY_z, ← hx₃]
      field_simp
      norm_num
  have hne := ne_zero_of_proper? hproper
  rw [proper?_eq hne] at hproper
  obtain rfl := Option.some.inj hproper
  refine ⟨norm_normalize hne, ?_⟩
  refine (cutsAt_chartY hline hp hq hn hpy hqy hlead' hline₃ hwy ?_).congr_third
    (projEq_normalize hne).mirrorY
  rw [hwz, ← hz₃, hz₁, hz₂, ← htotal, hs, hu]
  simp only [Scalar.sq, Scalar.cube]
  norm_num
  ring_nf

/-- A vertical line through a finite point meets the curve there, in its mirror image and in the
neutral element. -/
theorem cutsAt_vertical (hn : n ≠ zero) (hny : n.y = 0)
    (hq : (Equation.weierstrass a b).FinitePoint q) (hline : n.dot q = 0) :
    (Equation.weierstrass a b).CutsAt n q q.mirrorY neutral := by
  have hqz := hq.z_ne_zero
  have hqcurve := hq.on_curve
  rw [Equation.residual_weierstrass] at hqcurve
  have hmirror : n.dot q.mirrorY = 0 := by
    rw [dot_eq] at hline ⊢
    rw [mirrorY_x, mirrorY_y, mirrorY_z]
    linear_combination hline - 2 * q.y * hny
  have hneutral : n.dot neutral = 0 := by
    rw [dot_eq, neutral_eq]
    linear_combination hny
  have hnx : n.x ≠ 0 := by
    intro hnx
    rw [dot_eq, hnx, hny] at hline
    have hnz : n.z = 0 := by simpa [hqz] using hline
    exact hn (eq_zero_iff.2 ⟨hnx, hny, hnz⟩)
  have hnormSq := (normSq_pos hn).ne'
  refine ⟨hline, hmirror, hneutral, -((n.x / n.normSq) ^ 3 / q.z ^ 2), ?_, fun v hv => ?_⟩
  · exact neg_ne_zero.2 (div_ne_zero (pow_ne_zero 3 (div_ne_zero hnx hnormSq)) (pow_ne_zero 2 hqz))
  · have hdet : ∀ u, n.dot u = 0 → det n u v = n.normSq / n.x * (u.y * v.z - v.y * u.z) := by
      intro u hu
      have h := det_mul_x hu hv
      field_simp
      linear_combination h
    rw [hdet q hline, hdet _ hmirror, hdet _ hneutral, Equation.residual_weierstrass, neutral_eq]
    have hx : v.x = q.x / q.z * v.z := by
      rw [dot_eq] at hline hv
      rw [div_mul_eq_mul_div, eq_div_iff hqz]
      apply mul_left_cancel₀ hnx
      linear_combination q.z * hv - v.z * hline - (v.y * q.z - q.y * v.z) * hny
    rw [hx, mirrorY_y, mirrorY_z]
    field_simp
    linear_combination v.z ^ 3 * hqcurve

/-- Two finite points on a vertical line are mirror images, or touch the line where `y = 0`. -/
theorem cutsAt_neutral (hline : (Equation.weierstrass a b).IsChord n p q) (hny : n.y = 0)
    (hp : (Equation.weierstrass a b).FinitePoint p)
    (hq : (Equation.weierstrass a b).FinitePoint q) :
    (Equation.weierstrass a b).CutsAt n p q neutral := by
  have hvertical := cutsAt_vertical hline.ne_zero hny hq hline.second
  have hcases := (hvertical.residual_eq_zero_iff hline.ne_zero hq.ne_zero
    (mirrorY_ne_zero hq.ne_zero) neutral_ne_zero hp.ne_zero hline.first).1 hp.on_curve
  rcases hcases with hqp | hqp | hneutral
  · have hpy : p.y = 0 := by
      rw [hline.tangent hqp.symm, Equation.gradient_weierstrass] at hny
      simpa [hp.z_ne_zero] using hny
    have hqy : q.y = 0 := by
      obtain ⟨k, hk, rfl⟩ := hqp
      simpa [hk] using hpy
    have hmirror : q.mirrorY = q := by
      ext <;> simp [hqy]
    rw [hmirror] at hvertical
    exact hvertical.congr_first hqp
  · exact hvertical.swap.congr_first hqp
  · exact absurd (hneutral.z_eq_zero (by rw [neutral_eq])) hp.z_ne_zero

/-- The line at infinity meets the curve three times in the neutral element. -/
theorem cutsAt_infinity (hn : n ≠ zero) (hnx : n.x = 0) (hny : n.y = 0) :
    (Equation.weierstrass a b).CutsAt n neutral neutral neutral := by
  have hnz : n.z ≠ 0 := fun hnz => hn (eq_zero_iff.2 ⟨hnx, hny, hnz⟩)
  have hneutral : n.dot neutral = 0 := by
    rw [dot_eq, neutral_eq]
    linear_combination hny
  refine ⟨hneutral, hneutral, hneutral, -(1 / n.z ^ 3), ?_, fun v hv => ?_⟩
  · exact neg_ne_zero.2 (one_div_ne_zero (pow_ne_zero 3 hnz))
  · have hvz : v.z = 0 := by
      rw [dot_eq, hnx, hny] at hv
      simpa [hnz] using hv
    rw [Equation.residual_weierstrass, det_eq, neutral_eq, hvz, hnx, hny]
    field_simp
    ring

theorem y_eq_zero_of_neutral (hn : n.dot p = 0) (hp : (neutral : Point ℝ).ProjEq p) : n.y = 0 := by
  have h := hp.symm.dot_eq_zero hn
  rw [dot_eq, neutral_eq] at h
  linear_combination h

/-- A line through the neutral element and another point meets the curve in that point's mirror
image. -/
theorem cutsAt_neutral_left (hline : (Equation.weierstrass a b).IsChord n p q)
    (hp : (neutral : Point ℝ).ProjEq p) (hq : q ≠ zero)
    (hqcurve : (Equation.weierstrass a b).residual q = 0) :
    (Equation.weierstrass a b).CutsAt n p q q.mirrorY := by
  have hny := y_eq_zero_of_neutral hline.first hp
  by_cases hqz : q.z = 0
  · have hqO := neutral_projEq hq hqz hqcurve
    have hnx : n.x = 0 := by
      have htangent := hline.tangent (hp.symm.trans hqO)
      obtain ⟨k, -, hk⟩ := hp
      rw [htangent, Equation.gradient_weierstrass, hk, neutral_eq]
      simp
    have h := cutsAt_infinity (a := a) (b := b) hline.ne_zero hnx hny
    have hthird := neutral_projEq_mirrorY.trans hqO.mirrorY
    exact ((h.congr_first hp).swap.congr_first hqO).swap.congr_third hthird
  · have h := cutsAt_vertical hline.ne_zero hny ⟨hqz, hqcurve⟩ hline.second
    exact h.rotate.rotate.congr_first hp

theorem cutsAt_neutral_right (hline : (Equation.weierstrass a b).IsChord n p q)
    (hp : (Equation.weierstrass a b).FinitePoint p) (hq : (neutral : Point ℝ).ProjEq q) :
    (Equation.weierstrass a b).CutsAt n p q p.mirrorY := by
  have hny := y_eq_zero_of_neutral hline.second hq
  have h := cutsAt_vertical hline.ne_zero hny hp hline.first
  exact (h.rotate.rotate.congr_first hq).swap

/-! ### The sum -/

theorem exists_sumInChartZ (hn : n.y ≠ 0) (hp : p.z ≠ 0) (hq : q.z ≠ 0) :
    ∃ r, sumInChartZ? p q n = some r := by
  have hquotient : ∀ x y : ℝ, y ≠ 0 → Scalar.quotient? x y = some (x / y) :=
    fun x y hy => quotient?_eq_some_iff.2 ⟨hy, rfl⟩
  have hproper : ∀ x y : ℝ, ∃ r, (⟨x, y, 1.0⟩ : Point ℝ).proper? = some r := by
    intro x y
    refine ⟨_, proper?_eq fun h => ?_⟩
    have hz := (eq_zero_iff.1 h).2.2
    norm_num at hz
  rw [sumInChartZ?, hquotient _ _ hn, hquotient _ _ hp, hquotient _ _ hq]
  simp only [Option.bind_eq_bind, Option.bind_some, hquotient _ _ hn]
  exact hproper _ _

theorem cutsAt_candidate (hline : (Equation.weierstrass a b).IsChord n p q)
    (hp : (Equation.weierstrass a b).FinitePoint p)
    (hq : (Equation.weierstrass a b).FinitePoint q) {chart : Chart}
    (h : candidate? a b p q n chart = some r) :
    r.norm = 1 ∧ (Equation.weierstrass a b).CutsAt n p q r.mirrorY := by
  cases chart with
  | z => exact cutsAt_sumInChartZ hline hp hq h
  | y => exact cutsAt_sumInChartY hline hp hq h

theorem cutsAt_sumOnLine (hline : (Equation.weierstrass a b).IsChord n p q)
    (hp : (Equation.weierstrass a b).FinitePoint p)
    (hq : (Equation.weierstrass a b).FinitePoint q) (threshold : ℝ) :
    (sumOnLine a b threshold p q n).norm = 1 ∧
      (Equation.weierstrass a b).CutsAt n p q (sumOnLine a b threshold p q n).mirrorY := by
  rw [sumOnLine]
  generalize hchart : preferredChart threshold n = chart
  cases hsum : Sum.closer? (.weierstrass a b) (candidate? a b p q n chart)
    (candidate? a b p q n chart.other) with
  | some r =>
    rcases Sum.closer?_eq_some hsum with h | h
    · exact cutsAt_candidate hline hp hq h
    · exact cutsAt_candidate hline hp hq h
  | none =>
    obtain ⟨hfirst, hsecond⟩ := Sum.closer?_eq_none hsum
    have hnone : sumInChartZ? p q n = none := by
      cases chart with
      | z => exact hfirst
      | y => exact hsecond
    have hny : n.y = 0 := by
      by_contra hny
      obtain ⟨r, hr⟩ := exists_sumInChartZ hny hp.z_ne_zero hq.z_ne_zero
      rw [hnone] at hr
      exact nomatch hr
    exact ⟨norm_neutral, (cutsAt_neutral hline hny hp hq).congr_third neutral_projEq_mirrorY⟩

theorem cutsAt_sum (hsmooth : 4 * a ^ 3 + 27 * b ^ 2 ≠ 0) (hp : p ≠ zero) (hq : q ≠ zero)
    (hpcurve : (Equation.weierstrass a b).residual p = 0)
    (hqcurve : (Equation.weierstrass a b).residual q = 0) (hpq : p.Resolved q)
    (hpclear : p.ClearOfInfinity) (hqclear : q.ClearOfInfinity) (threshold : ℝ) :
    (sum a b threshold p q).point.norm = 1 ∧ (Equation.weierstrass a b).CutsAt (line a b p q) p q
      (sum a b threshold p q).point.mirrorY := by
  have hline := isChord_line hsmooth hp hq hpcurve hpq
  rw [sum]
  dsimp only
  generalize line a b p q = n at hline ⊢
  by_cases hpz : p.z = 0
  · rw [if_pos ((isNeutral_iff hpclear).2 hpz)]
    have hpO := neutral_projEq hp hpz hpcurve
    exact ⟨norm_normalize hq, (cutsAt_neutral_left hline hpO hq hqcurve).congr_third
      (projEq_normalize hq).mirrorY⟩
  · rw [if_neg fun h => hpz ((isNeutral_iff hpclear).1 h)]
    by_cases hqz : q.z = 0
    · rw [if_pos ((isNeutral_iff hqclear).2 hqz)]
      have hqO := neutral_projEq hq hqz hqcurve
      exact ⟨norm_normalize hp, (cutsAt_neutral_right hline ⟨hpz, hpcurve⟩ hqO).congr_third
        (projEq_normalize hp).mirrorY⟩
    · rw [if_neg fun h => hqz ((isNeutral_iff hqclear).1 h)]
      exact cutsAt_sumOnLine hline ⟨hpz, hpcurve⟩ ⟨hqz, hqcurve⟩ threshold

end Weierstrass

/-- On an accepted Weierstrass curve the sum has unit length, lies on the curve, and comes with the
chord or tangent of the summands, on which the curve's form vanishes exactly at the summands and at
the third intersection, counted with multiplicity. Every threshold gives the same point. -/
theorem add_chord_tangent {curve : Curve ℝ}
    (haccepted : Curve.ofEquation (.weierstrass a b) = .ok curve) (hp : p ≠ zero) (hq : q ≠ zero)
    (hpcurve : curve.equation.residual p = 0) (hqcurve : curve.equation.residual q = 0)
    (hpq : p.Resolved q) (hpclear : p.ClearOfInfinity) (hqclear : q.ClearOfInfinity)
    (threshold : ℝ) :
    ∃ n third, (curve.equation.addWithThreshold threshold p q).line? = some n ∧
      (curve.equation.addWithThreshold threshold p q).thirdIntersection? = some third ∧
      (curve.equation.addWithThreshold threshold p q).point.norm = 1 ∧
      curve.equation.residual (curve.equation.addWithThreshold threshold p q).point = 0 ∧
      curve.equation.IsChord n p q ∧ curve.equation.CutsAt n p q third ∧
      (∀ v, v ≠ zero → n.dot v = 0 →
        (curve.equation.residual v = 0 ↔ p.ProjEq v ∨ q.ProjEq v ∨ third.ProjEq v)) ∧
      ∀ threshold', (curve.equation.addWithThreshold threshold p q).point.ProjEq
        (curve.equation.addWithThreshold threshold' p q).point := by
  have hsmooth := Curve.discriminant_ne_zero haccepted
  rw [Curve.equation_of_accepted haccepted] at hpcurve hqcurve ⊢
  have hchord := Weierstrass.isChord_line hsmooth hp hq hpcurve hpq
  have hsum := Weierstrass.cutsAt_sum hsmooth hp hq hpcurve hqcurve hpq hpclear hqclear
  have hthird : ∀ t, (Weierstrass.sum a b t p q).point.mirrorY ≠ zero := fun t =>
    mirrorY_ne_zero (ne_zero_of_norm_eq_one (hsum t).1)
  obtain ⟨hnorm, hcuts⟩ := hsum threshold
  refine ⟨Weierstrass.line a b p q, (Weierstrass.sum a b threshold p q).point.mirrorY, rfl, rfl,
    hnorm, ?_, hchord, hcuts, ?_, ?_⟩
  · rw [← Equation.residual_mirrorY]
    exact hcuts.residual_third
  · intro v hv hline
    exact hcuts.residual_eq_zero_iff hchord.ne_zero hp hq (hthird threshold) hv hline
  · intro threshold'
    have hunique := hcuts.third_unique (hsum threshold').2 hchord.ne_zero hp hq (hthird threshold)
      (hthird threshold')
    have hmirror := hunique.mirrorY
    rwa [mirrorY_mirrorY, mirrorY_mirrorY] at hmirror

/-- The chord through `(0, 1)` and `(2, 3)` on `y² = x³ + 1`. -/
theorem add_zero_one_two_three :
    let curve : Curve ℝ := ⟨.weierstrass 0 1, [⟨-1, 0.0, 1.0⟩]⟩
    let p : Point ℝ := ⟨0, 1, 1⟩
    let q : Point ℝ := ⟨2, 3, 1⟩
    Curve.ofEquation (.weierstrass 0 1) = .ok curve ∧ p ≠ zero ∧ q ≠ zero ∧
      curve.equation.residual p = 0 ∧ curve.equation.residual q = 0 ∧ p.Resolved q ∧
      p.ClearOfInfinity ∧ q.ClearOfInfinity ∧
      ∃ n third, (curve.equation.addWithThreshold 0.1 p q).line? = some n ∧
        (curve.equation.addWithThreshold 0.1 p q).thirdIntersection? = some third ∧
        curve.equation.IsChord n p q ∧ curve.equation.CutsAt n p q third := by
  intro curve p q
  have hp : p ≠ zero := by
    rw [Ne, eq_zero_iff]
    norm_num [p]
  have hq : q ≠ zero := by
    rw [Ne, eq_zero_iff]
    norm_num [q]
  have hpcurve : curve.equation.residual p = 0 := by
    rw [Equation.residual_weierstrass]
    norm_num [p]
  have hqcurve : curve.equation.residual q = 0 := by
    rw [Equation.residual_weierstrass]
    norm_num [q]
  have hpq : p.Resolved q := by
    right
    rw [normSq_eq, normSq_eq, normSq_eq, cross_eq]
    norm_num [p, q, sameAngleSq]
  have hpclear : p.ClearOfInfinity := by
    right
    have hnorm : p.norm ≤ 2 := by
      rw [norm_eq, normSq_eq, Real.sqrt_le_left (by norm_num)]
      norm_num [p]
    norm_num [p] at hnorm ⊢
    linarith
  have hqclear : q.ClearOfInfinity := by
    right
    have hnorm : q.norm ≤ 4 := by
      rw [norm_eq, normSq_eq, Real.sqrt_le_left (by norm_num)]
      norm_num [q]
    norm_num [q] at hnorm ⊢
    linarith
  obtain ⟨n, third, hn, hthird, -, -, hchord, hcuts, -⟩ := add_chord_tangent
    Curve.accepted_zero_one hp hq hpcurve hqcurve hpq hpclear hqclear 0.1
  exact ⟨Curve.accepted_zero_one, hp, hq, hpcurve, hqcurve, hpq, hpclear, hqclear, n, third, hn,
    hthird, hchord, hcuts⟩

end EllipticPlot
