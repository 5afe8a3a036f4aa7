import EllipticPlot.Proofs.EdwardsLaw

/-!
# Edwards sums of finite points

Each formula for the sum of two points has pairs at which it gives the zero triple. The dedicated
one fails on pairs half a turn or a quarter turn apart, the unified one where a denominator and its
numerator vanish together. On a curve whose parameter is not `1` no pair of finite points is
exceptional for both, and doubling has no exceptional point at all.
-/

namespace EllipticPlot.Edwards

open Point

variable {d x₁ y₁ z₁ x₂ y₂ z₂ : ℝ} {p q : Point ℝ}

/-! ### Exceptional pairs -/

theorem radius_pos (h : OnCurve d x₁ y₁) : 0 < x₁ ^ 2 + y₁ ^ 2 := by
  by_contra hle
  have hx : x₁ ^ 2 = 0 := by linarith [sq_nonneg x₁, sq_nonneg y₁]
  have hy : y₁ ^ 2 = 0 := by linarith [sq_nonneg x₁, sq_nonneg y₁]
  rw [OnCurve, hx, hy] at h
  norm_num at h

theorem parameter_eq_one (h : OnCurve d x₁ y₁) (hradius : x₁ ^ 2 + y₁ ^ 2 = 2)
    (hdiagonal : x₁ ^ 2 = y₁ ^ 2) : d = 1 :=
  eq_one_of_corner h (by linarith) (by linarith)

theorem doubled_ne_zero (hd : d ≠ 1) (h : OnCurve d x₁ y₁) (hz : z₁ ≠ 0) :
    doubled ⟨x₁ * z₁, y₁ * z₁, z₁⟩ ≠ zero := by
  rw [doubled_eq, Ne, eq_zero_iff]
  simp only [scale_x, scale_y, scale_z, mul_eq_zero, pow_ne_zero 4 hz, or_false]
  rintro ⟨-, hy, hz⟩
  have hpos := (radius_pos h).ne'
  have hradius := hz.resolve_left hpos
  have hdiagonal := hy.resolve_left hpos
  exact hd (parameter_eq_one h (by linarith) (by linarith))

theorem sq_eq_sq_of_mul {u v : ℝ} (hne : u ≠ 0 ∨ v ≠ 0) (hu : u * (x₁ ^ 2 - y₁ ^ 2) = 0)
    (hv : v * (x₁ ^ 2 - y₁ ^ 2) = 0) : x₁ ^ 2 = y₁ ^ 2 := by
  rcases hne with h | h
  · linarith [(mul_eq_zero.mp hu).resolve_left h]
  · linarith [(mul_eq_zero.mp hv).resolve_left h]

theorem coordinates_ne_zero (h : OnCurve d x₁ y₁) : x₁ ≠ 0 ∨ y₁ ≠ 0 := by
  by_contra hzero
  push Not at hzero
  have hpos := radius_pos h
  rw [hzero.1, hzero.2] at hpos
  norm_num at hpos

/-- Half a turn apart the unified formula fails at the corners only. -/
theorem parameter_of_half_turn (hp : OnCurve d x₁ y₁) (hq : OnCurve d x₂ y₂)
    (hparallel : x₁ * y₂ = y₁ * x₂) (hproduct : x₁ * y₁ = x₂ * y₂)
    (h : referenceSum d x₁ y₁ x₂ y₂ = zero) : d = 1 := by
  obtain ⟨-, hy, hz⟩ := eq_zero_iff.mp h
  simp only [referenceSum, mul_eq_zero] at hy hz
  have hm : d * x₁ * x₂ * y₁ * y₂ = x₁ ^ 2 + y₁ ^ 2 - 1 := by
    rw [OnCurve] at hp
    linear_combination -d * x₁ * y₁ * hproduct - hp
  rw [hm] at hy hz
  have hpos := radius_pos hp
  have hplus : 1 + (x₁ ^ 2 + y₁ ^ 2 - 1) ≠ 0 := by linarith
  have hradius := hz.resolve_left hplus
  have hequal := hy.resolve_right hplus
  apply parameter_eq_one hp (by linarith)
  apply sq_eq_sq_of_mul (coordinates_ne_zero hq)
  · linear_combination -x₁ * hequal + y₁ * hparallel
  · linear_combination -y₁ * hequal + x₁ * hparallel

/-- A quarter turn apart the unified formula fails at the corners only. -/
theorem parameter_of_quarter_turn (hp : OnCurve d x₁ y₁) (hq : OnCurve d x₂ y₂)
    (hright : x₁ * x₂ + y₁ * y₂ = 0) (hproduct : x₁ * y₁ = -(x₂ * y₂))
    (h : referenceSum d x₁ y₁ x₂ y₂ = zero) : d = 1 := by
  obtain ⟨hx, -, hz⟩ := eq_zero_iff.mp h
  simp only [referenceSum, mul_eq_zero] at hx hz
  have hm : d * x₁ * x₂ * y₁ * y₂ = 1 - (x₁ ^ 2 + y₁ ^ 2) := by
    rw [OnCurve] at hp
    linear_combination d * x₁ * y₁ * hproduct + hp
  rw [hm] at hx hz
  have hpos := radius_pos hp
  have hminus : 1 - (1 - (x₁ ^ 2 + y₁ ^ 2)) ≠ 0 := by linarith
  have hradius := hz.resolve_right hminus
  have hequal := hx.resolve_right hminus
  apply parameter_eq_one hp (by linarith)
  apply sq_eq_sq_of_mul (coordinates_ne_zero hq)
  · linear_combination x₁ * hright - y₁ * hequal
  · linear_combination x₁ * hequal - y₁ * hright

/-- No pair of points is exceptional for both formulas. -/
theorem dedicated_or_referenceSum_ne_zero (hd : d ≠ 1) (hp : OnCurve d x₁ y₁)
    (hq : OnCurve d x₂ y₂) (hz₁ : z₁ ≠ 0) (hz₂ : z₂ ≠ 0) :
    dedicated ⟨x₁ * z₁, y₁ * z₁, z₁⟩ ⟨x₂ * z₂, y₂ * z₂, z₂⟩ ≠ zero ∨
      referenceSum d x₁ y₁ x₂ y₂ ≠ zero := by
  by_contra hboth
  push Not at hboth
  obtain ⟨hdedicated, hreference⟩ := hboth
  rw [dedicated_eq, eq_zero_iff] at hdedicated
  simp only [scale_x, scale_y, scale_z, mul_eq_zero, pow_ne_zero 4 (mul_ne_zero hz₁ hz₂),
    or_false] at hdedicated
  obtain ⟨hx, hy, hz⟩ := hdedicated
  -- the two factors of `z` are the sine and the cosine of the angle between the points
  have hsum : (x₁ * y₂ - y₁ * x₂) ^ 2 + (x₁ * x₂ + y₁ * y₂) ^ 2 =
      (x₁ ^ 2 + y₁ ^ 2) * (x₂ ^ 2 + y₂ ^ 2) := by ring
  have hpos := mul_pos (radius_pos hp) (radius_pos hq)
  by_cases hparallel : x₁ * y₂ - y₁ * x₂ = 0
  · have hcosine : x₁ * x₂ + y₁ * y₂ ≠ 0 := by
      intro hzero
      rw [hparallel, hzero] at hsum
      linarith
    exact hd (parameter_of_half_turn hp hq (by linarith)
      (by linarith [hy.resolve_right hcosine]) hreference)
  · have hcosine : x₁ * x₂ + y₁ * y₂ = 0 := hz.resolve_left hparallel
    exact hd (parameter_of_quarter_turn hp hq hcosine
      (by linarith [hx.resolve_right hparallel]) hreference)

/-! ### The sum -/

theorem exists_candidate (hd : d ≠ 1) (hp : OnCurve d x₁ y₁) (hq : OnCurve d x₂ y₂)
    (hz₁ : z₁ ≠ 0) (hz₂ : z₂ ≠ 0) :
    (∃ r, dedicatedSum? ⟨x₁ * z₁, y₁ * z₁, z₁⟩ ⟨x₂ * z₂, y₂ * z₂, z₂⟩ = some r) ∨
      ∃ s, unifiedSum? d ⟨x₁ * z₁, y₁ * z₁, z₁⟩ ⟨x₂ * z₂, y₂ * z₂, z₂⟩ = some s := by
  rw [dedicatedSum?]
  split
  · exact .inl ⟨_, proper?_eq (doubled_ne_zero hd hp hz₁)⟩
  · obtain hdedicated | hreference := dedicated_or_referenceSum_ne_zero hd hp hq hz₁ hz₂
    · exact .inl ⟨_, proper?_eq hdedicated⟩
    · exact .inr (unifiedSum?_isSome hz₁ hz₂ hreference)

/-- On an Edwards curve with another parameter than `1` every pair of finite points has a candidate
for its sum, so none is absorbed; the sum is the chosen candidate, of unit length and on the side
`0 ≤ z`. -/
theorem add_candidate (hd : d ≠ 1) (hpz : p.z ≠ 0) (hqz : q.z ≠ 0)
    (hp : (Equation.edwards d).residual p = 0) (hq : (Equation.edwards d).residual q = 0) :
    ((∃ r, dedicatedSum? p q = some r) ∨ ∃ s, unifiedSum? d p q = some s) ∧
      ∃ r, Sum.closer? (.edwards d) (dedicatedSum? p q) (unifiedSum? d p q) = some r ∧
        ((Equation.edwards d).add p q).point = r.upper ∧
        ((Equation.edwards d).add p q).point.norm = 1 ∧
        0 ≤ ((Equation.edwards d).add p q).point.z := by
  obtain ⟨hpaffine, hpcurve⟩ := exists_affine hpz hp
  obtain ⟨hqaffine, hqcurve⟩ := exists_affine hqz hq
  have hcandidate := exists_candidate hd hpcurve hqcurve hpz hqz
  rw [← hpaffine, ← hqaffine] at hcandidate
  refine ⟨hcandidate, ?_⟩
  cases hsum : Sum.closer? (.edwards d) (dedicatedSum? p q) (unifiedSum? d p q) with
  | none =>
    obtain ⟨hdedicated, hunified⟩ := Sum.closer?_eq_none hsum
    rw [hdedicated, hunified] at hcandidate
    simp at hcandidate
  | some r =>
    have hpoint : ((Equation.edwards d).add p q).point = r.upper := by
      change (sum d p q) = r.upper
      rw [sum, hsum, Option.getD_some]
    have hnorm : r.norm = 1 := by
      obtain h | h := Sum.closer?_eq_some hsum
      · exact (proper?_spec h).1
      · exact (proper?_spec h).1
    obtain ⟨hupper, hz⟩ := norm_upper r
    rw [hpoint]
    exact ⟨r, rfl, rfl, hupper.trans hnorm, hz⟩

/-- Points half a turn apart on the curve with parameter `-8`, where only the unified formula gives
the sum. -/
theorem add_half_turn :
    let p : Point ℝ := ⟨1, 1, 2⟩
    let q : Point ℝ := ⟨-1, -1, 2⟩
    (-8 : ℝ) ≠ 1 ∧ p.z ≠ 0 ∧ q.z ≠ 0 ∧ (Equation.edwards (-8)).residual p = 0 ∧
      (Equation.edwards (-8)).residual q = 0 ∧ dedicatedSum? p q = none ∧
      (∃ s, unifiedSum? (-8) p q = some s) ∧
      ((Equation.edwards (-8)).add p q).point.norm = 1 ∧
      0 ≤ ((Equation.edwards (-8)).add p q).point.z := by
  intro p q
  have hd : (-8 : ℝ) ≠ 1 := by norm_num
  have hpz : p.z ≠ 0 := two_ne_zero
  have hqz : q.z ≠ 0 := two_ne_zero
  have hp : (Equation.edwards (-8)).residual p = 0 := by
    rw [Equation.residual_edwards]
    norm_num [p]
  have hq : (Equation.edwards (-8)).residual q = 0 := by
    rw [Equation.residual_edwards]
    norm_num [q]
  have hpq : p.Resolved q := .of_one_le_cross (by norm_num [normSq_eq, cross_eq, p, q])
    (by norm_num [normSq_eq, p, q])
  have hsame : ¬ p.same q = true := by
    rw [same_iff_cross hpz hqz hpq, eq_zero_iff, cross_eq]
    norm_num [p, q]
  have hdedicated : dedicatedSum? p q = none := by
    have hzero : dedicated p q = zero := by
      rw [eq_zero_iff, dedicated]
      norm_num [p, q]
    rw [dedicatedSum?, if_neg hsame, hzero, proper?_zero]
  obtain ⟨hcandidate, r, -, -, hnorm, hz⟩ := add_candidate hd hpz hqz hp hq
  rw [hdedicated] at hcandidate
  exact ⟨hd, hpz, hqz, hp, hq, hdedicated, hcandidate.resolve_left (by simp), hnorm, hz⟩

end EllipticPlot.Edwards
