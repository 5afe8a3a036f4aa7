import EllipticPlot.Proofs.CubicRoots
import EllipticPlot.Proofs.WeierstrassGroup

/-!
# The shortcut for the neutral element

A summand counts as the neutral element if its third coordinate is small, and the other summand is
returned as the sum. Two points count as the same if the angle between them is small. On a curve the
first test is the weaker one: the third coordinate vanishes to third order at the point at infinity,
so the shortcut also takes points for the neutral element that are far beyond the angle. Apart from
these points the sum is the other summand only for the neutral element, as long as the summands are
not two points that count as the same.
-/

namespace EllipticPlot

open Point

variable {a b : ℝ} {p q : Point ℝ}

namespace Weierstrass

/-! ### The two tests -/

theorem isNeutral_iff_sq_le : isNeutral p = true ↔ p.z ^ 2 ≤ 1e-24 * p.normSq := by
  have hnorm : 0 ≤ 1e-12 * p.norm := mul_nonneg (by norm_num) (Real.sqrt_nonneg _)
  rw [isNeutral_iff_le, ← abs_of_nonneg hnorm, ← sq_le_sq, mul_pow, sq_norm]
  norm_num

theorem same_neutral_iff :
    p.same neutral = true ↔ p.x ^ 2 + p.z ^ 2 ≤ 1e-24 * p.normSq := by
  have hcross : (p.cross neutral).normSq = p.x ^ 2 + p.z ^ 2 := by
    rw [normSq_eq, cross_eq, neutral_eq]
    ring
  have hneutral : (neutral : Point ℝ).normSq = 1 := by
    rw [normSq_eq, neutral_eq]
    ring
  rw [same, Bool.or_eq_true, beq_iff, decide_eq_true_iff, hcross, hneutral, mul_one, sameAngleSq]
  refine or_iff_right_of_imp ?_
  rintro rfl
  rw [hneutral, neutral_eq]
  norm_num

theorem isNeutral_of_same (h : p.same neutral = true) : isNeutral p = true := by
  rw [same_neutral_iff] at h
  rw [isNeutral_iff_sq_le]
  linarith [sq_nonneg p.x]

theorem same_neutral_of_projEq (h : (neutral : Point ℝ).ProjEq p) : p.same neutral = true := by
  obtain ⟨k, -, rfl⟩ := h
  rw [same_neutral_iff, neutral_eq]
  simp only [scale_x, scale_z, zero_mul]
  have hnonneg := (scale k ⟨0, 1, 0⟩ : Point ℝ).normSq_nonneg
  norm_num
  exact hnonneg

theorem isNeutral_of_projEq (h : p.ProjEq q) (hp : isNeutral p = true) : isNeutral q = true := by
  obtain ⟨k, -, rfl⟩ := h
  rw [isNeutral_iff_sq_le] at hp ⊢
  rw [normSq_scale, scale_z]
  linarith [mul_le_mul_of_nonneg_left hp (sq_nonneg k)]

/-- On a curve the third coordinate bounds the cube of the first. -/
theorem abs_x_pow_three_le (hp : (Equation.weierstrass a b).residual p = 0)
    (hneutral : isNeutral p = true) :
    |p.x| ^ 3 ≤ 1e-12 * (1 + |a| + |b|) * p.norm ^ 3 := by
  rw [isNeutral_iff_le] at hneutral
  rw [Equation.residual_weierstrass] at hp
  have hsq : p.norm ^ 2 = p.x ^ 2 + p.y ^ 2 + p.z ^ 2 := by
    rw [sq_norm, normSq_eq]
  have hnorm : 0 ≤ p.norm := Real.sqrt_nonneg _
  have hxz : |p.x * p.z| ≤ p.norm ^ 2 := by
    rw [hsq, abs_le]
    constructor
    · linarith [sq_nonneg (p.x + p.z), sq_nonneg p.x, sq_nonneg p.y, sq_nonneg p.z]
    · linarith [sq_nonneg (p.x - p.z), sq_nonneg p.x, sq_nonneg p.y, sq_nonneg p.z]
  have hy : p.y ^ 2 ≤ p.norm ^ 2 := by linarith [sq_nonneg p.x, sq_nonneg p.z]
  have hz : p.z ^ 2 ≤ p.norm ^ 2 := by linarith [sq_nonneg p.x, sq_nonneg p.y]
  have hfactor : |p.y ^ 2 - a * (p.x * p.z) - b * p.z ^ 2| ≤ (1 + |a| + |b|) * p.norm ^ 2 := by
    calc |p.y ^ 2 - a * (p.x * p.z) - b * p.z ^ 2|
        ≤ |p.y ^ 2| + |a * (p.x * p.z)| + |b * p.z ^ 2| :=
          (abs_sub _ _).trans (add_le_add_left (abs_sub _ _) _)
      _ = p.y ^ 2 + |a| * |p.x * p.z| + |b| * p.z ^ 2 := by
          rw [abs_of_nonneg (sq_nonneg p.y), abs_mul a, abs_mul b, abs_of_nonneg (sq_nonneg p.z)]
      _ ≤ p.norm ^ 2 + |a| * p.norm ^ 2 + |b| * p.norm ^ 2 :=
          add_le_add (add_le_add hy (mul_le_mul_of_nonneg_left hxz (abs_nonneg a)))
            (mul_le_mul_of_nonneg_left hz (abs_nonneg b))
      _ = (1 + |a| + |b|) * p.norm ^ 2 := by ring
  have hcube : p.x ^ 3 = p.z * (p.y ^ 2 - a * (p.x * p.z) - b * p.z ^ 2) := by
    linear_combination hp
  calc |p.x| ^ 3 = |p.z| * |p.y ^ 2 - a * (p.x * p.z) - b * p.z ^ 2| := by
        rw [← abs_pow, hcube, abs_mul]
    _ ≤ (1e-12 * p.norm) * ((1 + |a| + |b|) * p.norm ^ 2) :=
        mul_le_mul hneutral hfactor (abs_nonneg _) (by positivity)
    _ = 1e-12 * (1 + |a| + |b|) * p.norm ^ 3 := by ring

/-! ### Sums that return a summand -/

/-- Different elements are different points. -/
theorem triple_injective {P Q : (affine a b).Point} (h : (triple P).ProjEq (triple Q)) : P = Q := by
  cases P with
  | zero =>
    cases Q with
    | zero => rfl
    | some x y hQ =>
      have hz := h.z_eq_zero (by rw [triple, neutral_eq])
      exact absurd hz one_ne_zero
  | some x y hP =>
    cases Q with
    | zero =>
      have hz := h.symm.z_eq_zero (by rw [triple, neutral_eq])
      exact absurd hz one_ne_zero
    | some x' y' hQ =>
      obtain ⟨k, -, hk⟩ := h
      simp only [triple, Point.ext_iff, scale_x, scale_y, scale_z, one_mul] at hk
      obtain ⟨rfl, rfl, rfl⟩ := hk
      simp

theorem projEq_of_isNeutral (hq : q ≠ zero) (hp : isNeutral p = true) (threshold : ℝ) :
    (sum a b threshold p q).point.ProjEq q := by
  rw [sum]
  dsimp only
  rw [if_pos hp]
  exact (projEq_normalize hq).symm

/-- Between summands that are not taken for the neutral element the sum is that of the group. -/
theorem triple_add_projEq_sum (hsmooth : 4 * a ^ 3 + 27 * b ^ 2 ≠ 0) {P Q : (affine a b).Point}
    (hP : (triple P).ProjEq p) (hQ : (triple Q).ProjEq q) (hpq : p.Resolved q)
    (hp : ¬ isNeutral p = true) (hq : ¬ isNeutral q = true) (threshold : ℝ) :
    (triple (P + Q)).ProjEq (sum a b threshold p q).point := by
  have hfinite : ∀ {r : Point ℝ}, (Equation.weierstrass a b).residual r = 0 → ¬ isNeutral r = true →
      (Equation.weierstrass a b).FinitePoint r := by
    intro r hr hneutral
    refine ⟨fun hz => hneutral ?_, hr⟩
    rw [isNeutral_iff_sq_le, hz]
    have hnonneg := r.normSq_nonneg
    norm_num
    positivity
  have hp0 := hP.ne_zero (triple_ne_zero P)
  have hq0 := hQ.ne_zero (triple_ne_zero Q)
  have hline := isChord_line hsmooth hp0 hq0 (on_curve_of_triple hP) hpq
  have hcuts := cutsAt_sumOnLine hline (hfinite (on_curve_of_triple hP) hp)
    (hfinite (on_curve_of_triple hQ) hq) threshold
  have hsum : (sum a b threshold p q).point = sumOnLine a b threshold p q (line a b p q) := by
    rw [sum]
    dsimp only
    rw [if_neg hp, if_neg hq]
  rw [hsum]
  -- both come from the third zero on the line of the summands
  have hthird := (cutsAt_triple hP hQ hline).third_unique hcuts.2 hline.ne_zero hp0 hq0
    (triple_ne_zero _) (mirrorY_ne_zero (ne_zero_of_norm_eq_one hcuts.1))
  have hneg := triple_neg (-(P + Q))
  rw [neg_neg] at hneg
  have hprojEq := hneg.symm.trans hthird.mirrorY
  rwa [mirrorY_mirrorY] at hprojEq

theorem isNeutral_of_sum_projEq (hsmooth : 4 * a ^ 3 + 27 * b ^ 2 ≠ 0) (hp : p ≠ zero)
    (hq : q ≠ zero) (hpcurve : (Equation.weierstrass a b).residual p = 0)
    (hqcurve : (Equation.weierstrass a b).residual q = 0) (hpq : p.Resolved q) {threshold : ℝ}
    (h : (sum a b threshold p q).point.ProjEq q) : isNeutral p = true := by
  by_contra hneutral
  by_cases hqneutral : isNeutral q = true
  · -- the other summand is returned, so it is `q` itself
    rw [sum] at h
    dsimp only at h
    rw [if_neg hneutral, if_pos hqneutral] at h
    exact hneutral (isNeutral_of_projEq ((projEq_normalize hp).trans h).symm hqneutral)
  · obtain ⟨P, hP⟩ := exists_triple hsmooth hp hpcurve
    obtain ⟨Q, hQ⟩ := exists_triple hsmooth hq hqcurve
    have hsum := triple_add_projEq_sum hsmooth hP hQ hpq hneutral hqneutral threshold
    have hzero := triple_injective ((hsum.trans h).trans hQ.symm)
    rw [add_eq_right] at hzero
    rw [hzero] at hP
    exact hneutral (isNeutral_of_same (same_neutral_of_projEq hP))

/-! ### Flexes that count as the same

Two flexes on opposite sides of the axis are different points, and neither is the neutral element.
If the angle between them is within the tolerance, then their sum is found on the tangent at the
first flex. That tangent meets the curve nowhere else, so the sum is the second flex.
-/

/-- A point of the curve that the preferred chart `z = 1` gives is the sum. -/
theorem sumOnLine_eq {n r : Point ℝ} {threshold : ℝ} (hn : threshold < |n.y|)
    (h : sumInChartZ? p q n = some r) (hr : (Equation.weierstrass a b).residual r = 0) :
    sumOnLine a b threshold p q n = r := by
  have hchart : preferredChart threshold n = .z := if_pos hn
  have hcandidate : candidate? a b p q n .z = some r := h
  have hresidual : Scalar.abs ((Equation.weierstrass a b).residual r) < Sum.acceptedResidual := by
    rw [hr]
    change |(0 : ℝ)| < 1e-10
    norm_num
  rw [sumOnLine, hchart, hcandidate, Sum.closer?_of_accepted hresidual, Option.getD_some]

/-- The curve with flexes where `x = 3` and `y` has the given value or its opposite. -/
def flexed (y : ℝ) : Equation ℝ := .weierstrass (-27 - 6 * y) (54 + 18 * y + y ^ 2)

theorem residual_flexed (y k : ℝ) : (flexed y).residual ⟨3 * k, y * k, k⟩ = 0 := by
  rw [flexed, Equation.residual_weierstrass]
  ring

theorem residual_flexed_neg (y : ℝ) : (flexed y).residual ⟨3, -y, 1⟩ = 0 := by
  rw [flexed, Equation.residual_weierstrass]
  ring

theorem sumInChartZ?_flexed {y k : ℝ} (hy : y ≠ 0) (hk : k ≠ 0) :
    sumInChartZ? (⟨3 * k, y * k, k⟩ : Point ℝ) ⟨3, -y, 1⟩
      ((flexed y).gradient ⟨3 * k, y * k, k⟩) = (⟨3, -y, 1⟩ : Point ℝ).proper? := by
  have hquotient : ∀ {x y z : ℝ}, y ≠ 0 → x = z * y → Scalar.quotient? x y = some z :=
    fun hy h => quotient?_eq_some_iff.mpr ⟨hy, (div_eq_iff hy).mpr h⟩
  have hn : -2 * (y * k) * k ≠ 0 := by simp [hy, hk]
  rw [sumInChartZ?, flexed, Equation.gradient_weierstrass, hquotient (z := 3) hn (by ring),
    hquotient (z := 3) hk rfl, hquotient (z := 3) one_ne_zero (by norm_num)]
  simp only [Option.bind_eq_bind, Option.bind_some]
  rw [hquotient (z := -y) hn (by norm_num [Scalar.sq]; ring), Option.bind_some]
  norm_num [Scalar.sq]

theorem same_flexed {y : ℝ} (hy : y ^ 2 ≤ 2e-24) (k : ℝ) :
    (⟨3 * k, y * k, k⟩ : Point ℝ).same ⟨3, -y, 1⟩ = true := by
  rw [same, Bool.or_eq_true]
  right
  rw [decide_eq_true_iff, normSq_eq, normSq_eq, normSq_eq, cross_eq, sameAngleSq]
  have hk : 0 ≤ k ^ 2 := sq_nonneg k
  have hbound := mul_le_mul_of_nonneg_right hy hk
  have hrest : 0 ≤ k ^ 2 * (20 * y ^ 2 + y ^ 4) := by positivity
  norm_num at hbound ⊢
  linarith

theorem not_isNeutral_flexed {y k : ℝ} (hy : y ^ 2 ≤ 1) (hk : k ≠ 0) :
    ¬ isNeutral (⟨3 * k, y * k, k⟩ : Point ℝ) = true := by
  rw [isNeutral_iff_sq_le, normSq_eq, not_le]
  have hpos : 0 < k ^ 2 := by positivity
  have hbound := mul_le_mul_of_nonneg_right hy hpos.le
  norm_num
  linarith

/-- If the two flexes count as the same, their sum is the second flex, not the neutral element. -/
theorem add_flexed_projEq {y k : ℝ} (hy : 0 < y) (hsmall : y ^ 2 ≤ 2e-24) (hk : 1 ≤ k ^ 2 * y) :
    ((flexed y).add ⟨3 * k, y * k, k⟩ ⟨3, -y, 1⟩).point.ProjEq ⟨3, -y, 1⟩ := by
  have hk0 : k ≠ 0 := by
    rintro rfl
    norm_num at hk
  have hq : (⟨3, -y, 1⟩ : Point ℝ) ≠ zero := fun h => one_ne_zero (eq_zero_iff.mp h).2.2
  have hnormalize : (flexed y).residual (normalize (⟨3, -y, 1⟩ : Point ℝ)) = 0 :=
    Equation.residual_eq_zero_of_projEq (projEq_normalize hq) (residual_flexed_neg y)
  have hcandidate := (sumInChartZ?_flexed hy.ne' hk0).trans (proper?_eq hq)
  have hthreshold : (defaultThreshold : ℝ) < |((flexed y).gradient ⟨3 * k, y * k, k⟩).y| := by
    rw [flexed, Equation.gradient_weierstrass, defaultThreshold, lt_abs]
    right
    norm_num
    linarith
  have hp := not_isNeutral_flexed (y := y) (k := k) (by linarith) hk0
  have hq' : ¬ isNeutral (⟨3, -y, 1⟩ : Point ℝ) = true := by
    have h := not_isNeutral_flexed (y := -y) (k := 1) (by linarith) one_ne_zero
    rwa [mul_one, mul_one] at h
  have hsum : (flexed y).add ⟨3 * k, y * k, k⟩ ⟨3, -y, 1⟩ = sum (-27 - 6 * y) (54 + 18 * y + y ^ 2)
      defaultThreshold ⟨3 * k, y * k, k⟩ ⟨3, -y, 1⟩ := rfl
  rw [hsum, sum, line, if_pos (same_flexed hsmall k)]
  dsimp only
  rw [if_neg hp, if_neg hq']
  change (sumOnLine _ _ _ _ _ ((flexed y).gradient _)).ProjEq _
  rw [sumOnLine_eq hthreshold hcandidate hnormalize]
  exact (projEq_normalize hq).symm

/-- With `y = e (3 + e) ^ 2` the only root of the cubic is `3 - (3 + e) ^ 2`. -/
theorem accepted_flexed {e : ℝ} (he : 0 < e) (hsmall : e ≤ 0.1) :
    Curve.ofEquation (flexed (e * (3 + e) ^ 2)) =
      .ok ⟨flexed (e * (3 + e) ^ 2), [⟨3 - (3 + e) ^ 2, 0.0, 1.0⟩]⟩ := by
  have hs : 3 < 3 + e := lt_add_of_pos_right 3 he
  have hs' : 3 + e ≤ 3.1 := by
    norm_num at hsmall ⊢
    linarith
  generalize hse : 3 + e = s at hs hs'
  have hy : 0 < e * s ^ 2 := by positivity
  have hy' : e * s ^ 2 ≤ 1 := by
    calc e * s ^ 2 ≤ 0.1 * 3.1 ^ 2 := by gcongr
      _ ≤ 1 := by norm_num
  refine Curve.accepted_of_single_root ?_ ?_ ?_
  · generalize e * s ^ 2 = y at hy
    calc 0 < y ^ 3 * (27 * y + 108) := by positivity
      _ = 4 * (-27 - 6 * y) ^ 3 + 27 * (54 + 18 * y + y ^ 2) ^ 2 := by ring
  · rw [← hse]
    ring
  · have hs6 : 6 ≤ s ^ 2 - 3 := by
      calc (6 : ℝ) = 3 ^ 2 - 3 := by norm_num
        _ ≤ s ^ 2 - 3 := by gcongr
    have hroot : 6 ^ 2 ≤ (s ^ 2 - 3) ^ 2 := by gcongr
    linarith

/-- Of two points that count as the same without being so, the sum can be the second one although
the first one is not taken for the neutral element. -/
theorem exists_same_add_projEq :
    ∃ (a b : ℝ) (curve : Curve ℝ) (p q : Point ℝ),
      Curve.ofEquation (.weierstrass a b) = .ok curve ∧ p ≠ zero ∧ q ≠ zero ∧
        curve.equation.residual p = 0 ∧ curve.equation.residual q = 0 ∧
        p.same q = true ∧ ¬ p.ProjEq q ∧ ¬ isNeutral p = true ∧
        (curve.equation.add p q).point.ProjEq q := by
  have he : (0 : ℝ) < 1e-13 := by norm_num
  have haccepted := accepted_flexed he (by norm_num)
  generalize hy : (1e-13 * (3 + 1e-13) ^ 2 : ℝ) = y at haccepted
  have hpos : 0 < y := by
    rw [← hy]
    norm_num
  have hsmall : y ^ 2 ≤ 2e-24 := by
    rw [← hy]
    norm_num
  have hk : 1 ≤ (1e7 : ℝ) ^ 2 * y := by
    rw [← hy]
    norm_num
  have hk0 : (1e7 : ℝ) ≠ 0 := by norm_num
  have hprojEq : ¬ (⟨3 * 1e7, y * 1e7, 1e7⟩ : Point ℝ).ProjEq ⟨3, -y, 1⟩ := by
    -- at the scale that makes the last coordinates equal the heights are opposite
    rintro ⟨m, -, hm⟩
    simp only [Point.ext_iff, scale_x, scale_y, scale_z] at hm
    obtain ⟨-, hheight, hscale⟩ := hm
    rw [mul_assoc, ← hscale, mul_one] at hheight
    linarith
  exact ⟨_, _, _, ⟨3 * 1e7, y * 1e7, 1e7⟩, ⟨3, -y, 1⟩, haccepted,
    fun h => hk0 (eq_zero_iff.mp h).2.2, fun h => one_ne_zero (eq_zero_iff.mp h).2.2,
    residual_flexed y 1e7, residual_flexed_neg y, same_flexed hsmall 1e7, hprojEq,
    not_isNeutral_flexed (by linarith) hk0, add_flexed_projEq hpos hsmall hk⟩

end Weierstrass

open Weierstrass

/-- The sum with `q` is `q` exactly for the points that the shortcut takes for the neutral element,
unless `p` is a different point that counts as `q` (see `exists_same_add_projEq`). The shortcut takes
all points that count as the neutral element, no others among those clear of infinity, and in
general those whose first coordinate is small with its cube. -/
theorem add_projEq_right_iff {curve : Curve ℝ}
    (haccepted : Curve.ofEquation (.weierstrass a b) = .ok curve) (hp : p ≠ zero) (hq : q ≠ zero)
    (hpcurve : curve.equation.residual p = 0) (hqcurve : curve.equation.residual q = 0) :
    (isNeutral p = true → (curve.equation.add p q).point.ProjEq q) ∧
      (p.Resolved q → ((curve.equation.add p q).point.ProjEq q ↔ isNeutral p = true)) ∧
      (p.same neutral = true → isNeutral p = true) ∧
      (p.ClearOfInfinity → isNeutral p = true → p.same neutral = true) ∧
      (isNeutral p = true → |p.x| ^ 3 ≤ 1e-12 * (1 + |a| + |b|) * p.norm ^ 3) := by
  have hsmooth := Curve.discriminant_ne_zero haccepted
  rw [Curve.equation_of_accepted haccepted] at hpcurve hqcurve ⊢
  have hsum : isNeutral p = true → ((Equation.weierstrass a b).add p q).point.ProjEq q :=
    fun hneutral => projEq_of_isNeutral hq hneutral _
  refine ⟨hsum, fun hpq => ⟨?_, hsum⟩, isNeutral_of_same, fun hclear hneutral => ?_,
    abs_x_pow_three_le hpcurve⟩
  · exact isNeutral_of_sum_projEq hsmooth hp hq hpcurve hqcurve hpq
  · have hz := (isNeutral_iff hclear).mp hneutral
    exact same_neutral_of_projEq (neutral_projEq hp hz hpcurve)

/-- On `y² = x³ + 1` a triple of the point at infinity plus `(0, 1)`. -/
theorem add_infinity_zero_one :
    let curve : Curve ℝ := ⟨.weierstrass 0 1, [⟨-1, 0.0, 1.0⟩]⟩
    let p : Point ℝ := ⟨0, 2, 0⟩
    let q : Point ℝ := ⟨0, 1, 1⟩
    Curve.ofEquation (.weierstrass 0 1) = .ok curve ∧ p ≠ zero ∧ q ≠ zero ∧
      curve.equation.residual p = 0 ∧ curve.equation.residual q = 0 ∧ p.Resolved q ∧
      p.ClearOfInfinity ∧ (curve.equation.add p q).point.ProjEq q ∧ p.same neutral = true := by
  intro curve p q
  have hp : p ≠ zero := by
    rw [Ne, eq_zero_iff]
    norm_num [p]
  have hq : q ≠ zero := by
    rw [Ne, eq_zero_iff]
    norm_num [q]
  have hpcurve : curve.equation.residual p = 0 := by
    rw [Equation.residual_weierstrass]
    norm_num [p]
  have hqcurve : curve.equation.residual q = 0 := by
    rw [Equation.residual_weierstrass]
    norm_num [q]
  have hpq : p.Resolved q := .of_one_le_cross (by norm_num [normSq_eq, cross_eq, p, q])
    (by norm_num [normSq_eq, p, q])
  have hclear : p.ClearOfInfinity := .inl rfl
  have hneutral : isNeutral p = true := (isNeutral_iff hclear).mpr rfl
  obtain ⟨-, hiff, -, hsame, -⟩ :=
    add_projEq_right_iff Curve.accepted_zero_one hp hq hpcurve hqcurve
  exact ⟨Curve.accepted_zero_one, hp, hq, hpcurve, hqcurve, hpq, hclear, (hiff hpq).mpr hneutral,
    hsame hclear hneutral⟩

/-- On `y² = x³ + 1` the point with `x = 10⁸` counts as the neutral element in a sum, though the
angle between the two is about `10⁻⁴`. -/
theorem add_far_point_zero_one :
    let curve : Curve ℝ := ⟨.weierstrass 0 1, [⟨-1, 0.0, 1.0⟩]⟩
    let p : Point ℝ := ⟨1e8, √(1e24 + 1), 1⟩
    let q : Point ℝ := ⟨0, 1, 1⟩
    Curve.ofEquation (.weierstrass 0 1) = .ok curve ∧ p ≠ zero ∧ q ≠ zero ∧
      curve.equation.residual p = 0 ∧ curve.equation.residual q = 0 ∧
      (curve.equation.add p q).point.ProjEq q ∧ ¬ p.same neutral = true := by
  intro curve p q
  have hsq : √(1e24 + 1 : ℝ) ^ 2 = 1e24 + 1 := Real.sq_sqrt (by norm_num)
  have hnormSq : p.normSq = 1e24 + 1e16 + 2 := by
    rw [normSq_eq]
    dsimp only [p]
    rw [hsq]
    norm_num
  have hq : q ≠ zero := by
    rw [Ne, eq_zero_iff]
    norm_num [q]
  have hneutral : isNeutral p = true := by
    rw [isNeutral_iff_sq_le, hnormSq]
    norm_num [p]
  refine ⟨Curve.accepted_zero_one, ?_, hq, ?_, ?_, projEq_of_isNeutral hq hneutral _, ?_⟩
  · rw [Ne, eq_zero_iff]
    norm_num [p]
  · rw [Equation.residual_weierstrass]
    dsimp only [p]
    rw [hsq]
    norm_num
  · rw [Equation.residual_weierstrass]
    norm_num [q]
  · rw [same_neutral_iff, hnormSq]
    norm_num [p]

end EllipticPlot
