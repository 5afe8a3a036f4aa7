import EllipticPlot.Proofs.EdwardsLaw
import EllipticPlot.Proofs.PointGroup

/-!
# The group of an Edwards curve

For `d ≤ 0` the finite points of the Edwards curve lie within the unit circle, so the denominators
of the reference law never vanish: the law is defined for every pair and makes the points an
abelian group. A turn by a right angle is the addition of a point; it exchanges the two coordinates
of a sum, so only one of them has to be computed for associativity. The computed sum is that of the
group, wherever the tolerance leaves no doubt about the summands.
-/

namespace EllipticPlot.Edwards

open Point

/-- The reference law stays on the curve. -/
theorem onCurve_sum {d x₁ y₁ x₂ y₂ : ℝ} (h₁ : OnCurve d x₁ y₁) (h₂ : OnCurve d x₂ y₂)
    (hplus : 1 + d * x₁ * x₂ * y₁ * y₂ ≠ 0) (hminus : 1 - d * x₁ * x₂ * y₁ * y₂ ≠ 0) :
    OnCurve d ((x₁ * y₂ + y₁ * x₂) / (1 + d * x₁ * x₂ * y₁ * y₂))
      ((y₁ * y₂ - x₁ * x₂) / (1 - d * x₁ * x₂ * y₁ * y₂)) := by
  have haffine := (exists_affine (p := referenceSum d x₁ y₁ x₂ y₂) (mul_ne_zero hplus hminus)
    (residual_referenceSum h₁ h₂)).2
  dsimp only [referenceSum] at haffine
  rwa [mul_div_mul_right _ _ hminus, mul_comm (1 + d * x₁ * x₂ * y₁ * y₂),
    mul_div_mul_right _ _ hplus] at haffine

/-- A finite point of the Edwards curve with parameter `d`. -/
@[ext]
structure AffinePoint (d : ℝ) where
  x : ℝ
  y : ℝ
  on_curve : OnCurve d x y

namespace AffinePoint

variable {d : ℝ} (P Q R : AffinePoint d)

/-! ### The neutral element, inverses and turns -/

instance : Zero (AffinePoint d) := ⟨0, 1, by norm_num [OnCurve]⟩

instance : Neg (AffinePoint d) := ⟨fun P => ⟨-P.x, P.y, by
  have h := P.on_curve
  rw [OnCurve] at h ⊢
  linear_combination h⟩⟩

theorem zero_x : (0 : AffinePoint d).x = 0 := rfl

theorem zero_y : (0 : AffinePoint d).y = 1 := rfl

theorem neg_x : (-P).x = -P.x := rfl

theorem neg_y : (-P).y = P.y := rfl

/-- The point turned by a right angle. -/
def turn : AffinePoint d := ⟨P.y, -P.x, by
  have h := P.on_curve
  rw [OnCurve] at h ⊢
  linear_combination h⟩

@[simp] theorem turn_x : (turn P).x = P.y := rfl

@[simp] theorem turn_y : (turn P).y = -P.x := rfl

/-! ### Three summands -/

/-- The product that the denominators of a sum differ from one by. -/
def mixed : ℝ := d * P.x * Q.x * P.y * Q.y

theorem mixed_eq : mixed P Q = d * P.x * Q.x * P.y * Q.y := rfl

theorem mixed_comm : mixed P Q = mixed Q P := by
  rw [mixed_eq, mixed_eq]
  ring

/-- The first coordinate of `P + Q + R` is the quotient of this number and the next. -/
def numerator : ℝ := (P.x * Q.y + P.y * Q.x) * R.y * (1 - mixed P Q) +
  (P.y * Q.y - P.x * Q.x) * R.x * (1 + mixed P Q)

def denominator : ℝ := (1 + mixed P Q) * (1 - mixed P Q) +
  d * (P.x * Q.y + P.y * Q.x) * (P.y * Q.y - P.x * Q.x) * R.x * R.y

/-- The quotient is the same if the sum starts at the other end. The coefficients come from dividing
by the curve equations of `P`, `R` and `Q` in this order. -/
theorem numerator_mul_denominator :
    numerator P Q R * denominator R Q P = numerator R Q P * denominator P Q R := by
  obtain ⟨x₁, y₁, hP⟩ := P
  obtain ⟨x₂, y₂, hQ⟩ := Q
  obtain ⟨x₃, y₃, hR⟩ := R
  rw [OnCurve] at hP hQ hR
  simp only [numerator, denominator, mixed]
  linear_combination
    d * x₂ * y₂ * (x₁ * (x₂ ^ 3 * x₃ ^ 2 * y₃ * (d * y₂ ^ 2 - 1) -
        y₂ ^ 3 * x₃ * y₃ ^ 2 * (d * x₂ ^ 2 - 1) -
        x₂ ^ 2 * y₂ * x₃ * (x₃ ^ 2 - 1) + x₂ * y₂ ^ 2 * y₃ * (y₃ ^ 2 - 1)) +
      y₁ * (x₂ ^ 3 * x₃ * y₃ ^ 2 * (d * y₂ ^ 2 - 1) +
        y₂ ^ 3 * x₃ ^ 2 * y₃ * (d * x₂ ^ 2 - 1) +
        x₂ ^ 2 * y₂ * y₃ * (y₃ ^ 2 - 1) + x₂ * y₂ ^ 2 * x₃ * (x₃ ^ 2 - 1))) * hP +
    d * x₂ * y₂ * (x₁ * (x₁ ^ 2 - 1) * x₂ * y₂ * (x₂ * x₃ - y₂ * y₃) -
      y₁ * (y₁ ^ 2 - 1) * x₂ * y₂ * (x₂ * y₃ + y₂ * x₃) -
      x₁ ^ 2 * y₁ * (x₂ ^ 3 * x₃ * (d * y₂ ^ 2 - 1) + y₂ ^ 3 * y₃ * (d * x₂ ^ 2 - 1)) -
      x₁ * y₁ ^ 2 * (x₂ ^ 3 * y₃ * (d * y₂ ^ 2 - 1) - y₂ ^ 3 * x₃ * (d * x₂ ^ 2 - 1))) * hR +
    d * x₂ * y₂ * (x₁ * (x₁ ^ 2 - 1) * x₃ * y₃ * (x₂ * x₃ - y₂ * y₃) +
      y₁ * (y₁ ^ 2 - 1) * x₃ * y₃ * (x₂ * y₃ + y₂ * x₃) -
      x₁ ^ 2 * y₁ * (x₂ * x₃ * (x₃ ^ 2 - 1) + y₂ * y₃ * (y₃ ^ 2 - 1)) +
      x₁ * y₁ ^ 2 * (y₂ * x₃ * (x₃ ^ 2 - 1) - x₂ * y₃ * (y₃ ^ 2 - 1))) * hQ

/-! ### Denominators -/

variable [hd : Fact (d ≤ 0)]

/-- The points lie within the unit circle, and the origin is not one of them. -/
theorem radius_bounds : 0 < P.x ^ 2 + P.y ^ 2 ∧ P.x ^ 2 + P.y ^ 2 ≤ 1 := by
  have hcurve := P.on_curve
  rw [OnCurve] at hcurve
  constructor
  · by_contra hzero
    have hx := sq_nonneg P.x
    have hy := sq_nonneg P.y
    have hx0 : P.x ^ 2 = 0 := by linarith
    have hy0 : P.y ^ 2 = 0 := by linarith
    rw [hx0, hy0] at hcurve
    linarith
  · have hprod : d * P.x ^ 2 * P.y ^ 2 ≤ 0 := by
      rw [mul_assoc]
      exact mul_nonpos_of_nonpos_of_nonneg hd.out (by positivity)
    linarith

/-- The square of the mixed product is the product of the gaps to the unit circle. -/
theorem abs_mixed_lt_one : |mixed P Q| < 1 := by
  obtain ⟨hP, hP'⟩ := P.radius_bounds
  obtain ⟨hQ, hQ'⟩ := Q.radius_bounds
  have hPcurve := P.on_curve
  have hQcurve := Q.on_curve
  rw [OnCurve] at hPcurve hQcurve
  have hsq : mixed P Q ^ 2 = (1 - (P.x ^ 2 + P.y ^ 2)) * (1 - (Q.x ^ 2 + Q.y ^ 2)) := by
    rw [hPcurve, hQcurve, mixed]
    ring
  rw [← sq_lt_one_iff_abs_lt_one, hsq]
  exact mul_lt_one_of_nonneg_of_lt_one_left (by linarith) (by linarith) (by linarith)

theorem one_add_mixed_ne_zero : 1 + mixed P Q ≠ 0 := by
  have h := (abs_lt.1 (abs_mixed_lt_one P Q)).1
  linarith

theorem one_sub_mixed_ne_zero : 1 - mixed P Q ≠ 0 := by
  have h := (abs_lt.1 (abs_mixed_lt_one P Q)).2
  linarith

/-! ### The law -/

/-- The reference law. -/
noncomputable instance : Add (AffinePoint d) where
  add P Q :=
    { x := (P.x * Q.y + P.y * Q.x) / (1 + mixed P Q)
      y := (P.y * Q.y - P.x * Q.x) / (1 - mixed P Q)
      on_curve := onCurve_sum P.on_curve Q.on_curve (one_add_mixed_ne_zero P Q)
        (one_sub_mixed_ne_zero P Q) }

theorem add_x : (P + Q).x = (P.x * Q.y + P.y * Q.x) / (1 + mixed P Q) := rfl

theorem add_y : (P + Q).y = (P.y * Q.y - P.x * Q.x) / (1 - mixed P Q) := rfl

protected theorem add_comm : P + Q = Q + P := by
  ext
  · rw [add_x, add_x, mixed_comm]
    ring
  · rw [add_y, add_y, mixed_comm]
    ring

/-! ### Associativity -/

theorem denominator_eq :
    denominator P Q R = (1 + mixed P Q) * (1 - mixed P Q) * (1 + mixed (P + Q) R) := by
  have hplus := one_add_mixed_ne_zero P Q
  have hminus := one_sub_mixed_ne_zero P Q
  rw [denominator, mixed_eq (P + Q) R, add_x, add_y]
  field_simp

theorem denominator_ne_zero : denominator P Q R ≠ 0 := by
  rw [denominator_eq]
  exact mul_ne_zero (mul_ne_zero (one_add_mixed_ne_zero P Q) (one_sub_mixed_ne_zero P Q))
    (one_add_mixed_ne_zero (P + Q) R)

theorem add_add_x : (P + Q + R).x = numerator P Q R / denominator P Q R := by
  have hplus := one_add_mixed_ne_zero P Q
  have hminus := one_sub_mixed_ne_zero P Q
  have houter := one_add_mixed_ne_zero (P + Q) R
  rw [denominator_eq, numerator, add_x (P + Q), add_x P, add_y P]
  field_simp

theorem add_assoc_x : (P + Q + R).x = (P + (Q + R)).x := by
  rw [AffinePoint.add_comm P (Q + R), AffinePoint.add_comm Q R, add_add_x, add_add_x,
    div_eq_div_iff (denominator_ne_zero P Q R) (denominator_ne_zero R Q P)]
  exact numerator_mul_denominator P Q R

theorem add_turn : P + turn Q = turn (P + Q) := by
  ext
  · rw [turn_x, add_x, add_y, mixed_eq, mixed_eq, turn_x, turn_y]
    ring
  · rw [turn_y, add_y, add_x, mixed_eq, mixed_eq, turn_x, turn_y]
    ring

protected theorem add_assoc : P + Q + R = P + (Q + R) := by
  ext
  · exact add_assoc_x P Q R
  · -- the second coordinate is the first one of the turned sum
    have h := add_assoc_x P Q (turn R)
    rwa [add_turn, add_turn, add_turn] at h

protected theorem zero_add : 0 + P = P := by
  ext
  · rw [add_x, mixed_eq, zero_x, zero_y]
    ring
  · rw [add_y, mixed_eq, zero_x, zero_y]
    ring

protected theorem neg_add_cancel : -P + P = 0 := by
  have hcurve := P.on_curve
  have hminus := one_sub_mixed_ne_zero (-P) P
  rw [OnCurve] at hcurve
  ext
  · rw [add_x, neg_x, neg_y, zero_x]
    ring
  · rw [add_y, zero_y, div_eq_one_iff_eq hminus, mixed_eq, neg_x, neg_y]
    linear_combination hcurve

noncomputable instance : AddCommGroup (AffinePoint d) where
  add_assoc P Q R := AffinePoint.add_assoc P Q R
  zero_add P := AffinePoint.zero_add P
  add_zero P := by rw [AffinePoint.add_comm, AffinePoint.zero_add]
  neg_add_cancel P := AffinePoint.neg_add_cancel P
  add_comm P Q := AffinePoint.add_comm P Q
  nsmul := nsmulRec
  zsmul := zsmulRec

end AffinePoint

/-! ### The computed sum -/

section

variable {d : ℝ} {p q : Point ℝ}

/-- An element of the group as a point. -/
def triple (P : AffinePoint d) : Point ℝ := ⟨P.x, P.y, 1⟩

/-- Every finite point of the curve denotes an element. -/
theorem exists_triple (hz : p.z ≠ 0) (hp : (Equation.edwards d).residual p = 0) :
    ∃ P : AffinePoint d, P.x = p.x / p.z ∧ P.y = p.y / p.z ∧ (triple P).ProjEq p := by
  refine ⟨⟨p.x / p.z, p.y / p.z, (exists_affine hz hp).2⟩, rfl, rfl, p.z, hz, ?_⟩
  ext <;> simp [triple, hz]

theorem triple_scale (P : AffinePoint d) (k : ℝ) :
    (triple P).scale k = ⟨P.x * k, P.y * k, k⟩ := by
  ext <;> simp [triple]

theorem residual_triple (P : AffinePoint d) : (Equation.edwards d).residual (triple P) = 0 := by
  have h := P.on_curve
  rw [OnCurve] at h
  rw [Equation.residual_edwards, triple]
  linear_combination h

variable [hd : Fact (d ≤ 0)]

theorem referenceSum_z_ne_zero (P Q : AffinePoint d) :
    (referenceSum d P.x P.y Q.x Q.y).z ≠ 0 :=
  mul_ne_zero (P.one_add_mixed_ne_zero Q) (P.one_sub_mixed_ne_zero Q)

theorem triple_add (P Q : AffinePoint d) :
    (triple (P + Q)).ProjEq (referenceSum d P.x P.y Q.x Q.y) := by
  have hplus := P.one_add_mixed_ne_zero Q
  have hminus := P.one_sub_mixed_ne_zero Q
  refine ⟨(1 + P.mixed Q) * (1 - P.mixed Q), mul_ne_zero hplus hminus, ?_⟩
  rw [triple, AffinePoint.add_x, AffinePoint.add_y, referenceSum, ← AffinePoint.mixed_eq]
  ext
  · rw [scale_x]
    field_simp
  · rw [scale_y]
    field_simp
  · rw [scale_z, one_mul]

theorem sum_spec {P Q : AffinePoint d} (hp : (triple P).ProjEq p) (hq : (triple Q).ProjEq q)
    (hpq : p.Resolved q) : 0 < (sum d p q).z ∧ (triple (P + Q)).ProjEq (sum d p q) := by
  obtain ⟨k, hk, rfl⟩ := hp
  obtain ⟨l, hl, rfl⟩ := hq
  rw [triple_scale, triple_scale] at hpq ⊢
  obtain ⟨-, hpos, hsum⟩ :=
    sum_projEq P.on_curve Q.on_curve hk hl hpq (referenceSum_z_ne_zero P Q)
  exact ⟨hpos, (triple_add P Q).trans hsum⟩

theorem computesSum : ComputesSum (triple (d := d)) Resolved (sum d) where
  projEq hp hq hpq := (sum_spec hp hq hpq).2

theorem exists_unifiedSum {P Q : AffinePoint d} (hp : (triple P).ProjEq p)
    (hq : (triple Q).ProjEq q) : ∃ s, unifiedSum? d p q = some s := by
  obtain ⟨k, hk, rfl⟩ := hp
  obtain ⟨l, hl, rfl⟩ := hq
  rw [triple_scale, triple_scale]
  apply unifiedSum?_isSome hk hl
  intro hzero
  exact referenceSum_z_ne_zero P Q (eq_zero_iff.1 hzero).2.2

end

/-- For `d ≤ 0` the Edwards addition is complete: the denominators of the reference law vanish for
no pair of finite points, the unified formula always gives a sum, and the sum is a finite point of
the curve. As long as no pair that is added lies within the tolerance without being one point, it
is an abelian group law up to the scale of triples, with neutral element `(0, 1)` and with the
mirror image in `x = 0` as the inverse. -/
theorem add_complete {d : ℝ} {p q r : Point ℝ} (hd : d ≤ 0) (hpz : p.z ≠ 0) (hqz : q.z ≠ 0)
    (hrz : r.z ≠ 0) (hp : (Equation.edwards d).residual p = 0)
    (hq : (Equation.edwards d).residual q = 0) (hr : (Equation.edwards d).residual r = 0) :
    let m := d * (p.x / p.z) * (q.x / q.z) * (p.y / p.z) * (q.y / q.z)
    let add := fun p q => ((Equation.edwards d).add p q).point
    (1 + m ≠ 0 ∧ 1 - m ≠ 0) ∧ (∃ s, unifiedSum? d p q = some s) ∧
      (p.Resolved q → (Equation.edwards d).residual (add p q) = 0 ∧ 0 < (add p q).z) ∧
      (p.Resolved q → (add p q).ProjEq (add q p)) ∧
      (p.Resolved q → q.Resolved r → (add p q).Resolved r → p.Resolved (add q r) →
        (add (add p q) r).ProjEq (add p (add q r))) ∧
      (p.Resolved ⟨0, 1, 1⟩ → (add p ⟨0, 1, 1⟩).ProjEq p) ∧
      (p.Resolved p.mirrorX → (add p p.mirrorX).ProjEq ⟨0, 1, 1⟩) := by
  intro m add
  have hfact : Fact (d ≤ 0) := ⟨hd⟩
  obtain ⟨P, hPx, hPy, hP⟩ := exists_triple hpz hp
  obtain ⟨Q, hQx, hQy, hQ⟩ := exists_triple hqz hq
  obtain ⟨R, -, -, hR⟩ := exists_triple hrz hr
  have hm : m = P.mixed Q := by
    rw [AffinePoint.mixed_eq, hPx, hPy, hQx, hQy]
  rw [hm]
  refine ⟨⟨P.one_add_mixed_ne_zero Q, P.one_sub_mixed_ne_zero Q⟩, exists_unifiedSum hP hQ,
    fun hpq => ?_, fun hpq => ?_, fun hpq hqr hleft hright => ?_, fun hpo => ?_, fun hpp => ?_⟩
  · obtain ⟨hpos, hsum⟩ := sum_spec hP hQ hpq
    exact ⟨Equation.residual_eq_zero_of_projEq hsum (residual_triple _), hpos⟩
  · exact computesSum.comm hP hQ hpq hpq.symm
  · exact computesSum.assoc hP hQ hR hpq hqr hleft hright
  · exact computesSum.zero_right hP (.refl _) hpo
  · exact (computesSum.neg_right hP hP.mirrorX hpp).symm

/-- On the curve with parameter `-8` the double of `(1/2, 1/2)` and `(1, 0)` add up to `(0, -1)`,
the other way round as the sum of `(1/2, 1/2)` and the point a right angle from it. -/
theorem complete_half_half :
    let p : Point ℝ := ⟨1, 1, 2⟩
    let q : Point ℝ := ⟨2, 2, 4⟩
    let r : Point ℝ := ⟨1, 0, 1⟩
    let m : ℝ := -8 * (p.x / p.z) * (q.x / q.z) * (p.y / p.z) * (q.y / q.z)
    let add := fun p q => ((Equation.edwards (-8 : ℝ)).add p q).point
    (-8 : ℝ) ≤ 0 ∧ p.z ≠ 0 ∧ q.z ≠ 0 ∧ r.z ≠ 0 ∧ (Equation.edwards (-8)).residual p = 0 ∧
      (Equation.edwards (-8)).residual q = 0 ∧ (Equation.edwards (-8)).residual r = 0 ∧
      p.Resolved q ∧ q.Resolved r ∧ (add p q).Resolved r ∧ p.Resolved (add q r) ∧
      p.Resolved ⟨0, 1, 1⟩ ∧ p.Resolved p.mirrorX ∧
      1 + m ≠ 0 ∧ 1 - m ≠ 0 ∧ (∃ s, unifiedSum? (-8) p q = some s) ∧
      (Equation.edwards (-8)).residual (add p q) = 0 ∧ 0 < (add p q).z ∧
      (add p q).ProjEq (add q p) ∧ (add (add p q) r).ProjEq (add p (add q r)) ∧
      (add p ⟨0, 1, 1⟩).ProjEq p ∧ (add p p.mirrorX).ProjEq ⟨0, 1, 1⟩ := by
  intro p q r m add
  have hd : (-8 : ℝ) ≤ 0 := by norm_num
  have hfact : Fact ((-8 : ℝ) ≤ 0) := ⟨hd⟩
  have hpz : p.z ≠ 0 := by norm_num [p]
  have hqz : q.z ≠ 0 := by norm_num [q]
  have hrz : r.z ≠ 0 := by norm_num [r]
  let H : AffinePoint (-8) := ⟨1 / 2, 1 / 2, by norm_num [OnCurve]⟩
  let T : AffinePoint (-8) := ⟨1, 0, by norm_num [OnCurve]⟩
  have hH : (triple H).ProjEq p := ⟨2, two_ne_zero, by ext <;> norm_num [triple, H, p]⟩
  have hH' : (triple H).ProjEq q := ⟨4, four_ne_zero, by ext <;> norm_num [triple, H, q]⟩
  have hT : (triple T).ProjEq r := .refl r
  have hp := Equation.residual_eq_zero_of_projEq hH (residual_triple H)
  have hq := Equation.residual_eq_zero_of_projEq hH' (residual_triple H)
  have hr := Equation.residual_eq_zero_of_projEq hT (residual_triple T)
  have hpq : p.Resolved q := .inl (hH.symm.trans hH')
  have hqr : q.Resolved r := .of_one_le_cross (by norm_num [normSq_eq, cross_eq, q, r])
    (by norm_num [normSq_eq, q, r])
  have hdouble : H + H = T := by
    ext <;> norm_num [AffinePoint.add_x, AffinePoint.add_y, AffinePoint.mixed_eq, H, T]
  have hturn : H + T = H.turn := by
    ext <;> norm_num [AffinePoint.add_x, AffinePoint.add_y, AffinePoint.mixed_eq, H, T]
  have hleft := computesSum.projEq hH hH' hpq
  rw [hdouble] at hleft
  have hright := computesSum.projEq hH' hT hqr
  rw [hturn] at hright
  have hpq_r : (add p q).Resolved r := .inl hleft.symm
  have hp_qr : p.Resolved (add q r) := (Resolved.of_one_le_cross (q := triple H.turn)
    (by norm_num [normSq_eq, cross_eq, triple, p, H])
    (by norm_num [normSq_eq, triple, p, H])).congr_right hright
  have hpo : p.Resolved ⟨0, 1, 1⟩ := .of_one_le_cross (by norm_num [normSq_eq, cross_eq, p])
    (by norm_num [normSq_eq, p])
  have hpp : p.Resolved p.mirrorX := .of_one_le_cross
    (by norm_num [normSq_eq, cross_eq, mirrorX, p]) (by norm_num [normSq_eq, mirrorX, p])
  obtain ⟨⟨hplus, hminus⟩, hunified, hcurve, hcomm, hassoc, hzero, hneg⟩ :=
    add_complete hd hpz hqz hrz hp hq hr
  obtain ⟨hsum, hpos⟩ := hcurve hpq
  exact ⟨hd, hpz, hqz, hrz, hp, hq, hr, hpq, hqr, hpq_r, hp_qr, hpo, hpp, hplus, hminus, hunified,
    hsum, hpos, hcomm hpq, hassoc hpq hqr hpq_r hp_qr, hzero hpo, hneg hpp⟩

end EllipticPlot.Edwards
