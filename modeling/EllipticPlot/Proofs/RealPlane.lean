import EllipticPlot.Equation
import EllipticPlot.Scalar.Real
import Mathlib.Tactic.FieldSimp
import Mathlib.Tactic.LinearCombination
import Mathlib.Tactic.Positivity

/-!
# The projective plane over the real numbers

Triples of real numbers, the points that they denote, and the equations at them. The rest of the
exact theory reaches the operations on triples through the formulas stated here, which are free of
scalar literals.
-/

namespace EllipticPlot

attribute [ext] Point

namespace Point

/-! ### Coordinates -/

section Coordinates

variable {α : Type} [Scalar α]

@[simp] theorem scale_x (s : α) (p : Point α) : (p.scale s).x = p.x * s := rfl

@[simp] theorem scale_y (s : α) (p : Point α) : (p.scale s).y = p.y * s := rfl

@[simp] theorem scale_z (s : α) (p : Point α) : (p.scale s).z = p.z * s := rfl

@[simp] theorem mirrorY_x (p : Point α) : p.mirrorY.x = p.x := rfl

@[simp] theorem mirrorY_y (p : Point α) : p.mirrorY.y = -p.y := rfl

@[simp] theorem mirrorY_z (p : Point α) : p.mirrorY.z = p.z := rfl

end Coordinates

variable {p q r : Point ℝ} {s : ℝ}

theorem zero_eq : (zero : Point ℝ) = ⟨0, 0, 0⟩ := by
  norm_num [zero]

theorem eq_zero_iff : p = zero ↔ p.x = 0 ∧ p.y = 0 ∧ p.z = 0 := by
  rw [zero_eq, Point.ext_iff]

theorem beq_iff : (p == q) = true ↔ p = q := by
  rw [Point.ext_iff]
  change (p.x == q.x && p.y == q.y && p.z == q.z) = true ↔ _
  simp [and_assoc]

theorem dot_eq : p.dot q = p.x * q.x + p.y * q.y + p.z * q.z := rfl

theorem dot_comm : p.dot q = q.dot p := by
  simp only [dot_eq]
  ring

theorem dot_scale_right : p.dot (q.scale s) = s * p.dot q := by
  simp only [dot_eq, scale_x, scale_y, scale_z]
  ring

theorem cross_eq : p.cross q =
    ⟨p.y * q.z - q.y * p.z, p.z * q.x - q.z * p.x, p.x * q.y - q.x * p.y⟩ := rfl

theorem move_eq (p q : Point ℝ) (s : ℝ) :
    p.move s q = ⟨p.x + q.x * s, p.y + q.y * s, p.z + q.z * s⟩ := rfl

theorem move_zero : p.move 0 q = p := by
  rw [move_eq]
  ext <;> simp

theorem move_move {t : ℝ} : (p.move s q).move t q = p.move (s + t) q := by
  simp only [move_eq]
  ext <;> dsimp only <;> ring

theorem move_scale {t : ℝ} : p.move t (q.scale s) = p.move (t * s) q := by
  simp only [move_eq, scale_x, scale_y, scale_z]
  ext <;> dsimp only <;> ring

theorem sub_scale : p - q.scale s = p.move (-s) q := by
  rw [move_eq]
  ext
  · exact (sub_eq_add_neg _ _).trans (by rw [scale_x]; ring)
  · exact (sub_eq_add_neg _ _).trans (by rw [scale_y]; ring)
  · exact (sub_eq_add_neg _ _).trans (by rw [scale_z]; ring)

theorem neg_eq_scale : -p = p.scale (-1) := by
  ext
  · exact (mul_neg_one p.x).symm
  · exact (mul_neg_one p.y).symm
  · exact (mul_neg_one p.z).symm

/-! ### Length -/

theorem normSq_eq : p.normSq = p.x ^ 2 + p.y ^ 2 + p.z ^ 2 := by
  rw [normSq, dot_eq]
  ring

theorem normSq_nonneg (p : Point ℝ) : 0 ≤ p.normSq := by
  rw [normSq_eq]
  positivity

theorem normSq_eq_zero : p.normSq = 0 ↔ p = zero := by
  rw [normSq_eq, eq_zero_iff]
  constructor
  · intro h
    have hx := sq_nonneg p.x
    have hy := sq_nonneg p.y
    have hz := sq_nonneg p.z
    exact ⟨pow_eq_zero_iff two_ne_zero |>.1 (by linarith), pow_eq_zero_iff two_ne_zero |>.1
      (by linarith), pow_eq_zero_iff two_ne_zero |>.1 (by linarith)⟩
  · rintro ⟨hx, hy, hz⟩
    rw [hx, hy, hz]
    ring

theorem normSq_pos (hp : p ≠ zero) : 0 < p.normSq :=
  lt_of_le_of_ne p.normSq_nonneg fun h => hp (normSq_eq_zero.1 h.symm)

theorem norm_eq : p.norm = √p.normSq := rfl

theorem sq_norm (p : Point ℝ) : p.norm ^ 2 = p.normSq := Real.sq_sqrt p.normSq_nonneg

theorem norm_le_iff : p.norm ≤ q.norm ↔ p.normSq ≤ q.normSq :=
  Real.sqrt_le_sqrt_iff q.normSq_nonneg

theorem norm_eq_one_iff : p.norm = 1 ↔ p.normSq = 1 := Real.sqrt_eq_one

theorem norm_lt_one_iff : p.norm < 1 ↔ p.normSq < 1 := by
  rw [norm_eq, Real.sqrt_lt' one_pos, one_pow]

theorem norm_pos (hp : p ≠ zero) : 0 < p.norm := Real.sqrt_pos.2 (normSq_pos hp)

theorem normSq_scale : (p.scale s).normSq = s ^ 2 * p.normSq := by
  simp only [normSq_eq, scale_x, scale_y, scale_z]
  ring

theorem norm_scale : (p.scale s).norm = |s| * p.norm := by
  rw [norm_eq, norm_eq, normSq_scale, Real.sqrt_mul (sq_nonneg s), Real.sqrt_sq_eq_abs]

/-- Lagrange's identity. -/
theorem normSq_cross : (p.cross q).normSq = p.normSq * q.normSq - p.dot q ^ 2 := by
  simp only [normSq_eq, cross_eq, dot_eq]
  ring

/-- The Cauchy-Schwarz inequality. -/
theorem dot_sq_le : p.dot q ^ 2 ≤ p.normSq * q.normSq := by
  have h := (p.cross q).normSq_nonneg
  rw [normSq_cross] at h
  linarith

theorem dot_move : (p.move s q).dot q = p.dot q + s * q.normSq := by
  simp only [dot_eq, move_eq, normSq_eq]
  ring

theorem normSq_move :
    (p.move s q).normSq = p.normSq + 2 * s * q.dot p + s ^ 2 * q.normSq := by
  simp only [normSq_eq, move_eq, dot_eq]
  ring

theorem ne_zero_of_norm_eq_one (h : p.norm = 1) : p ≠ zero := by
  rintro rfl
  rw [norm_eq, normSq_eq_zero.2 rfl, Real.sqrt_zero] at h
  exact zero_ne_one h

/-! ### Unit representatives -/

theorem normalize_eq (hp : p ≠ zero) : p.normalize = p.scale p.norm⁻¹ := by
  have h := norm_pos hp
  norm_num [normalize, h]

theorem norm_normalize (hp : p ≠ zero) : p.normalize.norm = 1 := by
  have h := norm_pos hp
  rw [normalize_eq hp, norm_scale, abs_of_pos (inv_pos.2 h), inv_mul_cancel₀ h.ne']

theorem unit?_eq (hp : p ≠ zero) : p.unit? = some p.normalize := by
  have h := norm_pos hp
  have hquotient : Scalar.quotient? (1.0 : ℝ) p.norm = some p.norm⁻¹ := by
    norm_num [Scalar.quotient?, h.ne']
  rw [unit?, hquotient, normalize_eq hp]
  norm_num [h]

theorem unit?_zero : (zero : Point ℝ).unit? = none := by
  have h : (zero : Point ℝ).norm = 0 := by
    rw [norm_eq, normSq_eq_zero.2 rfl, Real.sqrt_zero]
  rw [unit?, h]
  norm_num [Scalar.quotient?]

theorem proper?_eq (hp : p ≠ zero) : p.proper? = some p.normalize := by
  rw [proper?, if_pos (by rfl), unit?_eq hp]

theorem proper?_zero : (zero : Point ℝ).proper? = none := by
  rw [proper?, if_pos (by rfl), unit?_zero]

theorem ne_zero_of_proper? (h : p.proper? = some q) : p ≠ zero := by
  rintro rfl
  rw [proper?_zero] at h
  exact nomatch h

/-! ### Projective points -/

/-- Two triples are nonzero multiples of each other: they denote the same projective point. -/
def ProjEq (p q : Point ℝ) : Prop := ∃ k : ℝ, k ≠ 0 ∧ q = p.scale k

theorem ProjEq.refl (p : Point ℝ) : p.ProjEq p := by
  refine ⟨1, one_ne_zero, ?_⟩
  ext <;> simp

theorem ProjEq.scale (hs : s ≠ 0) : p.ProjEq (p.scale s) := ⟨s, hs, rfl⟩

theorem ProjEq.symm (h : p.ProjEq q) : q.ProjEq p := by
  obtain ⟨k, hk, rfl⟩ := h
  refine ⟨k⁻¹, inv_ne_zero hk, ?_⟩
  ext <;> simp [hk]

theorem ProjEq.trans (hpq : p.ProjEq q) (hqr : q.ProjEq r) : p.ProjEq r := by
  obtain ⟨k, hk, rfl⟩ := hpq
  obtain ⟨l, hl, rfl⟩ := hqr
  refine ⟨k * l, mul_ne_zero hk hl, ?_⟩
  ext <;> simp [mul_assoc]

theorem ProjEq.ne_zero (h : p.ProjEq q) (hp : p ≠ zero) : q ≠ zero := by
  obtain ⟨k, hk, rfl⟩ := h
  simpa [eq_zero_iff, hk] using hp

theorem ProjEq.z_eq_zero (h : p.ProjEq q) (hp : p.z = 0) : q.z = 0 := by
  obtain ⟨k, -, rfl⟩ := h
  rw [scale_z, hp, zero_mul]

theorem ProjEq.mirrorY (h : p.ProjEq q) : p.mirrorY.ProjEq q.mirrorY := by
  obtain ⟨k, hk, rfl⟩ := h
  refine ⟨k, hk, ?_⟩
  ext <;> simp

theorem ProjEq.mirrorX (h : p.ProjEq q) : p.mirrorX.ProjEq q.mirrorX := by
  obtain ⟨k, hk, rfl⟩ := h
  refine ⟨k, hk, ?_⟩
  ext <;> simp [Point.mirrorX]

theorem projEq_normalize (hp : p ≠ zero) : p.ProjEq p.normalize := by
  rw [normalize_eq hp]
  exact .scale (inv_ne_zero (norm_pos hp).ne')

theorem proper?_spec (h : p.proper? = some q) : q.norm = 1 ∧ p.ProjEq q := by
  have hp := ne_zero_of_proper? h
  rw [proper?_eq hp] at h
  obtain rfl := Option.some.inj h
  exact ⟨norm_normalize hp, projEq_normalize hp⟩

theorem mirrorY_mirrorY (p : Point ℝ) : p.mirrorY.mirrorY = p := by
  ext <;> simp

theorem mirrorY_ne_zero (hp : p ≠ zero) : p.mirrorY ≠ zero := by
  simpa [eq_zero_iff] using hp

/-- Away from infinity the upper representative lies strictly above the plane `z = 0`. -/
theorem upper_spec (hz : p.z ≠ 0) :
    p.upper.norm = p.norm ∧ 0 < p.upper.z ∧ p.ProjEq p.upper := by
  rw [upper]
  split
  · next h =>
    norm_num at h
    rw [neg_eq_scale]
    refine ⟨by rw [norm_scale]; norm_num, ?_, .scale (by norm_num)⟩
    rw [scale_z]
    linarith
  · next h =>
    norm_num at h
    exact ⟨rfl, lt_of_le_of_ne h hz.symm, .refl p⟩

theorem norm_upper (p : Point ℝ) : p.upper.norm = p.norm ∧ 0 ≤ p.upper.z := by
  by_cases hz : p.z = 0
  · rw [upper, if_neg (by rw [hz]; norm_num), hz]
    exact ⟨rfl, le_rfl⟩
  · obtain ⟨hnorm, hpos, -⟩ := upper_spec hz
    exact ⟨hnorm, hpos.le⟩

/-- Triples denote the same point exactly if their cross product vanishes. -/
theorem projEq_iff_cross (hp : p ≠ zero) (hq : q ≠ zero) : p.ProjEq q ↔ p.cross q = zero := by
  constructor
  · rintro ⟨k, -, rfl⟩
    rw [eq_zero_iff, cross_eq]
    simp only [scale_x, scale_y, scale_z]
    exact ⟨by ring, by ring, by ring⟩
  · intro h
    obtain ⟨hx, hy, hz⟩ := eq_zero_iff.1 h
    simp only [cross_eq] at hx hy hz
    have hpos := normSq_pos hp
    -- `q` is its own projection onto the direction of `p`
    have hq' : q = p.scale (p.dot q / p.normSq) := by
      have hsq := normSq_eq (p := p)
      have hdot := dot_eq (p := p) (q := q)
      ext
      · rw [scale_x, ← mul_div_assoc, eq_div_iff hpos.ne', hsq, hdot]
        linear_combination p.z * hy - p.y * hz
      · rw [scale_y, ← mul_div_assoc, eq_div_iff hpos.ne', hsq, hdot]
        linear_combination p.x * hz - p.z * hx
      · rw [scale_z, ← mul_div_assoc, eq_div_iff hpos.ne', hsq, hdot]
        linear_combination p.y * hx - p.x * hy
    refine ⟨p.dot q / p.normSq, fun hk => hq ?_, hq'⟩
    rw [hq', hk, eq_zero_iff]
    simp

/-! ### Telling points apart -/

/-- Two triples denote the same point, or two points beyond the angle under which points count as
the same. -/
def Resolved (p q : Point ℝ) : Prop :=
  p.ProjEq q ∨ sameAngleSq * p.normSq * q.normSq < (p.cross q).normSq

theorem Resolved.of_one_le_cross (hcross : 1 ≤ (p.cross q).normSq)
    (hnorm : p.normSq * q.normSq < 1e24) : p.Resolved q := by
  right
  refine lt_of_lt_of_le ?_ hcross
  norm_num [sameAngleSq, mul_assoc] at hnorm ⊢
  linarith

theorem Resolved.symm (h : p.Resolved q) : q.Resolved p := by
  rcases h with h | h
  · exact .inl h.symm
  · right
    rw [normSq_cross] at h ⊢
    rw [dot_comm]
    linarith

theorem Resolved.congr_right (h : p.Resolved q) (hq : q.ProjEq r) : p.Resolved r := by
  rcases h with h | h
  · exact .inl (h.trans hq)
  · right
    obtain ⟨k, hk, rfl⟩ := hq
    rw [normSq_cross] at h ⊢
    rw [normSq_scale, dot_scale_right]
    have hpos : 0 < k ^ 2 := by positivity
    linarith [mul_lt_mul_of_pos_left h hpos]

/-- Whether two triples are resolved depends on the points that they denote. -/
theorem Resolved.congr {p' q' : Point ℝ} (h : p.Resolved q) (hp : p.ProjEq p')
    (hq : q.ProjEq q') : p'.Resolved q' :=
  ((h.congr_right hq).symm.congr_right hp).symm

theorem same_iff (hp : p ≠ zero) (hq : q ≠ zero) (h : p.Resolved q) :
    p.same q = true ↔ p.ProjEq q := by
  have hsame : p.same q = true ↔
      p = q ∨ (p.cross q).normSq ≤ sameAngleSq * p.normSq * q.normSq := by
    rw [same, Bool.or_eq_true, beq_iff, decide_eq_true_iff]
  rw [hsame]
  constructor
  · rintro (rfl | hle)
    · exact .refl p
    · exact h.resolve_right (not_lt.2 hle)
  · intro hpq
    right
    rw [(projEq_iff_cross hp hq).1 hpq, normSq_eq_zero.2 rfl]
    have hangle : (0 : ℝ) ≤ sameAngleSq := by norm_num [sameAngleSq]
    exact mul_nonneg (mul_nonneg hangle p.normSq_nonneg) q.normSq_nonneg

end Point

/-! ### Equations -/

namespace Equation

variable {a b d s : ℝ} {p q : Point ℝ}

theorem residual_weierstrass : (weierstrass a b).residual p =
    p.x ^ 3 + a * p.x * p.z ^ 2 + b * p.z ^ 3 - p.z * p.y ^ 2 := by
  simp only [residual, Scalar.sq, Scalar.cube]
  ring

theorem residual_edwards : (edwards d).residual p =
    (p.x ^ 2 + p.y ^ 2) * p.z ^ 2 - p.z ^ 4 - d * p.x ^ 2 * p.y ^ 2 := by
  simp only [residual, Scalar.sq]
  ring

theorem gradient_weierstrass : (weierstrass a b).gradient p =
    ⟨3 * p.x ^ 2 + a * p.z ^ 2, -2 * p.y * p.z,
      2 * a * p.x * p.z + 3 * b * p.z ^ 2 - p.y ^ 2⟩ := by
  simp only [gradient, Scalar.sq]
  norm_num
  exact ⟨by ring, by ring⟩

theorem gradient_edwards : (edwards d).gradient p =
    ⟨2 * p.x * p.z ^ 2 - 2 * d * p.x * p.y ^ 2, 2 * p.y * p.z ^ 2 - 2 * d * p.x ^ 2 * p.y,
      2 * (p.x ^ 2 + p.y ^ 2) * p.z - 4 * p.z ^ 3⟩ := by
  simp only [gradient, Scalar.sq, Scalar.cube]
  norm_num
  exact ⟨by ring, by ring, by ring⟩

/-- The degree of an equation as a homogeneous polynomial. -/
def degree : Equation ℝ → ℕ
  | weierstrass _ _ => 3
  | edwards _ => 4

theorem residual_scale (equation : Equation ℝ) :
    equation.residual (p.scale s) = s ^ equation.degree * equation.residual p := by
  cases equation
  · simp only [residual_weierstrass, degree, Point.scale_x, Point.scale_y, Point.scale_z]
    ring
  · simp only [residual_edwards, degree, Point.scale_x, Point.scale_y, Point.scale_z]
    ring

/-- Euler's identity. -/
theorem gradient_dot_self (equation : Equation ℝ) :
    (equation.gradient p).dot p = equation.degree * equation.residual p := by
  cases equation
  · rw [gradient_weierstrass, residual_weierstrass, Point.dot_eq, degree]
    push_cast
    ring
  · rw [gradient_edwards, residual_edwards, Point.dot_eq, degree]
    push_cast
    ring

/-- The part of a gradient across its point, by the identities of Lagrange and Euler. -/
theorem normSq_cross_gradient (equation : Equation ℝ) (p : Point ℝ) :
    (p.cross (equation.gradient p)).normSq = p.normSq * (equation.gradient p).normSq -
      (equation.degree * equation.residual p) ^ 2 := by
  rw [Point.normSq_cross, Point.dot_comm, gradient_dot_self]

/-- Lying on a curve is a property of the projective point. -/
theorem residual_eq_zero_of_projEq {equation : Equation ℝ} (h : p.ProjEq q)
    (hp : equation.residual p = 0) : equation.residual q = 0 := by
  obtain ⟨k, -, rfl⟩ := h
  rw [residual_scale, hp, mul_zero]

theorem residual_mirrorY (equation : Equation ℝ) :
    equation.residual p.mirrorY = equation.residual p := by
  cases equation
  · simp [residual_weierstrass]
  · simp [residual_edwards]

end Equation

end EllipticPlot
