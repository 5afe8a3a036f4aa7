import EllipticPlot.Arc
import EllipticPlot.Proofs.RealPlane
import Mathlib.Analysis.SpecialFunctions.Trigonometric.Bounds

/-!
# Great circles

The arc between two points of the sphere, in exact arithmetic. Its vertices are the first point
turned about the normal of the plane of both: turns about one axis add up, so that all segments are
alike, and the whole angle takes the first point to the direction of the second.
-/

namespace EllipticPlot

open Real (cos sin arccos)

namespace Point

variable {p q k v : Point ℝ} {s t : ℝ}

/-! ### Turning in a plane -/

/-- `v` turned within the plane that has the unit normal `k`. -/
noncomputable def swing (k : Point ℝ) (t : ℝ) (v : Point ℝ) : Point ℝ :=
  (v.scale (cos t)).move (sin t) (k.cross v)

/-- `v` turned about the axis by an angle: Rodrigues' formula. -/
noncomputable def turn (axis : Point ℝ) (angle : ℝ) (v : Point ℝ) : Point ℝ :=
  let k := axis.normalize
  (k.swing angle v).move ((1 - cos angle) * k.dot v) k

theorem swing_zero : swing k 0 v = v := by
  rw [swing, Real.cos_zero, Real.sin_zero, move_eq]
  ext <;> simp

/-- In the plane normal to its axis a turn is a swing. -/
theorem turn_eq_swing (h : p.normalize.dot v = 0) : turn p t v = swing p.normalize t v := by
  rw [turn, h, mul_zero, move_eq]
  ext <;> simp

theorem cross_dot_scale (c : ℝ) : (k.cross v).dot (v.scale c) = 0 := by
  rw [dot_eq, cross_eq]
  simp only [scale_x, scale_y, scale_z]
  ring

section

variable (hk : k.normSq = 1) (hv : k.dot v = 0)

include hv

theorem dot_swing : k.dot (swing k t v) = 0 := by
  rw [dot_eq] at hv ⊢
  simp only [swing, move_eq, cross_eq, scale_x, scale_y, scale_z]
  linear_combination cos t * hv

include hk

theorem swing_swing : swing k s (swing k t v) = swing k (s + t) v := by
  rw [normSq_eq] at hk
  rw [dot_eq] at hv
  simp only [swing, move_eq, cross_eq, scale_x, scale_y, scale_z, Real.cos_add, Real.sin_add]
  ext
  · dsimp only
    linear_combination sin s * sin t * (k.x * hv - v.x * hk)
  · dsimp only
    linear_combination sin s * sin t * (k.y * hv - v.y * hk)
  · dsimp only
    linear_combination sin s * sin t * (k.z * hv - v.z * hk)

theorem normSq_swing : (swing k t v).normSq = v.normSq := by
  rw [swing, normSq_move, cross_dot_scale, normSq_scale, normSq_cross, hk, hv]
  linear_combination v.normSq * Real.cos_sq_add_sin_sq t

theorem norm_swing : (swing k t v).norm = v.norm := by
  rw [norm_eq, normSq_swing hk hv, norm_eq]

/-- A chord is no longer than its arc. -/
theorem norm_swing_sub_le (ht : 0 ≤ t) : (swing k t v - v).norm ≤ v.norm * t := by
  have hsub : swing k t v - v = (v.scale (cos t - 1)).move (sin t) (k.cross v) := by
    ext
    · change v.x * cos t + (k.cross v).x * sin t - v.x = v.x * (cos t - 1) + (k.cross v).x * sin t
      ring
    · change v.y * cos t + (k.cross v).y * sin t - v.y = v.y * (cos t - 1) + (k.cross v).y * sin t
      ring
    · change v.z * cos t + (k.cross v).z * sin t - v.z = v.z * (cos t - 1) + (k.cross v).z * sin t
      ring
  have hchord : (swing k t v - v).normSq = 2 * (1 - cos t) * v.normSq := by
    rw [hsub, normSq_move, cross_dot_scale, normSq_scale, normSq_cross, hk, hv]
    linear_combination v.normSq * Real.cos_sq_add_sin_sq t
  have hcos : 2 * (1 - cos t) ≤ t ^ 2 := by
    linarith [Real.one_sub_sq_div_two_le_cos (x := t)]
  have harc : v.norm * t = (v.scale t).norm := by rw [norm_scale, abs_of_nonneg ht, mul_comm]
  rw [harc, norm_le_iff, hchord, normSq_scale]
  exact mul_le_mul_of_nonneg_right hcos v.normSq_nonneg

end

/-! ### The angle between two directions -/

noncomputable def angle (p q : Point ℝ) : ℝ := arccos (p.dot q / (p.norm * q.norm))

section

variable (h : p.cross q ≠ zero)

include h

theorem ne_zero_of_cross : p ≠ zero ∧ q ≠ zero := by
  constructor <;> rintro rfl <;> exact h (by simp [zero_eq, cross_eq])

theorem norm_mul_norm_pos : 0 < p.norm * q.norm := by
  obtain ⟨hp, hq⟩ := ne_zero_of_cross h
  exact mul_pos (norm_pos hp) (norm_pos hq)

theorem sq_cosine_add : (p.dot q / (p.norm * q.norm)) ^ 2 +
    ((p.cross q).norm / (p.norm * q.norm)) ^ 2 = 1 := by
  have hpos := norm_mul_norm_pos h
  rw [div_pow, div_pow, ← add_div, sq_norm, normSq_cross, mul_pow, sq_norm, sq_norm,
    add_sub_cancel, ← sq_norm, ← sq_norm, ← mul_pow]
  exact div_self (pow_ne_zero 2 hpos.ne')

theorem abs_cosine_lt_one : |p.dot q / (p.norm * q.norm)| < 1 := by
  have hsine : 0 < ((p.cross q).norm / (p.norm * q.norm)) ^ 2 :=
    pow_pos (div_pos (norm_pos h) (norm_mul_norm_pos h)) 2
  rw [← sq_lt_one_iff_abs_lt_one, ← sq_cosine_add h]
  exact lt_add_of_pos_right _ hsine

theorem angle_pos : 0 < p.angle q := Real.arccos_pos.2 (abs_lt.1 (abs_cosine_lt_one h)).2

theorem angle_lt_pi : p.angle q < Real.pi := Real.arccos_lt_pi.2 (abs_lt.1 (abs_cosine_lt_one h)).1

theorem cos_angle : cos (p.angle q) = p.dot q / (p.norm * q.norm) :=
  have hcosine := abs_lt.1 (abs_cosine_lt_one h)
  Real.cos_arccos hcosine.1.le hcosine.2.le

theorem sin_angle : sin (p.angle q) = (p.cross q).norm / (p.norm * q.norm) := by
  rw [angle, Real.sin_arccos, ← sq_cosine_add h, add_sub_cancel_left]
  exact Real.sqrt_sq (div_pos (norm_pos h) (norm_mul_norm_pos h)).le

/-- The angle is measured by the lengths of the two products. -/
theorem atan2_eq_angle : Scalar.atan2 (p.cross q).norm (p.dot q) = p.angle q := by
  change Complex.arg ⟨p.dot q, (p.cross q).norm⟩ = _
  have hlength : ‖(⟨p.dot q, (p.cross q).norm⟩ : ℂ)‖ = p.norm * q.norm := by
    rw [Complex.norm_eq_sqrt_sq_add_sq, sq_norm, normSq_cross, add_sub_cancel,
      ← sq_norm, ← sq_norm, ← mul_pow, Real.sqrt_sq (norm_mul_norm_pos h).le]
  rw [Complex.arg_of_im_nonneg_of_ne_zero (norm_pos h).le, hlength]
  · rfl
  · intro hzero
    exact (norm_pos h).ne' (congrArg Complex.im hzero)

/-! ### From one point to the other -/

theorem normSq_normalize_cross : (p.cross q).normalize.normSq = 1 :=
  norm_eq_one_iff.1 (norm_normalize h)

theorem normalize_cross_dot : (p.cross q).normalize.dot p = 0 := by
  rw [dot_comm, normalize_eq h, dot_scale_right, dot_eq, cross_eq]
  ring

/-- The whole angle takes the first point to the direction of the second. -/
theorem swing_angle :
    swing (p.cross q).normalize (p.angle q) p = q.normalize.scale p.norm := by
  obtain ⟨hp, hq⟩ := ne_zero_of_cross h
  have hcross := (norm_pos h).ne'
  have hpNorm := (norm_pos hp).ne'
  have hqNorm := (norm_pos hq).ne'
  have hsq : p.norm ^ 2 = p.x ^ 2 + p.y ^ 2 + p.z ^ 2 := by rw [sq_norm, normSq_eq]
  rw [swing, cos_angle h, sin_angle h, normalize_eq h, normalize_eq hq, dot_eq]
  generalize (p.cross q).norm = crossNorm at hcross
  simp only [move_eq, cross_eq, scale_x, scale_y, scale_z]
  ext
  · rw [scale_x, scale_x]
    field_simp
    linear_combination -q.x * hsq
  · rw [scale_y, scale_y]
    field_simp
    linear_combination -q.y * hsq
  · rw [scale_z, scale_z]
    field_simp
    linear_combination -q.z * hsq

/-- What is reached by turning lies in the plane of both points. -/
theorem exists_swing_eq (t : ℝ) :
    ∃ a b, swing (p.cross q).normalize t p = p.scale a + q.scale b := by
  refine ⟨cos t - sin t * p.dot q * (p.cross q).norm⁻¹,
    sin t * p.normSq * (p.cross q).norm⁻¹, ?_⟩
  rw [swing, normalize_eq h]
  generalize (p.cross q).norm⁻¹ = r
  change _ = (p.scale (cos t - sin t * p.dot q * r)).move (sin t * p.normSq * r) q
  simp only [move_eq, cross_eq, scale_x, scale_y, scale_z, dot_eq, normSq_eq]
  ext
  all_goals
    dsimp only
    ring

end

end Point

/-! ### Arcs -/

namespace Arc

open Point

variable {p q : Point ℝ} {step : ℝ}

/-- The count is the least for which no segment is longer than the step. -/
theorem isLeast_segmentCount {length : ℝ} (hstep : 0 < step) :
    IsLeast {n : ℕ | 0 < n ∧ length / n ≤ step} (segmentCount length step) := by
  have hle : ∀ n : ℕ, 0 < n → (length / n ≤ step ↔ ⌈length / step⌉₊ ≤ n) := by
    intro n hn
    have hpos : (0 : ℝ) < n := Nat.cast_pos.2 hn
    rw [Nat.ceil_le, div_le_iff₀ hpos, div_le_iff₀ hstep, mul_comm]
  have hcount : segmentCount length step = max 1 ⌈length / step⌉₊ := rfl
  have hpos : 0 < segmentCount length step := by
    rw [hcount]
    exact le_max_left 1 _
  refine ⟨⟨hpos, (hle _ hpos).2 ?_⟩, ?_⟩
  · rw [hcount]
    exact le_max_right 1 _
  · rintro n ⟨hn, hshort⟩
    rw [hcount]
    exact max_le hn ((hle n hn).1 hshort)

/-- The vertex after `i` of `n` segments: the first point turned by `i` parts of the angle. -/
noncomputable def vertex (p q : Point ℝ) (n i : ℕ) : Point ℝ :=
  swing (p.cross q).normalize (p.angle q * i / n) p

noncomputable def vertices (p q : Point ℝ) (n : ℕ) : List (Point ℝ) :=
  (List.range (n + 1)).map (vertex p q n)

theorem cross_ne_zero (h : 1e-8 ≤ (p.cross q).norm) : p.cross q ≠ zero := by
  intro hzero
  rw [hzero, norm_eq, normSq_eq_zero.2 rfl, Real.sqrt_zero] at h
  norm_num at h

theorem greatCircleArc?_eq (h : 1e-8 ≤ (p.cross q).norm) (hstep : 0 < step) :
    greatCircleArc? p q step = some (vertices p q (segmentCount (p.angle q * p.norm) step)) := by
  have hcross := cross_ne_zero h
  have hnormal : (p.cross q).divide (p.cross q).norm = (p.cross q).normalize := by
    rw [normalize_eq hcross]
    rfl
  have hguard : ¬ (decide ((p.cross q).norm < leastPlaneNormal) || !decide ((0.0 : ℝ) < step)) =
      true := by
    have hzero : (0.0 : ℝ) < step := by norm_num [hstep]
    simp [leastPlaneNormal, h.not_gt, hzero]
  rw [greatCircleArc?]
  dsimp only
  rw [if_neg hguard, hnormal, atan2_eq_angle hcross]
  rfl

/-- The vertices lead from `p` along the great circle to the direction of `q`, in `n` segments. -/
structure Even (p q : Point ℝ) (step : ℝ) (n : ℕ) (vertices : List (Point ℝ)) : Prop where
  angle : 0 < p.angle q ∧ p.angle q < Real.pi
  length : vertices.length = n + 1
  first : vertices.head? = some p
  last : vertices.getLast? = some (q.normalize.scale p.norm)
  radius : ∀ v ∈ vertices, v.norm = p.norm
  plane : ∀ v ∈ vertices, ∃ a b, v = p.scale a + q.scale b
  /-- Each vertex is the one before it, turned towards `q` by the same part of the angle. -/
  turned : ∀ (i : ℕ) (v w : Point ℝ), vertices[i]? = some v → vertices[i + 1]? = some w →
    w = turn (p.cross q) (p.angle q / n) v ∧ (w - v).norm ≤ step
  /-- There are as few segments as the step admits. -/
  segments : IsLeast {n : ℕ | 0 < n ∧ p.norm * p.angle q / n ≤ step} n

theorem getElem?_vertices {n i : ℕ} {v : Point ℝ} (h : (vertices p q n)[i]? = some v) :
    v = vertex p q n i := by
  rw [vertices, List.getElem?_map] at h
  obtain ⟨j, hj, rfl⟩ := Option.map_eq_some_iff.1 h
  rw [List.getElem?_eq_some_iff] at hj
  obtain ⟨hlt, hj⟩ := hj
  rw [List.getElem_range] at hj
  rw [hj]

/-- The vertices of as few segments as the step admits are spread evenly. -/
theorem even_vertices (hcross : p.cross q ≠ zero) {n : ℕ}
    (hleast : IsLeast {n : ℕ | 0 < n ∧ p.norm * p.angle q / n ≤ step} n) :
    Even p q step n (vertices p q n) := by
  have hk := normSq_normalize_cross hcross
  have hv := normalize_cross_dot hcross
  obtain ⟨hn, hshort⟩ := hleast.1
  have hnReal : (n : ℝ) ≠ 0 := Nat.cast_ne_zero.2 hn.ne'
  have hangle := angle_pos hcross
  refine ⟨⟨hangle, angle_lt_pi hcross⟩, ?length, ?first, ?last, ?radius, ?plane, ?turned, hleast⟩
  case length => rw [vertices, List.length_map, List.length_range]
  case first =>
    rw [vertices, List.range_succ_eq_map, List.map_cons, List.head?_cons, vertex, Nat.cast_zero,
      mul_zero, zero_div, swing_zero]
  case last =>
    rw [vertices, List.range_succ, List.map_append, List.map_singleton, List.getLast?_concat,
      vertex, mul_div_cancel_right₀ _ hnReal, swing_angle hcross]
  case radius =>
    intro v hmem
    obtain ⟨i, -, rfl⟩ := List.mem_map.1 hmem
    exact norm_swing hk hv
  case plane =>
    intro v hmem
    obtain ⟨i, -, rfl⟩ := List.mem_map.1 hmem
    exact exists_swing_eq hcross _
  case turned =>
    intro i v w hvertex hnext
    rw [getElem?_vertices hvertex, getElem?_vertices hnext]
    have hpart : p.angle q * (i + 1 : ℕ) / n = p.angle q / n + p.angle q * i / n := by
      push_cast
      ring
    have hdot : (p.cross q).normalize.dot (vertex p q n i) = 0 := dot_swing hv
    have hswing : vertex p q n (i + 1) =
        swing (p.cross q).normalize (p.angle q / n) (vertex p q n i) := by
      rw [vertex, vertex, swing_swing hk hv, hpart]
    refine ⟨hswing.trans (turn_eq_swing hdot).symm, ?_⟩
    rw [hswing]
    calc (swing (p.cross q).normalize (p.angle q / n) (vertex p q n i) - vertex p q n i).norm
        ≤ (vertex p q n i).norm * (p.angle q / n) :=
          norm_swing_sub_le hk hdot (div_nonneg hangle.le n.cast_nonneg)
      _ = p.norm * p.angle q / n := by rw [vertex, norm_swing hk hv, mul_div_assoc]
      _ ≤ step := hshort

/-- Two points that span a plane are joined by an arc of equal segments. -/
theorem greatCircleArc_even (h : 1e-8 ≤ (p.cross q).norm) (hstep : 0 < step) :
    ∃ n vertices, greatCircleArc? p q step = some vertices ∧ Even p q step n vertices := by
  refine ⟨_, _, greatCircleArc?_eq h hstep, even_vertices (cross_ne_zero h) ?_⟩
  rw [mul_comm]
  exact isLeast_segmentCount hstep

/-- An obtuse angle between points at different distances. -/
theorem greatCircleArc_even_obtuse :
    (1e-8 : ℝ) ≤ ((Point.mk 2 0 0).cross ⟨-3, 4, 0⟩).norm ∧ (0 : ℝ) < 1 ∧
      ∃ n vertices, greatCircleArc? (⟨2, 0, 0⟩ : Point ℝ) ⟨-3, 4, 0⟩ 1 = some vertices ∧
        Even ⟨2, 0, 0⟩ ⟨-3, 4, 0⟩ 1 n vertices := by
  have hnorm : ((Point.mk 2 0 0).cross ⟨-3, 4, 0⟩).norm = (8 : ℝ) := by
    rw [norm_eq, normSq_eq, cross_eq, Real.sqrt_eq_iff_mul_self_eq] <;> norm_num
  have hplane : (1e-8 : ℝ) ≤ ((Point.mk 2 0 0).cross ⟨-3, 4, 0⟩).norm := by
    rw [hnorm]
    norm_num
  exact ⟨hplane, one_pos, greatCircleArc_even hplane one_pos⟩

end Arc

end EllipticPlot
