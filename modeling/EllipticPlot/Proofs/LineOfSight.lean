import EllipticPlot.Picking
import EllipticPlot.Proofs.RealPlane

/-!
# Lines of sight

Where a line of sight meets the unit sphere, in exact arithmetic. Along the line the square of the
distance from the centre is a parabola in the time `t` of `origin + t · direction`. Its lowest point
`nearestTime` decides whether the sphere is missed, and the sphere is entered and left at equal
intervals before and after it.
-/

namespace EllipticPlot

namespace Sight

open Point

variable {origin direction : Point ℝ} {s t k : ℝ}

/-- The time at which the line is closest to the centre. -/
noncomputable def nearestTime (origin direction : Point ℝ) : ℝ :=
  -origin.dot direction / direction.normSq

/-- The point of the line that is closest to the centre. -/
noncomputable def foot (origin direction : Point ℝ) : Point ℝ :=
  origin.move (nearestTime origin direction) direction

/-- The time between the closest point and either intersection with the sphere. -/
noncomputable def halfSpan (origin direction : Point ℝ) : ℝ :=
  √(1 - (foot origin direction).normSq) / direction.norm

noncomputable def entry (origin direction : Point ℝ) : ℝ :=
  nearestTime origin direction - halfSpan origin direction

noncomputable def exit (origin direction : Point ℝ) : ℝ :=
  nearestTime origin direction + halfSpan origin direction

/-- The time of the intersection that is seen: the entry, unless that is in the lower half. -/
noncomputable def meeting (origin direction : Point ℝ) : ℝ :=
  if 0 ≤ (origin.move (entry origin direction) direction).z then entry origin direction
  else exit origin direction

section

variable (hd : direction ≠ zero)

include hd

/-- The parabola of the distances from the centre. -/
theorem normSq_move_eq : (origin.move t direction).normSq =
    (foot origin direction).normSq +
      (t - nearestTime origin direction) ^ 2 * direction.normSq := by
  have hpos := normSq_pos hd
  have htime : nearestTime origin direction * direction.normSq = -origin.dot direction :=
    div_mul_cancel₀ _ hpos.ne'
  rw [foot, normSq_move, normSq_move, dot_comm (p := direction)]
  linear_combination 2 * (t - nearestTime origin direction) * htime

/-- No other point of the line is as close. -/
theorem eq_foot_or_norm_lt (t : ℝ) : origin.move t direction = foot origin direction ∨
    (foot origin direction).norm < (origin.move t direction).norm := by
  obtain rfl | htime := eq_or_ne t (nearestTime origin direction)
  · exact .inl rfl
  · right
    rw [← not_le, norm_le_iff, normSq_move_eq hd, not_le]
    have hsq : 0 < (t - nearestTime origin direction) ^ 2 := sq_pos_of_ne_zero (sub_ne_zero.2 htime)
    exact lt_add_of_pos_right _ (mul_pos hsq (normSq_pos hd))

theorem norm_foot_le (t : ℝ) : (foot origin direction).norm ≤ (origin.move t direction).norm := by
  obtain h | h := eq_foot_or_norm_lt hd t
  · rw [h]
  · exact h.le

theorem forall_le_norm_iff {r : ℝ} :
    (∀ t, r ≤ (origin.move t direction).norm) ↔ r ≤ (foot origin direction).norm :=
  ⟨fun h => h _, fun h t => h.trans (norm_foot_le hd t)⟩

theorem exists_norm_lt_iff {r : ℝ} :
    (∃ t, (origin.move t direction).norm < r) ↔ (foot origin direction).norm < r :=
  ⟨fun ⟨t, ht⟩ => (norm_foot_le hd t).trans_lt ht, fun h => ⟨_, h⟩⟩

theorem entry_lt_exit (hnear : (foot origin direction).norm < 1) :
    entry origin direction < exit origin direction := by
  have hspan : 0 < halfSpan origin direction :=
    div_pos (Real.sqrt_pos.2 (sub_pos.2 (norm_lt_one_iff.1 hnear))) (norm_pos hd)
  rw [entry, exit]
  linarith

/-- The sphere is met at the entry and at the exit, and at no other time. -/
theorem norm_move_eq_one_iff (hnear : (foot origin direction).norm < 1) :
    (origin.move t direction).norm = 1 ↔
      t = entry origin direction ∨ t = exit origin direction := by
  have hpos := normSq_pos hd
  have hspan : halfSpan origin direction ^ 2 * direction.normSq =
      1 - (foot origin direction).normSq := by
    rw [halfSpan, div_pow, sq_norm, div_mul_cancel₀ _ hpos.ne']
    exact Real.sq_sqrt (sub_pos.2 (norm_lt_one_iff.1 hnear)).le
  have hsq : (origin.move t direction).norm = 1 ↔
      (t - nearestTime origin direction) ^ 2 = halfSpan origin direction ^ 2 := by
    rw [norm_eq_one_iff, normSq_move_eq hd, ← eq_sub_iff_add_eq', ← hspan, mul_left_inj' hpos.ne']
  rw [hsq, sq_eq_sq_iff_eq_or_eq_neg, or_comm, entry, exit]
  exact or_congr (by constructor <;> intro h <;> linarith) (by constructor <;> intro h <;> linarith)

/-! ### The computation -/

theorem spherePoint?_eq : spherePoint? origin direction =
    if 1.01 ≤ (foot origin direction).norm then none
    else if 1 ≤ (foot origin direction).norm then some (foot origin direction)
    else some (origin.move (meeting origin direction) direction) := by
  have hunit : ∀ c, (direction.scale direction.norm⁻¹).scale c =
      direction.scale (c / direction.norm) := by
    intro c
    ext <;> simp only [scale_x, scale_y, scale_z] <;> ring
  have hdot : origin.dot (direction.scale direction.norm⁻¹) / direction.norm =
      -nearestTime origin direction := by
    rw [dot_scale_right, nearestTime, ← sq_norm]
    ring
  have hfoot : origin - (direction.scale direction.norm⁻¹).scale
      (origin.dot (direction.scale direction.norm⁻¹)) = foot origin direction := by
    rw [hunit, hdot, sub_scale, neg_neg]
    rfl
  have hchord : Scalar.sqrt (1.0 - (foot origin direction).norm * (foot origin direction).norm) /
      direction.norm = halfSpan origin direction := by
    rw [halfSpan, ← sq_norm, pow_two]
    norm_num
    rfl
  have hentry : foot origin direction - direction.scale (halfSpan origin direction) =
      origin.move (entry origin direction) direction := by
    rw [sub_scale, foot, move_move]
    rfl
  have hexit : foot origin direction + direction.scale (halfSpan origin direction) =
      origin.move (exit origin direction) direction := move_move
  rw [spherePoint?, unit?_eq hd, normalize_eq hd]
  dsimp only
  rw [hfoot, hunit, hchord, hentry, hexit, pickRadius, meeting]
  rw [← apply_ite fun t => origin.move t direction]
  norm_num

end

theorem spherePoint?_zero : spherePoint? origin zero = none := by
  rw [spherePoint?, unit?_zero]

/-! ### Other descriptions of the same line -/

section

variable (hd : direction ≠ zero)

include hd

theorem nearestTime_move :
    nearestTime (origin.move s direction) direction = nearestTime origin direction - s := by
  rw [nearestTime, nearestTime, dot_move, neg_add, add_div, neg_mul_eq_neg_mul,
    mul_div_cancel_right₀ _ (normSq_pos hd).ne']
  ring

theorem foot_move : foot (origin.move s direction) direction = foot origin direction := by
  rw [foot, move_move, nearestTime_move hd, add_sub_cancel]
  rfl

theorem nearestTime_scale (hk : 0 < k) :
    nearestTime origin (direction.scale k) = nearestTime origin direction / k := by
  have hpos := normSq_pos hd
  rw [nearestTime, nearestTime, dot_scale_right, normSq_scale]
  field_simp

theorem foot_scale (hk : 0 < k) : foot origin (direction.scale k) = foot origin direction := by
  rw [foot, move_scale, nearestTime_scale hd hk, div_mul_cancel₀ _ hk.ne']
  rfl

/-- A line that starts elsewhere is met at the same point. -/
theorem spherePoint?_move :
    spherePoint? (origin.move s direction) direction = spherePoint? origin direction := by
  have hspan : halfSpan (origin.move s direction) direction = halfSpan origin direction := by
    rw [halfSpan, foot_move hd, halfSpan]
  have hentry : entry (origin.move s direction) direction = entry origin direction - s := by
    rw [entry, entry, hspan, nearestTime_move hd]
    ring
  have hexit : exit (origin.move s direction) direction = exit origin direction - s := by
    rw [exit, exit, hspan, nearestTime_move hd]
    ring
  rw [spherePoint?_eq hd, spherePoint?_eq hd, foot_move hd]
  simp only [meeting, apply_ite fun t => (origin.move s direction).move t direction,
    apply_ite fun t => origin.move t direction, move_move, hentry, hexit, add_sub_cancel]

/-- Only the sense of the direction matters, not its length. -/
theorem spherePoint?_scale (hk : 0 < k) :
    spherePoint? origin (direction.scale k) = spherePoint? origin direction := by
  have hspan : halfSpan origin (direction.scale k) = halfSpan origin direction / k := by
    rw [halfSpan, foot_scale hd hk, halfSpan, norm_scale, abs_of_pos hk, div_div, mul_comm k]
  have hentry : entry origin (direction.scale k) = entry origin direction / k := by
    rw [entry, entry, hspan, nearestTime_scale hd hk, sub_div]
  have hexit : exit origin (direction.scale k) = exit origin direction / k := by
    rw [exit, exit, hspan, nearestTime_scale hd hk, add_div]
  have hne : direction.scale k ≠ zero := (ProjEq.scale hk.ne').ne_zero hd
  rw [spherePoint?_eq hd, spherePoint?_eq hne, foot_scale hd hk]
  simp only [meeting, apply_ite fun t => origin.move t (direction.scale k),
    apply_ite fun t => origin.move t direction, move_scale, hentry, hexit,
    div_mul_cancel₀ _ hk.ne']

end

/-! ### What is seen -/

/-- How the sphere is seen along the line from `origin` in this direction. -/
structure Seen (origin direction : Point ℝ) : Prop where
  none_iff : spherePoint? origin direction = none ↔
    direction = zero ∨ ∀ t, 1.01 ≤ (origin.move t direction).norm
  onLine : ∀ h, spherePoint? origin direction = some h → ∃ t, h = origin.move t direction
  /-- A line that just misses the sphere is seen at its closest point. -/
  closest : ∀ h, spherePoint? origin direction = some h →
    (∀ t, 1 ≤ (origin.move t direction).norm) →
    ∀ t, origin.move t direction = h ∨ h.norm < (origin.move t direction).norm
  /-- A line that enters the sphere is seen at one of the two intersections: in the upper half if it
  comes there, and at the first if both are there. -/
  intersection : ∀ h, spherePoint? origin direction = some h →
    (∃ t, (origin.move t direction).norm < 1) →
    h.norm = 1 ∧ ∃ first last, first < last ∧
      (∀ t, (origin.move t direction).norm = 1 ↔ t = first ∨ t = last) ∧
      (0 ≤ (origin.move first direction).z ∨ 0 ≤ (origin.move last direction).z → 0 ≤ h.z) ∧
      (0 ≤ (origin.move first direction).z → 0 ≤ (origin.move last direction).z →
        h = origin.move first direction)
  move : ∀ s, spherePoint? (origin.move s direction) direction = spherePoint? origin direction
  scale : ∀ k, 0 < k → spherePoint? origin (direction.scale k) = spherePoint? origin direction

/-- The time of the intersection that is seen is that of the first, if this is in the upper half. -/
theorem meeting_cases (origin direction : Point ℝ) :
    0 ≤ (origin.move (entry origin direction) direction).z ∧
        meeting origin direction = entry origin direction ∨
      ¬ 0 ≤ (origin.move (entry origin direction) direction).z ∧
        meeting origin direction = exit origin direction := by
  rw [meeting]
  split
  · next h => exact .inl ⟨h, rfl⟩
  · next h => exact .inr ⟨h, rfl⟩

theorem seen_of_zero (origin : Point ℝ) : Seen origin zero := by
  have hscale : ∀ k : ℝ, (zero : Point ℝ).scale k = zero := by
    intro k
    simp [zero_eq, Point.scale]
  refine ⟨by simp [spherePoint?_zero], ?_, ?_, ?_, ?_, ?_⟩
  case refine_4 => exact fun s => by rw [spherePoint?_zero, spherePoint?_zero]
  case refine_5 => exact fun k _ => by rw [hscale]
  all_goals
    intro h hseen
    rw [spherePoint?_zero] at hseen
    cases hseen

section

variable (hd : direction ≠ zero) {h : Point ℝ} (hseen : spherePoint? origin direction = some h)

include hd hseen

theorem eq_foot_of_seen (hfar : 1 ≤ (foot origin direction).norm) : h = foot origin direction := by
  rw [spherePoint?_eq hd, if_pos hfar] at hseen
  split at hseen
  · cases hseen
  · exact (Option.some.inj hseen).symm

theorem eq_meeting_of_seen (hnear : (foot origin direction).norm < 1) :
    h = origin.move (meeting origin direction) direction := by
  rw [spherePoint?_eq hd, if_neg hnear.not_ge] at hseen
  split at hseen
  · cases hseen
  · exact (Option.some.inj hseen).symm

end

/-- Along every line the sphere is seen where it should be. -/
theorem spherePoint_seen (origin direction : Point ℝ) : Seen origin direction := by
  by_cases hd : direction = zero
  · rw [hd]
    exact seen_of_zero origin
  refine ⟨?none_iff, ?onLine, ?closest, ?intersection, fun s => spherePoint?_move hd,
    fun k => spherePoint?_scale hd⟩
  case none_iff =>
    rw [spherePoint?_eq hd, forall_le_norm_iff hd]
    split
    · next hfar => simp [hfar]
    · next hnear => split <;> simp [hd, hnear]
  case onLine =>
    intro h hseen
    obtain hfar | hnear := le_or_gt 1 (foot origin direction).norm
    · exact ⟨_, eq_foot_of_seen hd hseen hfar⟩
    · exact ⟨_, eq_meeting_of_seen hd hseen hnear⟩
  case closest =>
    intro h hseen hfar
    rw [eq_foot_of_seen hd hseen ((forall_le_norm_iff hd).1 hfar)]
    exact eq_foot_or_norm_lt hd
  case intersection =>
    intro h hseen hinside
    have hnear := (exists_norm_lt_iff hd).1 hinside
    have hunit := fun t => norm_move_eq_one_iff (t := t) hd hnear
    rw [eq_meeting_of_seen hd hseen hnear]
    have hspan := entry_lt_exit hd hnear
    obtain ⟨hupper, htime⟩ | ⟨hlower, htime⟩ := meeting_cases origin direction
    · rw [htime]
      exact ⟨(hunit _).2 (.inl rfl), _, _, hspan, hunit, fun _ => hupper, fun _ _ => rfl⟩
    · rw [htime]
      exact ⟨(hunit _).2 (.inr rfl), _, _, hspan, hunit, fun h => h.resolve_left hlower,
        fun hfirst => absurd hfirst hlower⟩

end Sight

end EllipticPlot
