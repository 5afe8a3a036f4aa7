import EllipticPlot.Picking
import EllipticPlot.Proofs.Binary64Operations
import EllipticPlot.Proofs.Convergence

/-!
# Picked points

A pick looks at the residual and the height of a projection and not at its flag, so it accepts a
point that was reached with the last step. In doubles a residual below the tolerance is finite, and
then so are the coordinates `y` and `z`: the comparisons that follow are between numbers, and what
is not above the plane `z = 0` is sent to one of the two triples at infinity, where every finite
equation has residual zero.
-/

namespace EllipticPlot.Equation

/-! ### What is accepted -/

section

variable {α : Type} [Scalar α] {projection : Projection α} {equation : Equation α} {p q : Point α}

theorem acceptsPick_iff : acceptsPick projection = true ↔
    projection.IsWithin pickTolerance ∧ ¬ projection.point.z < pickLowest := by
  rw [acceptsPick, Projection.IsWithin]
  rcases projection.residual? with _ | residual
  · simp
  · simp [and_comm]

theorem value_pick (equation : Equation α) (p : Point α) : (equation.pick p).value =
    let projection := equation.projectWithin projectionLimit pickTolerance p
    if acceptsPick projection then some (snapToInfinity projection.point) else none := by
  rw [pick]
  dsimp only
  split <;> rfl

theorem isSome_pick_iff : (equation.pick p).value.isSome = true ↔
    acceptsPick (equation.projectWithin projectionLimit pickTolerance p) = true := by
  rw [value_pick]
  dsimp only
  split <;> simp [*]

theorem eq_snapToInfinity_of_pick (h : (equation.pick p).value = some q) :
    let projection := equation.projectWithin projectionLimit pickTolerance p
    acceptsPick projection = true ∧ q = snapToInfinity projection.point := by
  rw [value_pick] at h
  dsimp only at h
  split at h
  · next haccepted => exact ⟨haccepted, (Option.some.inj h).symm⟩
  · cases h

/-- The residual that a projection within a tolerance gives is that of its point. -/
theorem isWithin_point_of_isWithin {limit : ℕ} {tolerance : α}
    (h : (equation.projectWithin limit tolerance p).IsWithin tolerance) :
    equation.IsWithin tolerance (equation.projectWithin limit tolerance p).point := by
  obtain ⟨residual, hresidual, hless⟩ := h
  have hproper : ¬ (p.isFinite = false ∨ (p == Point.zero) = true) := by
    intro himproper
    rw [projectWithin_of_improper himproper] at hresidual
    cases hresidual
  obtain ⟨hfinite, hzero⟩ := not_or.mp hproper
  rw [projectWithin_residual? _ _ _ (eq_false_of_ne_true hzero),
    if_pos (eq_true_of_ne_false hfinite)] at hresidual
  obtain rfl := Option.some.inj hresidual
  exact hless

end

/-! ### Coordinates of accepted points -/

open Binary64

variable {equation : Equation Float} {p q : Point Float}

/-- A finite residual has seen finite coordinates `y` and `z`. -/
theorem isFinite_of_residual (h : Scalar.isFinite (equation.residual p) = true) :
    Scalar.isFinite p.y = true ∧ Scalar.isFinite p.z = true := by
  cases equation with
  | weierstrass a b =>
    have hproduct : Scalar.isFinite (p.z * Scalar.sq p.y) = true := (isFinite_of_isFinite_sub h).2
    have hsquare : Scalar.isFinite (Scalar.sq p.y) = true :=
      isFinite_right_of_isFinite_mul hproduct
    exact ⟨isFinite_of_isFinite_mul hsquare, isFinite_of_isFinite_mul hproduct⟩
  | edwards d =>
    obtain ⟨hrest, hproduct⟩ := isFinite_of_isFinite_sub h
    have hsquare : Scalar.isFinite (Scalar.sq p.y) = true :=
      isFinite_right_of_isFinite_mul hproduct
    have hfourth : Scalar.isFinite (Scalar.sq (Scalar.sq p.z)) = true :=
      (isFinite_of_isFinite_sub hrest).2
    exact ⟨isFinite_of_isFinite_mul hsquare,
      isFinite_of_isFinite_mul (isFinite_of_isFinite_mul hfourth)⟩

/-- The curve of a finite equation passes through both triples at infinity. -/
theorem residual_infinity (hfinite : equation.isFinite = true) {y : Float}
    (hy : y = 1.0 ∨ y = -1.0) : (equation.residual ⟨0.0, y, 0.0⟩ == 0.0) = true := by
  have hzero : ((0.0 : Float) == 0.0) = true := rfl
  have hcube : (Scalar.cube (0.0 : Float) == 0.0) = true := by decide +kernel
  have hsquare : (Scalar.sq (0.0 : Float) == 0.0) = true := by decide +kernel
  have hunit : Scalar.isFinite (Scalar.sq y) = true := by
    obtain rfl | rfl := hy <;> decide +kernel
  cases equation with
  | weierstrass a b =>
    obtain ⟨ha, hb⟩ := Bool.and_eq_true_iff.mp hfinite
    have hlinear : (a * 0.0 * Scalar.sq 0.0 == 0.0) = true :=
      mul_beq_zero_left (mul_beq_zero_right ha hzero) (isFinite_of_beq_zero hsquare)
    exact sub_beq_zero (add_beq_zero (add_beq_zero hcube hlinear) (mul_beq_zero_right hb hcube))
      (mul_beq_zero_left hzero hunit)
  | edwards d =>
    have hsum : ((Scalar.sq 0.0 + Scalar.sq y) * Scalar.sq 0.0 - Scalar.sq (Scalar.sq 0.0) == 0.0) =
        true := by
      obtain rfl | rfl := hy <;> decide +kernel
    exact sub_beq_zero hsum (mul_beq_zero_left (mul_beq_zero_right hfinite hsquare) hunit)

theorem unitSign_of_isFinite {x : Float} (h : Scalar.isFinite x = true) :
    Scalar.unitSign x = 1.0 ∨ Scalar.unitSign x = -1.0 := by
  have hnumber : x.isNaN = false := by
    have hfinite : (value x).isFinite = true := h
    change (value x).isNaN = false
    cases hx : value x with
    | notANumber =>
      rw [hx] at hfinite
      cases hfinite
    | _ => rfl
  change Binary64.unitSign x = 1.0 ∨ Binary64.unitSign x = -1.0
  rw [Binary64.unitSign, hnumber, if_neg Bool.false_ne_true]
  split
  · exact .inr rfl
  · exact .inl rfl

/-! ### Snapped points -/

theorem snapToInfinity_of_pos (h : 0.0 < p.z) : snapToInfinity p = p :=
  if_neg fun hle => Scalar.LawfulComparison.not_lt_of_le hle h

section

variable (hwithin : equation.IsWithin 1e-14 p)

include hwithin

/-- A small residual leaves no other triple than the two at infinity to snap to. -/
theorem snapToInfinity_of_not_pos (h : ¬ 0.0 < p.z) :
    ∃ y, (y = 1.0 ∨ y = -1.0) ∧ snapToInfinity p = ⟨0.0, y, 0.0⟩ := by
  obtain ⟨hy, hz⟩ := isFinite_of_residual (isFinite_of_abs_lt hwithin)
  have hle : p.z ≤ 0.0 := Scalar.LawfulComparison.le_of_not_lt (isNumber_of_isFinite hz) rfl h
  exact ⟨_, unitSign_of_isFinite hy, if_pos hle⟩

theorem nonneg_snapToInfinity : 0.0 ≤ (snapToInfinity p).z := by
  by_cases hpos : 0.0 < p.z
  · rw [snapToInfinity_of_pos hpos]
    exact Scalar.LawfulComparison.le_of_lt hpos
  · obtain ⟨y, -, hsnapped⟩ := snapToInfinity_of_not_pos hwithin hpos
    rw [hsnapped]
    exact Scalar.IsNumber.le_self rfl

theorem isWithin_snapToInfinity (hfinite : equation.isFinite = true) :
    equation.IsWithin 1e-14 (snapToInfinity p) := by
  by_cases hpos : 0.0 < p.z
  · rwa [snapToInfinity_of_pos hpos]
  · obtain ⟨y, hsign, hsnapped⟩ := snapToInfinity_of_not_pos hwithin hpos
    rw [hsnapped, IsWithin, abs_of_beq_zero (residual_infinity hfinite hsign)]
    decide +kernel

end

/-! ### Picks -/

/-- How the pick at `p` is told by the projection of `p`. -/
structure PicksByProjection (equation : Equation Float) (p : Point Float)
    (projection : Projection Float) : Prop where
  improper : p.isFinite = false ∨ (p == Point.zero) = true →
    equation.pick p = ⟨none, #[.pickMissed p none]⟩
  /-- The flag of the projection is not looked at. -/
  isSome_iff : (equation.pick p).value.isSome = true ↔
    projection.IsWithin 1e-14 ∧ ¬ projection.point.z < -0.01
  nonneg : ∀ q, (equation.pick p).value = some q → 0.0 ≤ q.z
  residual : ∀ q, (equation.pick p).value = some q → Scalar.abs (equation.residual q) < 1e-14
  above : ∀ q, (equation.pick p).value = some q → 0.0 < projection.point.z → q = projection.point
  infinity : ∀ q, (equation.pick p).value = some q → ¬ 0.0 < projection.point.z →
    q = ⟨0.0, 1.0, 0.0⟩ ∨ q = ⟨0.0, -1.0, 0.0⟩

/-- A pick accepts the projections that are on the curve and not clearly in the lower half, and no
others; what it returns is on the curve and in the upper half. -/
theorem pick_byProjection (hfinite : equation.isFinite = true) (p : Point Float) :
    equation.PicksByProjection p (equation.projectWithin 20 1e-14 p) := by
  have hpicked : ∀ q, (equation.pick p).value = some q →
      let point := (equation.projectWithin 20 1e-14 p).point
      equation.IsWithin 1e-14 point ∧ q = snapToInfinity point := by
    intro q hpick
    obtain ⟨haccepted, hsnapped⟩ := eq_snapToInfinity_of_pick hpick
    exact ⟨isWithin_point_of_isWithin (acceptsPick_iff.mp haccepted).1, hsnapped⟩
  refine ⟨?improper, isSome_pick_iff.trans acceptsPick_iff, ?nonneg, ?residual, ?above, ?infinity⟩
  case improper =>
    intro himproper
    rw [pick, projectWithin_of_improper himproper]
    rfl
  case nonneg =>
    intro q hpick
    obtain ⟨hwithin, rfl⟩ := hpicked q hpick
    exact nonneg_snapToInfinity hwithin
  case residual =>
    intro q hpick
    obtain ⟨hwithin, rfl⟩ := hpicked q hpick
    exact isWithin_snapToInfinity hwithin hfinite
  case above =>
    intro q hpick hpos
    obtain ⟨-, rfl⟩ := hpicked q hpick
    exact snapToInfinity_of_pos hpos
  case infinity =>
    intro q hpick hpos
    obtain ⟨hwithin, rfl⟩ := hpicked q hpick
    obtain ⟨y, rfl | rfl, hsnapped⟩ := snapToInfinity_of_not_pos hwithin hpos
    · exact .inl hsnapped
    · exact .inr hsnapped

theorem PicksByProjection.value_of_pos {projection : Projection Float}
    (h : equation.PicksByProjection p projection) (hwithin : projection.IsWithin 1e-14)
    (hpos : 0.0 < projection.point.z) : (equation.pick p).value = some projection.point := by
  have hhigh : ¬ projection.point.z < -0.01 := by
    intro hlow
    have hbelow : projection.point.z < 0.0 :=
      Scalar.LawfulOrder.lt_of_lt_of_le hlow (by decide +kernel)
    exact Scalar.LawfulComparison.not_lt_of_le (Scalar.LawfulComparison.le_of_lt hbelow) hpos
  obtain ⟨q, hq⟩ := Option.isSome_iff_exists.mp (h.isSome_iff.mpr ⟨hwithin, hhigh⟩)
  rw [hq, h.above q hq hpos]

/-- On the Edwards curve with `d = -1` in doubles, the projection of this place takes all twenty
steps and is not flagged as converged; it is picked nevertheless. -/
theorem pick_byProjection_last_step :
    (Equation.edwards (-1.0) : Equation Float).isFinite = true ∧
      ∃ projection, Equation.projectWithin (.edwards (-1.0)) 20 1e-14 ⟨0.002, 0.0, 1.0⟩ =
          projection ∧
        Equation.PicksByProjection (.edwards (-1.0)) ⟨0.002, 0.0, 1.0⟩ projection ∧
        projection.converged = false ∧
        (Equation.pick (.edwards (-1.0)) ⟨0.002, 0.0, 1.0⟩).value = some projection.point := by
  have hfinite : (Equation.edwards (-1.0) : Equation Float).isFinite = true := by decide +kernel
  have hpick := pick_byProjection hfinite ⟨0.002, 0.0, 1.0⟩
  have hlast : let projection : Projection Float :=
        Equation.projectWithin (.edwards (-1.0)) 20 1e-14 ⟨0.002, 0.0, 1.0⟩
      projection.converged = false ∧ projection.IsWithin 1e-14 ∧ 0.0 < projection.point.z := by
    decide +kernel
  refine ⟨hfinite, _, rfl, hpick, ?_⟩
  -- the projection is not to be computed again
  generalize Equation.projectWithin (.edwards (-1.0)) 20 1e-14 ⟨0.002, 0.0, 1.0⟩ = projection
    at hpick hlast ⊢
  obtain ⟨hflag, hwithin, hpos⟩ := hlast
  exact ⟨hflag, hpick.value_of_pos hwithin hpos⟩

end EllipticPlot.Equation
