import EllipticPlot.Proofs.EdwardsSmooth
import EllipticPlot.Proofs.Rescaling
import EllipticPlot.Proofs.UnitSphere
import EllipticPlot.Proofs.WeierstrassSeeds

/-!
# Places without a tangent

Over the real numbers a tangent vanishes where the gradient does, and also where the gradient is
parallel to the point. By Euler's identity it has there the length of the residual times the degree
of the equation, so near the curve it is short as well. The seeds of an accepted curve are on the
curve and have a gradient; every other position of a trace is the unit vector that a projection
returned, and it is within the tolerance or reported as stalled.
-/

namespace EllipticPlot

open Point

/-! ### Gradients at the seeds -/

theorem Equation.degree_le_four (equation : Equation ℝ) : (equation.degree : ℝ) ≤ 4 := by
  cases equation <;> norm_num [degree]

namespace Curve

variable {equation : Equation ℝ} {curve : Curve ℝ}

theorem residual_of_mem_seeds (haccepted : ofEquation equation = .ok curve) {seed : Point ℝ}
    (hmem : seed ∈ curve.seeds) : equation.residual seed = 0 := by
  cases equation with
  | weierstrass a b => exact ((mem_seeds_iff haccepted seed).mp hmem).2.2
  | edwards d =>
    rw [Equation.residual_edwards]
    rcases cases_of_mem_seeds_edwards haccepted hmem with rfl | rfl | rfl | rfl <;> norm_num

/-- An accepted curve is smooth at its seeds. -/
theorem gradient_normalize_of_mem_seeds (haccepted : ofEquation equation = .ok curve)
    {seed : Point ℝ} (hmem : seed ∈ curve.seeds) : equation.gradient seed.normalize ≠ zero := by
  intro hgradient
  obtain ⟨-, hsmooth⟩ := seeds_of_accepted haccepted
  refine List.any_eq_false.mp hsmooth seed hmem ?_
  rw [isSingularAt, hgradient, norm_eq, normSq_eq_zero.mpr rfl, Real.sqrt_zero]
  norm_num [singularGradient]

end Curve

theorem Equation.gradient_ne_zero_of_projEq {equation : Equation ℝ} {p q : Point ℝ}
    (hpq : p.ProjEq q) (hp : equation.gradient p ≠ zero) : equation.gradient q ≠ zero := by
  obtain ⟨k, hk, rfl⟩ := hpq
  rw [gradient_scale]
  exact (ProjEq.scale (pow_ne_zero _ hk)).ne_zero hp

namespace Plan

/-! ### Vanishing tangents -/

section

variable {plan : Plan ℝ} {p q : Point ℝ}

theorem stride?_eq_none_iff {delta : ℝ} :
    plan.stride? delta p = none ↔ plan.tangent p = zero := by
  have hquotient : ∀ length : ℝ, Scalar.quotient? delta length = none ↔ length = 0 := by
    intro length
    change (if length = 0 then none else some (delta / length)) = none ↔ length = 0
    split <;> simp [*]
  rw [stride?, Option.map_eq_none_iff, hquotient, norm_eq, Real.sqrt_eq_zero (normSq_nonneg _),
    normSq_eq_zero]

theorem normSq_tangent (plan : Plan ℝ) (p : Point ℝ) :
    (plan.tangent p).normSq = p.normSq * (plan.curve.equation.gradient p).normSq -
      (plan.curve.equation.degree * plan.curve.equation.residual p) ^ 2 := by
  rw [tangent, Equation.normSq_cross_gradient]

theorem norm_gradient_of_tangent (hp : p.norm = 1) (h : plan.tangent p = zero) :
    (plan.curve.equation.gradient p).norm =
      plan.curve.equation.degree * |plan.curve.equation.residual p| := by
  have hlength := plan.normSq_tangent p
  rw [normSq_eq_zero.mpr h, Real.sqrt_eq_one.mp hp, one_mul] at hlength
  have hsq : (plan.curve.equation.gradient p).normSq =
      (plan.curve.equation.degree * plan.curve.equation.residual p) ^ 2 := by
    linarith
  rw [norm_eq, hsq, Real.sqrt_sq_eq_abs, abs_mul, Nat.abs_cast]

theorem norm_gradient_lt_of_tangent {tolerance : ℝ} (hp : p.norm = 1)
    (h : plan.tangent p = zero)
    (hwithin : Scalar.abs (plan.curve.equation.residual p) < tolerance) :
    (plan.curve.equation.gradient p).norm < 4 * tolerance := by
  have hresidual : |plan.curve.equation.residual p| < tolerance := hwithin
  have hdegree := plan.curve.equation.degree_le_four
  rw [norm_gradient_of_tangent hp h]
  calc plan.curve.equation.degree * |plan.curve.equation.residual p|
      ≤ 4 * |plan.curve.equation.residual p| :=
        mul_le_mul_of_nonneg_right hdegree (abs_nonneg _)
    _ < 4 * tolerance := by linarith

/-- On the curve a tangent vanishes with the gradient only. -/
theorem tangent_ne_zero (hp : p ≠ zero) (hresidual : plan.curve.equation.residual p = 0)
    (hgradient : plan.curve.equation.gradient p ≠ zero) : plan.tangent p ≠ zero := by
  intro h
  have hlength := plan.normSq_tangent p
  rw [normSq_eq_zero.mpr h, hresidual] at hlength
  have hpos : 0 < p.normSq * (plan.curve.equation.gradient p).normSq :=
    mul_pos (normSq_pos hp) (normSq_pos hgradient)
  linarith

end

/-! ### Reports -/

section

variable {α : Type} [Scalar α] {plan : Plan α} {seed q : Point α}

/-- What a trace from a seed reports is among the diagnostics. -/
theorem mem_diagnostics_of_mem_legs (hseed : seed ∈ plan.curve.seeds) {route : Route α}
    (hroute : route ∈ plan.legs seed) {diagnostic : Diagnostic α}
    (hreport : diagnostic ∈ route.reports) :
    diagnostic ∈ plan.tessellate.value.diagnostics := by
  rw [← Array.mem_toList_iff, diagnostics_tessellate]
  exact List.mem_append_left _
    (List.mem_flatMap.mpr ⟨seed, hseed, List.mem_flatMap.mpr ⟨route, hroute, hreport⟩⟩)

theorem exists_leg_of_degenerate
    (h : .degenerateTangent q ∈ plan.tessellate.value.diagnostics) :
    ∃ seed ∈ plan.curve.seeds, ∃ route ∈ plan.legs seed, route.ending = .noTangent q := by
  rw [← Array.mem_toList_iff, diagnostics_tessellate] at h
  obtain hreport | hleft := List.mem_append.mp h
  · obtain ⟨seed, hseed, hlegs⟩ := List.mem_flatMap.mp hreport
    obtain ⟨route, hroute, hmem⟩ := List.mem_flatMap.mp hlegs
    exact ⟨seed, hseed, route, hroute, (Route.reports_of_degenerate hmem).1⟩
  · obtain ⟨half, -, hhalf⟩ := List.mem_map.mp hleft
    cases hhalf

/-- A walk that finds no tangent is at the point of its last visit, or still at the seed. -/
theorem last_of_noTangent {route : Route α} (hroute : route ∈ plan.legs seed)
    (hending : route.ending = .noTangent q) :
    (∃ delta, plan.stride? delta q = none) ∧ (q = seed.normalize ∨
      ∃ visit ∈ route.visits, visit = plan.visit visit.start ∧ q = visit.projection.point) := by
  obtain ⟨delta, -, rfl⟩ := List.mem_map.mp hroute
  refine ⟨⟨delta, plan.stride?_of_noTangent hending⟩, ?_⟩
  have hposition := plan.position_of_noTangent hending
  rw [← leg] at hposition
  rcases hlast : (plan.leg seed.normalize delta).visits.getLast? with _ | visit
  · left
    rw [hposition, hlast]
    rfl
  · right
    have hmem := List.mem_of_getLast? hlast
    refine ⟨visit, hmem, plan.visit_of_mem_route delta _ _ none hmem, ?_⟩
    rw [hposition, hlast]
    rfl

theorem step_mem_directions (h : plan.admits seed = true) :
    plan.config.step ∈ plan.directions seed := by
  rw [directions, if_pos h]
  split <;> simp

end

/-! ### Tessellations -/

/-- What is known of the places where a tessellation has found no tangent. -/
structure CutNearSingularities (plan : Plan ℝ) (diagnostics : Array (Diagnostic ℝ)) : Prop where
  /-- The gradient is short there, unless a stalled projection has led to the place. -/
  gradient : ∀ q, .degenerateTangent q ∈ diagnostics →
    (∃ start residual?, .projectionStalled start q residual? ∈ diagnostics) ∨
      (plan.curve.equation.gradient q).norm < 4 * plan.config.vertexTolerance
  /-- None of them denotes a seed. -/
  seed : ∀ q, .degenerateTangent q ∈ diagnostics →
    ∀ seed ∈ plan.curve.seeds, ¬ seed.ProjEq q
  /-- A trace from a seed takes its first step. -/
  departure : ∀ seed ∈ plan.curve.seeds, ∀ delta,
    (plan.stride? delta seed.normalize).isSome = true

theorem tangent_ne_zero_of_seed {equation : Equation ℝ} {curve : Curve ℝ}
    (haccepted : Curve.ofEquation equation = .ok curve) (embedding : Embedding ℝ)
    (config : TraceConfig ℝ) {seed : Point ℝ} (hseed : seed ∈ curve.seeds) {q : Point ℝ}
    (hq : seed.ProjEq q) : (Plan.mk curve embedding config).tangent q ≠ zero := by
  have hne := Curve.ne_zero_of_mem_seeds haccepted hseed
  have hnormalized : seed.normalize.ProjEq q := (projEq_normalize hne).symm.trans hq
  obtain rfl := Curve.equation_of_accepted haccepted
  exact tangent_ne_zero (hq.ne_zero hne)
    (Equation.residual_eq_zero_of_projEq hq (Curve.residual_of_mem_seeds haccepted hseed))
    (Equation.gradient_ne_zero_of_projEq hnormalized
      (Curve.gradient_normalize_of_mem_seeds haccepted hseed))

/-- A branch of an accepted curve is cut for a vanishing tangent only next to a singularity. -/
theorem tessellateWith_cutNearSingularities {equation : Equation ℝ} {curve : Curve ℝ}
    (haccepted : Curve.ofEquation equation = .ok curve) (embedding : Embedding ℝ)
    {config : TraceConfig ℝ} (hvalid : config.isValid = true) :
    ∃ t, curve.tessellateWith embedding config = .ok t ∧
      (Plan.mk curve embedding config).CutNearSingularities t.value.diagnostics := by
  refine ⟨_, tessellateWith_eq curve embedding config hvalid, ?gradient, ?seed, ?departure⟩
  case gradient =>
    intro q hq
    obtain ⟨seed, hseed, route, hroute, hending⟩ := exists_leg_of_degenerate hq
    have hne := Curve.ne_zero_of_mem_seeds haccepted hseed
    obtain ⟨⟨delta, hstride⟩, rfl | ⟨visit, hmem, hvisit, rfl⟩⟩ := last_of_noTangent hroute hending
    · -- a trace does not end where it starts
      exact absurd (stride?_eq_none_iff.mp hstride)
        (tangent_ne_zero_of_seed haccepted embedding config hseed (projEq_normalize hne))
    · cases hconverged : visit.projection.converged with
      | false =>
        have hstalled := stall_mem_tessellate (mem_visits hseed hroute hmem) hconverged
        exact .inl ⟨visit.start, visit.projection.residual?, hstalled⟩
      | true =>
        right
        obtain ⟨-, -, hunit⟩ := unit_of_mem_legs (vertexTolerance_pos hvalid) hne hroute hmem
        rw [hvisit] at hconverged hunit hstride ⊢
        exact norm_gradient_lt_of_tangent hunit (stride?_eq_none_iff.mp hstride)
          (Equation.abs_residual_lt_of_converged hconverged)
  case seed =>
    intro q hq seed hseed hsame
    obtain ⟨start, -, route, hroute, hending⟩ := exists_leg_of_degenerate hq
    obtain ⟨⟨delta, hstride⟩, -⟩ := last_of_noTangent hroute hending
    exact tangent_ne_zero_of_seed haccepted embedding config hseed hsame
      (stride?_eq_none_iff.mp hstride)
  case departure =>
    intro seed hseed delta
    have hne := Curve.ne_zero_of_mem_seeds haccepted hseed
    rw [Option.isSome_iff_ne_none, Ne, stride?_eq_none_iff]
    exact tangent_ne_zero_of_seed haccepted embedding config hseed (projEq_normalize hne)

/-! ### Four crossing lines -/

/-- A point of the curve is projected to its unit representative. -/
theorem point_projectVertex {plan : Plan ℝ} (htolerance : 0 < plan.config.vertexTolerance)
    {p : Point ℝ} (hp : p ≠ zero) (hresidual : plan.curve.equation.residual p = 0) :
    (plan.projectVertex p).point = p.normalize := by
  have hwithin : Scalar.abs (plan.curve.equation.residual p.normalize) <
      plan.config.vertexTolerance := by
    rw [Equation.residual_normalize_eq_zero hp hresidual]
    change |(0 : ℝ)| < _
    rwa [abs_zero]
  rw [projectVertex, plan.curve.equation.projectWithin_eq_newton _ _ hp]
  cases plan.config.maxIterations with
  | zero => rfl
  | succ left => rw [Equation.newton, if_pos hwithin]

theorem tangent_of_gradient {plan : Plan ℝ} {p : Point ℝ}
    (h : plan.curve.equation.gradient p = zero) : plan.tangent p = zero := by
  rw [tangent, h, zero_eq, cross_eq]
  simp

/-- A step from a seed that reaches a singular point of the curve is the last one. -/
theorem degenerateTangent_mem_of_stride {plan : Plan ℝ} (hsphere : plan.embedding = .projective)
    (htolerance : 0 < plan.config.vertexTolerance) (hsteps : 2 ≤ plan.config.maxSteps)
    {seed p : Point ℝ} (hseed : seed ∈ plan.curve.seeds)
    (hstride : plan.stride? plan.config.step seed.normalize = some p) (hz : 0 < p.z)
    (hresidual : plan.curve.equation.residual p = 0)
    (hgradient : plan.curve.equation.gradient p = zero) :
    .degenerateTangent p.normalize ∈ plan.tessellate.value.diagnostics := by
  obtain ⟨count, hcount⟩ := Nat.exists_eq_add_of_le' hsteps
  have hp : p ≠ zero := by
    intro hzero
    rw [(eq_zero_iff.mp hzero).2.2] at hz
    exact lt_irrefl 0 hz
  have hbelow : ¬ p.z < 0.0 := by
    norm_num
    exact hz.le
  have hinside : (plan.placement (plan.visit p)).isInside = true := by
    rw [placement_of_projective hsphere]
    rfl
  have hpoint : (plan.visit p).projection.point = p.normalize :=
    point_projectVertex htolerance hp hresidual
  have hend : plan.stride? plan.config.step p.normalize = none := by
    rw [stride?_eq_none_iff]
    apply tangent_of_gradient
    rw [normalize_eq hp, Equation.gradient_scale, hgradient, zero_eq]
    ext <;> simp
  have hroute : (plan.leg seed.normalize plan.config.step).ending = .noTangent p.normalize := by
    rw [leg, hcount, route_of_inside _ hstride hbelow (by simp [crosses]) hinside, hpoint,
      route_of_no_stride _ hend]
    rfl
  have hleg : plan.leg seed.normalize plan.config.step ∈ plan.legs seed :=
    List.mem_map_of_mem (step_mem_directions (admits_of_projective hsphere seed))
  refine mem_diagnostics_of_mem_legs hseed hleg ?_
  rw [Route.reports, hroute]
  exact List.mem_append_right _ (List.mem_singleton_self _)

/-- A step of length `√2 / 2` along the tangent in a seed on the axis `y = 0`. -/
theorem stride?_four_lines {plan : Plan ℝ} (h : plan.curve.equation = .edwards 1) :
    plan.stride? (√2)⁻¹ (Point.normalize ⟨1.0, 0.0, 1.0⟩) =
      some ⟨(√2)⁻¹, (√2)⁻¹, (√2)⁻¹⟩ := by
  have hnormSq : (⟨1.0, 0.0, 1.0⟩ : Point ℝ).normSq = 2 := by
    rw [normSq_eq]
    norm_num
  have hseed : (⟨1.0, 0.0, 1.0⟩ : Point ℝ) ≠ zero := by
    rw [Ne, ← normSq_eq_zero, hnormSq]
    norm_num
  have hinv := inv_sqrt_two_sq
  rw [normalize_eq hseed, norm_eq, hnormSq]
  generalize (√2 : ℝ)⁻¹ = r at hinv
  have htangent : plan.tangent (Point.scale r ⟨1.0, 0.0, 1.0⟩) = ⟨0, 1, 0⟩ := by
    rw [tangent, h, Equation.gradient_edwards, cross_eq]
    simp only [scale_x, scale_y, scale_z]
    ext
    · norm_num
    · norm_num
      linear_combination (4 * r ^ 2 + 2) * hinv
    · norm_num
  have hnorm : (⟨0, 1, 0⟩ : Point ℝ).norm = 1 := by
    rw [norm_eq, normSq_eq]
    norm_num
  have hquotient : Scalar.quotient? r (1 : ℝ) = some r := by
    change (if (1 : ℝ) = 0 then none else some (r / 1)) = some r
    rw [if_neg one_ne_zero, div_one]
  rw [stride?, htangent, hnorm, hquotient, Option.map_some, move_eq]
  simp only [scale_x, scale_y, scale_z]
  norm_num

/-- On the Edwards curve with `d = 1`, which consists of four lines, a step of length `√2 / 2` from
a seed reaches the point where two of them cross, and the branch is cut there. -/
theorem cutNearSingularities_four_lines :
    let config : TraceConfig ℝ := { TraceConfig.default with step := (√2)⁻¹, maxSteps := 2 }
    config.isValid = true ∧ ∃ curve : Curve ℝ, Curve.ofEquation (.edwards 1) = .ok curve ∧
      ∃ t, curve.tessellateWith .projective config = .ok t ∧
        (Plan.mk curve .projective config).CutNearSingularities t.value.diagnostics ∧
        ∃ q, .degenerateTangent q ∈ t.value.diagnostics := by
  intro config
  have hvalid : config.isValid = true := by
    norm_num [config, TraceConfig.isValid, TraceConfig.isPositive, TraceConfig.default,
      Scalar.isFinite]
  obtain ⟨curve, haccepted⟩ := Curve.exists_accepted_edwards 1
  obtain ⟨t, ht, hcut⟩ := tessellateWith_cutNearSingularities haccepted .projective hvalid
  refine ⟨hvalid, curve, haccepted, t, ht, hcut, ?_⟩
  have hequation := Curve.equation_of_accepted haccepted
  have hseed : (⟨1.0, 0.0, 1.0⟩ : Point ℝ) ∈ curve.seeds := by
    obtain hseeds | hseeds := Curve.seeds_edwards haccepted <;> simp [hseeds]
  rw [tessellateWith_eq curve .projective config hvalid] at ht
  obtain rfl := Except.ok.inj ht
  refine ⟨_, degenerateTangent_mem_of_stride rfl (vertexTolerance_pos hvalid) le_rfl hseed
    (stride?_four_lines hequation) (inv_pos.mpr (by norm_num)) ?residual ?gradient⟩
  case residual =>
    change curve.equation.residual _ = 0
    rw [hequation, Equation.residual_edwards]
    ring
  case gradient =>
    change curve.equation.gradient _ = zero
    rw [hequation, Equation.gradient_edwards, zero_eq]
    ext <;> ring

end Plan

end EllipticPlot
