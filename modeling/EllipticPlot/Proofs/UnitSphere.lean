import EllipticPlot.Proofs.NewtonLength
import EllipticPlot.Proofs.Provenance
import EllipticPlot.Proofs.SmoothCurve

/-!
# Unit length

Over the real numbers a tessellation on the sphere has vertices of length one only. The tangent is
normal to its point, so a step leaves the sphere by exactly its own length and never reaches zero;
the projection brings it back, and a marker of infinity is an axis vector.
-/

namespace EllipticPlot

namespace Point

variable {p q : Point ℝ}

theorem cross_dot_left : (p.cross q).dot p = 0 := by
  rw [cross_eq, dot_eq]
  ring

theorem unitSign_sq (x : ℝ) : Scalar.unitSign x ^ 2 = 1 := by
  change (if x < 0 then (-1 : ℝ) else 1) ^ 2 = 1
  split <;> norm_num

theorem norm_axisMarker (p : Point ℝ) : p.axisMarker.norm = 1 := by
  rw [norm_eq, Real.sqrt_eq_one, axisMarker]
  split
  · rw [normSq_eq, unitSign_sq]
    norm_num
  · rw [normSq_eq, unitSign_sq]
    norm_num

end Point

open Point

/-- No seed is the zero triple. -/
theorem Curve.ne_zero_of_mem_seeds {equation : Equation ℝ} {curve : Curve ℝ}
    (haccepted : ofEquation equation = .ok curve) {seed : Point ℝ} (hmem : seed ∈ curve.seeds) :
    seed ≠ zero := by
  rw [Ne, eq_zero_iff, z_of_mem_seeds haccepted hmem]
  norm_num

namespace Plan

/-! ### One step -/

section

variable {plan : Plan ℝ} {delta : ℝ} {p q : Point ℝ}

theorem tangent_dot_self : (plan.tangent p).dot p = 0 := cross_dot_left

/-- A point, the step from it and the point that is reached form a right triangle. -/
theorem normSq_of_stride (h : plan.stride? delta p = some q) :
    q.normSq = p.normSq + delta ^ 2 := by
  obtain ⟨amount, hamount, rfl⟩ := stride?_eq_some h
  have hnorm : (plan.tangent p).norm ≠ 0 ∧ delta / (plan.tangent p).norm = amount := by
    change (if (plan.tangent p).norm = 0 then none else some (delta / (plan.tangent p).norm)) = _
      at hamount
    split at hamount
    · cases hamount
    · next hne => exact ⟨hne, Option.some.inj hamount⟩
  obtain ⟨hne, rfl⟩ := hnorm
  have hsq : (plan.tangent p).norm ^ 2 = (plan.tangent p).normSq := by
    rw [norm_eq, Real.sq_sqrt (normSq_nonneg _)]
  rw [normSq_move, tangent_dot_self, ← hsq]
  field_simp
  ring

theorem ne_zero_of_stride (h : plan.stride? delta p = some q) : q ≠ zero := by
  intro hq
  have hlength := normSq_of_stride h
  rw [normSq_eq_zero.mpr hq] at hlength
  have hp : p = zero := normSq_eq_zero.mp (by linarith [p.normSq_nonneg, sq_nonneg delta])
  -- at zero there is no tangent, so no step was taken
  obtain ⟨amount, hamount, -⟩ := stride?_eq_some h
  have htangent : plan.tangent p = zero := by
    rw [tangent, hp, zero_eq, cross_eq]
    simp
  rw [htangent, norm_eq, normSq_eq_zero.mpr rfl, Real.sqrt_zero] at hamount
  simp [Scalar.quotient?] at hamount

end

/-! ### Walks -/

section

variable {plan : Plan ℝ} (htolerance : 0 < plan.config.vertexTolerance)

include htolerance

theorem norm_visit {start : Point ℝ} (hstart : start ≠ zero) :
    (plan.visit start).projection.point.norm = 1 :=
  plan.curve.equation.norm_projectWithin hstart htolerance plan.config.maxIterations

/-- A walk that starts on the unit sphere is back on it after each of its steps. -/
theorem unit_of_mem_route (delta : ℝ) (count : ℕ) (position : Point ℝ) (lastY? : Option ℝ)
    (hposition : position.norm = 1) {visit : Visit ℝ}
    (hmem : visit ∈ (plan.route delta count position lastY?).visits) :
    visit.start.normSq = 1 + delta ^ 2 ∧ visit.start ≠ zero ∧
      visit.projection.point.norm = 1 := by
  have hfirst : ∀ {position start : Point ℝ}, position.norm = 1 →
      plan.stride? delta position = some start →
        start.normSq = 1 + delta ^ 2 ∧ start ≠ zero ∧
          (plan.visit start).projection.point.norm = 1 := by
    intro position start hposition hstride
    have hne := ne_zero_of_stride hstride
    refine ⟨?_, hne, norm_visit htolerance hne⟩
    rw [normSq_of_stride hstride, Real.sqrt_eq_one.mp hposition]
  fun_induction plan.route delta count position lastY? with
  | case1 | case2 | case3 | case4 => cases hmem
  | case5 count position lastY? start hstride _ _ visited here _ ih =>
    obtain rfl | hmem := List.mem_cons.mp hmem
    · exact hfirst hposition hstride
    · exact ih (hfirst hposition hstride).2.2 hmem
  | case6 count position lastY? start hstride =>
    rw [List.mem_singleton.mp hmem]
    exact hfirst hposition hstride

theorem unit_of_mem_legs {seed : Point ℝ} (hseed : seed ≠ zero) {route : Route ℝ}
    (hroute : route ∈ plan.legs seed) {visit : Visit ℝ} (hmem : visit ∈ route.visits) :
    visit.start.normSq = 1 + plan.config.step ^ 2 ∧ visit.start ≠ zero ∧
      visit.projection.point.norm = 1 := by
  obtain ⟨delta, hdelta, rfl⟩ := List.mem_map.mp hroute
  have hsq : delta ^ 2 = plan.config.step ^ 2 := by
    rw [directions] at hdelta
    split at hdelta
    · split at hdelta
      · obtain rfl | hdelta := List.mem_cons.mp hdelta
        · rfl
        · rw [List.mem_singleton.mp hdelta, neg_sq]
      · rw [List.mem_singleton.mp hdelta]
    · cases hdelta
  have hunit := unit_of_mem_route htolerance delta _ _ none (norm_normalize hseed) hmem
  rwa [hsq] at hunit

end

/-! ### The first step -/

section

variable {plan : Plan ℝ} (hsphere : plan.embedding = .projective) {seed start : Point ℝ}

include hsphere

/-- A first step that is possible and does not lead below the plane `z = 0` gives a visit. -/
theorem visit_mem_leg (hsteps : plan.config.maxSteps ≠ 0)
    (hstride : plan.stride? plan.config.step seed.normalize = some start) (hz : 0 ≤ start.z) :
    plan.visit start ∈ (plan.leg seed.normalize plan.config.step).visits := by
  obtain ⟨count, hcount⟩ := Nat.exists_eq_succ_of_ne_zero hsteps
  have hbelow : ¬ start.z < 0.0 := by
    norm_num
    exact hz
  have hcross : ¬ crosses none start = true := Bool.false_ne_true
  have hinside : (plan.placement (plan.visit start)).isInside = true := by
    rw [placement_of_projective hsphere]
    rfl
  rw [leg, hcount, route_of_inside count hstride hbelow hcross hinside]
  exact List.mem_cons_self

theorem mem_visits_of_mem_leg (hseed : seed ∈ plan.curve.seeds) {visit : Visit ℝ}
    (hvisit : visit ∈ (plan.leg seed.normalize plan.config.step).visits) :
    visit ∈ plan.visits := by
  have hforward : plan.leg seed.normalize plan.config.step ∈ plan.legs seed := by
    apply List.mem_map_of_mem
    rw [directions, if_pos (admits_of_projective hsphere seed)]
    cases (plan.trace seed.normalize plan.config.step).2 <;> exact List.mem_cons_self
  exact List.mem_flatMap.mpr ⟨seed, hseed, List.mem_flatMap.mpr ⟨_, hforward, hvisit⟩⟩

/-- The points of a forward trace are vertices. -/
theorem length_visits_le_traced (seed : Point ℝ) :
    (plan.leg seed.normalize plan.config.step).visits.length ≤ plan.traced seed := by
  have hdrawn : (plan.leg seed.normalize plan.config.step).visits.length ≤
      (plan.drawn (plan.leg seed.normalize plan.config.step)).length := by
    rw [drawn_of_projective hsphere, List.length_append, List.length_map]
    exact Nat.le_add_right _ _
  refine hdrawn.trans ?_
  rw [traced]
  simp only [trace_eq]
  cases (plan.leg seed.normalize plan.config.step).ending.outcome with
  | escaped => exact Nat.le_add_right _ _
  | halfLoop => exact Nat.le_refl _

end

/-! ### Tessellations -/

section

variable {plan : Plan ℝ} (hsphere : plan.embedding = .projective)
  (htolerance : 0 < plan.config.vertexTolerance) {seed : Point ℝ} (hseed : seed ≠ zero)

include hsphere htolerance hseed

theorem norm_of_escaped {vertices : Array (Point ℝ)} (hfate : plan.fate seed = .escaped vertices)
    {v : Point ℝ} (hv : v ∈ vertices) : v.norm = 1 := by
  obtain ⟨forward, hforward, backward, hbackward, hvertices⟩ := vertices_of_escaped hsphere hfate
  have hmarker : ∀ route ∈ plan.legs seed, v ∈ (plan.marker? route.ending).toList → v.norm = 1 := by
    intro route hroute hv
    obtain ⟨reached, -, rfl⟩ := exists_below_of_marker? hroute (Option.mem_toList.mp hv)
    exact norm_axisMarker reached
  have hvisits : ∀ route ∈ plan.legs seed, v ∈ route.visits.map (·.projection.point) →
      v.norm = 1 := by
    intro route hroute hv
    obtain ⟨visit, hvisit, rfl⟩ := List.mem_map.mp hv
    exact (unit_of_mem_legs htolerance hseed hroute hvisit).2.2
  rw [← Array.mem_toList_iff, hvertices, List.mem_append, List.mem_append, List.mem_append,
    List.mem_reverse, List.mem_cons] at hv
  obtain (hv | hv | rfl | hv) | hv := hv
  · exact hmarker forward hforward hv
  · exact hvisits forward hforward hv
  · exact norm_normalize hseed
  · exact hvisits backward hbackward hv
  · exact hmarker backward hbackward hv

theorem norm_of_half {half : HalfLoop ℝ} (hfate : plan.fate seed = .half half) {v : Point ℝ}
    (hv : v ∈ half.vertices) : v.norm = 1 := by
  obtain ⟨forward, hforward, hvertices⟩ := vertices_of_half hsphere hfate
  rw [← Array.mem_toList_iff, hvertices, List.mem_cons] at hv
  obtain rfl | hv := hv
  · exact norm_normalize hseed
  · obtain ⟨visit, hvisit, rfl⟩ := List.mem_map.mp hv
    exact (unit_of_mem_legs htolerance hseed hforward hvisit).2.2

end

/-- What keeps a tessellation on the unit sphere: the steps, the projections and the vertices. -/
structure OnUnitSphere (plan : Plan ℝ) (t : Tessellation ℝ) : Prop where
  stride : ∀ (delta : ℝ) (p q : Point ℝ), plan.stride? delta p = some q →
    q.normSq = p.normSq + delta ^ 2
  /-- What is handed to the projection, and what comes back from it. -/
  visit : ∀ visit ∈ plan.visits, visit.start.normSq = 1 + plan.config.step ^ 2 ∧
    visit.start ≠ zero ∧ visit.projection.point.norm = 1
  vertex : ∀ branch ∈ t.branches, ∀ v ∈ branch.vertices, v.norm = 1

theorem onUnitSphere_tessellate {plan : Plan ℝ} (hsphere : plan.embedding = .projective)
    (htolerance : 0 < plan.config.vertexTolerance)
    (hseeds : ∀ seed ∈ plan.curve.seeds, seed ≠ zero) :
    plan.OnUnitSphere plan.tessellate.value := by
  refine ⟨fun delta p q => normSq_of_stride, ?visit, ?vertex⟩
  case visit =>
    intro visit hmem
    obtain ⟨seed, hseed, hlegs⟩ := List.mem_flatMap.mp hmem
    obtain ⟨route, hroute, hvisit⟩ := List.mem_flatMap.mp hlegs
    exact unit_of_mem_legs htolerance (hseeds seed hseed) hroute hvisit
  case vertex =>
    intro branch hbranch v hv
    cases plan.stitched_tessellate.origin hbranch with
    | oval hseed hother hfirst hsecond =>
      obtain hv | hv := mem_oval hv
      · exact norm_of_half hsphere htolerance (hseeds _ hseed) hfirst hv
      · exact norm_of_half hsphere htolerance (hseeds _ hother) hsecond hv
    | escaped hseed hfate => exact norm_of_escaped hsphere htolerance (hseeds _ hseed) hfate hv
    | left hseed hfate => exact norm_of_half hsphere htolerance (hseeds _ hseed) hfate hv

theorem vertexTolerance_pos {config : TraceConfig ℝ} (hvalid : config.isValid = true) :
    0 < config.vertexTolerance := by
  simp only [TraceConfig.isValid, TraceConfig.isPositive, Bool.and_eq_true,
    decide_eq_true_eq] at hvalid
  norm_num at hvalid
  exact hvalid.1.1.1.2.2

/-- On an accepted curve the vertices of a tessellation on the sphere have length one. -/
theorem tessellateWith_onUnitSphere {equation : Equation ℝ} {curve : Curve ℝ}
    (haccepted : Curve.ofEquation equation = .ok curve) {config : TraceConfig ℝ}
    (hvalid : config.isValid = true) :
    ∃ t, curve.tessellateWith .projective config = .ok t ∧
      (Plan.mk curve .projective config).OnUnitSphere t.value :=
  ⟨_, tessellateWith_eq curve .projective config hvalid,
    onUnitSphere_tessellate rfl (vertexTolerance_pos hvalid) fun _ =>
      Curve.ne_zero_of_mem_seeds haccepted⟩

/-- The curve `y² = x³ + 1` with the default configuration. The trace of its seed `(-1, 0)` leaves
along the tangent `x = -1`. -/
theorem onUnitSphere_zero_one :
    let curve : Curve ℝ := ⟨.weierstrass 0 1, [⟨-1, 0.0, 1.0⟩]⟩
    let plan : Plan ℝ := ⟨curve, .projective, .default⟩
    Curve.ofEquation (.weierstrass 0 1) = .ok curve ∧
      (TraceConfig.default : TraceConfig ℝ).isValid = true ∧
      ∃ t, curve.tessellateWith .projective .default = .ok t ∧ plan.OnUnitSphere t.value ∧
        2 ≤ t.value.vertexCount ∧
        ∃ visit ∈ plan.visits, visit.start = ⟨-(√2)⁻¹, 0.01, (√2)⁻¹⟩ ∧
          visit.start.normSq = 1.0001 ∧ visit.projection.point.norm = 1 := by
  intro curve plan
  have hvalid : (TraceConfig.default : TraceConfig ℝ).isValid = true := by
    norm_num [TraceConfig.isValid, TraceConfig.isPositive, TraceConfig.default, Scalar.isFinite]
  have hseed : (⟨-1, 0.0, 1.0⟩ : Point ℝ) ≠ zero :=
    Curve.ne_zero_of_mem_seeds Curve.accepted_zero_one List.mem_cons_self
  have hsqrt : (√2)⁻¹ ^ 2 = (2 : ℝ)⁻¹ := by rw [inv_pow, Real.sq_sqrt two_pos.le]
  have hpos : 0 < (√2 : ℝ)⁻¹ := inv_pos.mpr (Real.sqrt_pos.mpr two_pos)
  have hstart : (⟨-1, 0.0, 1.0⟩ : Point ℝ).normalize = ⟨-(√2)⁻¹, 0, (√2)⁻¹⟩ := by
    have hnorm : (⟨-1, 0.0, 1.0⟩ : Point ℝ).norm = √2 := by
      rw [norm_eq, normSq_eq]
      norm_num
    rw [normalize_eq hseed, hnorm]
    ext <;> norm_num
  have htangent : plan.tangent ⟨-(√2)⁻¹, 0, (√2)⁻¹⟩ = ⟨0, 3 * (√2)⁻¹, 0⟩ := by
    have hgradient : curve.equation.gradient ⟨-(√2)⁻¹, 0, (√2)⁻¹⟩ = ⟨3 / 2, 0, 3 / 2⟩ := by
      rw [Equation.gradient_weierstrass]
      ext <;> norm_num [hsqrt]
    rw [tangent, hgradient, cross_eq]
    ext <;> dsimp only <;> ring
  have hstride : plan.stride? plan.config.step (⟨-1, 0.0, 1.0⟩ : Point ℝ).normalize =
      some ⟨-(√2)⁻¹, 0.01, (√2)⁻¹⟩ := by
    have hlength : 0 < 3 * (√2 : ℝ)⁻¹ := mul_pos three_pos hpos
    have hnorm : (⟨0, 3 * (√2)⁻¹, 0⟩ : Point ℝ).norm = 3 * (√2)⁻¹ := by
      rw [norm_eq, normSq_eq, zero_pow two_ne_zero, zero_add, add_zero, Real.sqrt_sq hlength.le]
    have hquotient : Scalar.quotient? plan.config.step (3 * (√2)⁻¹) =
        some (plan.config.step / (3 * (√2)⁻¹)) := if_neg hlength.ne'
    rw [hstart, stride?, htangent, hnorm, hquotient, Option.map_some, move_eq]
    dsimp only
    rw [mul_div_cancel₀ _ hlength.ne', zero_mul, zero_add, add_zero, add_zero]
    rfl
  obtain ⟨t, ht, hsphere⟩ := tessellateWith_onUnitSphere Curve.accepted_zero_one hvalid
  have hleg : plan.visit ⟨-(√2)⁻¹, 0.01, (√2)⁻¹⟩ ∈ (plan.leg _ plan.config.step).visits :=
    visit_mem_leg rfl (by decide) hstride hpos.le
  have hvisit : plan.visit ⟨-(√2)⁻¹, 0.01, (√2)⁻¹⟩ ∈ plan.visits :=
    mem_visits_of_mem_leg rfl List.mem_cons_self hleg
  have hcount : 2 ≤ t.value.vertexCount := by
    have hadmitted : plan.curve.seeds.filter plan.admits = [⟨-1, 0.0, 1.0⟩] :=
      List.filter_eq_self.mpr fun seed _ => admits_of_projective rfl seed
    have hvisits := List.length_pos_of_mem hleg
    have htraced : (plan.leg _ plan.config.step).visits.length ≤ plan.traced ⟨-1, 0.0, 1.0⟩ :=
      length_visits_le_traced rfl _
    rw [tessellateWith_eq curve .projective .default hvalid] at ht
    rw [← Except.ok.inj ht, plan.vertexCount_tessellate, hadmitted, List.map_singleton,
      List.sum_singleton]
    omega
  obtain ⟨hlength, -, hunit⟩ := hsphere.visit _ hvisit
  refine ⟨Curve.accepted_zero_one, hvalid, t, ht, hsphere, hcount, _, hvisit, rfl, ?_, hunit⟩
  rw [hlength]
  norm_num [plan, TraceConfig.default]

end Plan

end EllipticPlot
