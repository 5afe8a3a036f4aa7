import EllipticPlot.Proofs.Mirror
import EllipticPlot.Proofs.SmoothCurve
import EllipticPlot.Proofs.Stitching
import EllipticPlot.Proofs.TraceRecord

/-!
# Mirrored traces

Tracing from a mirror image with the opposite step gives the mirror image of the trace: the tangent
of the image is the image of the tangent turned around, and every test of a step looks only at what
a mirror keeps. A seed is its own image in one of the mirrors, so its backward trace is the image
of its forward trace, and the branch through it is symmetric.
-/

namespace EllipticPlot

variable {α : Type}

/-! ### Maps of points -/

def Placement.map (f : Point α → Point α) : Placement α → Placement α
  | inside v => inside (f v)
  | onBorder v => onBorder (f v)
  | outOfPlane => outOfPlane

def Diagnostic.map (f : Point α → Point α) : Diagnostic α → Diagnostic α
  | projectionStalled start result residual? => projectionStalled (f start) (f result) residual?
  | unmatchedHalfLoop seed vertices => unmatchedHalfLoop (f seed) vertices
  | degenerateTangent point => degenerateTangent (f point)

def Visit.map (f : Point α → Point α) (visit : Visit α) : Visit α :=
  ⟨f visit.start, visit.projection.map f⟩

def Ending.map (f : Point α → Point α) : Ending α → Ending α
  | noTangent position => noTangent (f position)
  | infinity reached => infinity (f reached)
  | crossing => crossing
  | clipped => clipped
  | exhausted => exhausted

def Route.map (f : Point α → Point α) (route : Route α) : Route α :=
  ⟨route.visits.map (Visit.map f), route.ending.map f⟩

def TraceRecord.map (f : Point α → Point α) (record : TraceRecord α) : TraceRecord α where
  vertices := record.vertices.map f
  outcome := record.outcome
  diagnostics := record.diagnostics.map (Diagnostic.map f)

section

variable (f : Point α → Point α)

@[simp] theorem Placement.isInside_map (placement : Placement α) :
    (placement.map f).isInside = placement.isInside := by
  cases placement <;> rfl

@[simp] theorem Placement.vertex?_map (placement : Placement α) :
    (placement.map f).vertex? = placement.vertex?.map f := by
  cases placement <;> rfl

@[simp] theorem Ending.outcome_map (ending : Ending α) :
    (ending.map f).outcome = ending.outcome := by
  cases ending <;> rfl

theorem Ending.report?_map (ending : Ending α) :
    (ending.map f).report? = ending.report?.map (Diagnostic.map f) := by
  cases ending <;> rfl

theorem Visit.report?_map (visit : Visit α) :
    (visit.map f).report? = visit.report?.map (Diagnostic.map f) := by
  have hconverged : (visit.map f).projection.converged = visit.projection.converged := rfl
  rw [report?, report?, hconverged]
  split <;> rfl

theorem Route.map_after (visit : Visit α) (route : Route α) :
    (route.after visit).map f = (route.map f).after (visit.map f) := rfl

theorem Route.reports_map (route : Route α) :
    (route.map f).reports = route.reports.map (Diagnostic.map f) := by
  have hvisits : (route.visits.map (Visit.map f)).filterMap Visit.report? =
      (route.visits.filterMap Visit.report?).map (Diagnostic.map f) := by
    rw [List.filterMap_map, List.map_filterMap]
    exact List.filterMap_congr fun visit _ => visit.report?_map f
  have hending : (route.ending.map f).report?.toList =
      route.ending.report?.toList.map (Diagnostic.map f) := by
    rw [Ending.report?_map, Option.toList_map]
  rw [reports, reports, List.map_append, ← hvisits, ← hending]
  rfl

end

/-! ### Steps -/

theorem quotient?_neg (x y : ℝ) : Scalar.quotient? (-x) y = (Scalar.quotient? x y).map Neg.neg := by
  change (if y = 0 then none else some (-x / y)) = (if y = 0 then none else some (x / y)).map _
  split
  · rfl
  · rw [neg_div, Option.map_some]

theorem Mirror.place_image (m : Mirror) (embedding : Embedding ℝ) (minZ : ℝ) (p : Point ℝ) :
    embedding.place minZ (m.image p) = (embedding.place minZ p).map m.image := by
  have habs : ∀ x : ℝ, Scalar.abs (-x) = Scalar.abs x := abs_neg
  cases embedding with
  | projective => rfl
  | affine boundary =>
    rw [Embedding.place, Embedding.place, m.image_z]
    cases m <;> simp only [Mirror.image, Point.mirrorX, Point.mirrorY, neg_div, habs] <;>
      split_ifs <;> rfl

theorem unitSign_neg {x : ℝ} (hx : x ≠ 0) : Scalar.unitSign (-x) = -Scalar.unitSign x := by
  change (if -x < 0 then (-1 : ℝ) else 1) = -(if x < 0 then (-1 : ℝ) else 1)
  obtain hneg | hpos := lt_or_gt_of_ne hx
  · rw [if_neg (by linarith), if_pos hneg, neg_neg]
  · rw [if_pos (by linarith), if_neg (by linarith)]

/-- Off the axis `x = y = 0` the marker of a mirror image is the image of the marker. -/
theorem Mirror.axisMarker_image (m : Mirror) {p : Point ℝ} (hp : p.x ≠ 0 ∨ p.y ≠ 0) :
    (m.image p).axisMarker = m.image p.axisMarker := by
  have habs : ∀ x : ℝ, Scalar.abs (-x) = Scalar.abs x := abs_neg
  have hzero : -(0.0 : ℝ) = 0.0 := by norm_num
  by_cases hdominates : Scalar.abs p.y < Scalar.abs p.x
  · have hx : p.x ≠ 0 := abs_pos.mp (lt_of_le_of_lt (abs_nonneg p.y) hdominates)
    cases m
    · simp only [image, Point.axisMarker, Point.mirrorX, habs, if_pos hdominates, unitSign_neg hx]
    · simp only [image, Point.axisMarker, Point.mirrorY, habs, if_pos hdominates, hzero]
  · have hy : p.y ≠ 0 := by
      rintro hy
      refine hp.elim (fun hx => hdominates ?_) (· hy)
      change |p.y| < |p.x|
      rwa [hy, abs_zero, abs_pos]
    cases m
    · simp only [image, Point.axisMarker, Point.mirrorX, habs, if_neg hdominates, hzero]
    · simp only [image, Point.axisMarker, Point.mirrorY, habs, if_neg hdominates, unitSign_neg hy]

namespace Plan

section

variable {plan : Plan ℝ} {m : Mirror} (hsymmetric : plan.curve.equation.SymmetricIn m)

include hsymmetric

theorem tangent_image (p : Point ℝ) :
    plan.tangent (m.image p) = (m.image (plan.tangent p)).scale (-1) := by
  rw [tangent, tangent, Equation.gradient_image hsymmetric, m.cross_image]

theorem stride?_image (delta : ℝ) (p : Point ℝ) :
    plan.stride? (-delta) (m.image p) = (plan.stride? delta p).map m.image := by
  have hnorm : (plan.tangent (m.image p)).norm = (plan.tangent p).norm := by
    rw [tangent_image hsymmetric, Point.norm_scale, m.norm_image, abs_neg, abs_one, one_mul]
  have hmove : ∀ amount : ℝ, (m.image p).move (-amount) (plan.tangent (m.image p)) =
      m.image (p.move amount (plan.tangent p)) := by
    intro amount
    rw [tangent_image hsymmetric, m.image_move, Point.move_eq, Point.move_eq]
    simp
  rw [stride?, stride?, hnorm, quotient?_neg, Option.map_map, Option.map_map]
  exact congrArg (Option.map · _) (funext hmove)

theorem visit_image (start : Point ℝ) :
    plan.visit (m.image start) = (plan.visit start).map m.image :=
  congrArg (Visit.mk (m.image start)) (Equation.projectWithin_image hsymmetric _ _ start)

omit hsymmetric in
theorem crosses_image (lastY? : Option ℝ) (p : Point ℝ) :
    crosses (lastY?.map m.imageY) (m.image p) = crosses lastY? p := by
  cases lastY? with
  | none => rfl
  | some y =>
    rw [Option.map_some, crosses, crosses, Option.any_some, Option.any_some, m.image_y,
      m.imageY_mul]

omit hsymmetric in
theorem placement_image (visit : Visit ℝ) :
    plan.placement (visit.map m.image) = (plan.placement visit).map m.image :=
  m.place_image plan.embedding plan.config.minAffineZ visit.projection.point

/-- A walk from a mirror image with the opposite step takes the mirror image of the route. -/
theorem route_image (delta : ℝ) (count : ℕ) (position : Point ℝ) (lastY? : Option ℝ) :
    plan.route (-delta) count (m.image position) (lastY?.map m.imageY) =
      (plan.route delta count position lastY?).map m.image := by
  induction count generalizing position lastY? with
  | zero => rfl
  | succ count ih =>
    have hstride := stride?_image hsymmetric delta position
    cases hstart : plan.stride? delta position with
    | none =>
      rw [hstart, Option.map_none] at hstride
      rw [route_of_no_stride count hstart, route_of_no_stride count hstride]
      rfl
    | some start =>
      rw [hstart, Option.map_some] at hstride
      have hz : (m.image start).z = start.z := m.image_z start
      have hcrosses := crosses_image (m := m) lastY? start
      by_cases hbelow : start.z < 0.0
      · rw [route_of_below count hstart hbelow, route_of_below count hstride (hz.symm ▸ hbelow)]
        rfl
      by_cases hcross : crosses lastY? start = true
      · rw [route_of_crosses count hstart hbelow hcross,
          route_of_crosses count hstride (hz.symm ▸ hbelow) (hcrosses.trans hcross)]
        rfl
      have hbelow' : ¬ (m.image start).z < 0.0 := hz.symm ▸ hbelow
      have hcross' : ¬ crosses (lastY?.map m.imageY) (m.image start) = true := hcrosses ▸ hcross
      have hinside : (plan.placement (plan.visit (m.image start))).isInside =
          (plan.placement (plan.visit start)).isInside := by
        rw [visit_image hsymmetric, placement_image, Placement.isInside_map]
      by_cases hkept : (plan.placement (plan.visit start)).isInside = true
      · rw [route_of_inside count hstart hbelow hcross hkept,
          route_of_inside count hstride hbelow' hcross' (hinside.trans hkept),
          visit_image hsymmetric, Route.map_after, ← ih, Option.map_some, ← m.image_y]
        rfl
      · rw [route_of_outside count hstart hbelow hcross hkept,
          route_of_outside count hstride hbelow' hcross' (hinside ▸ hkept),
          visit_image hsymmetric]
        rfl

theorem leg_image (seed : Point ℝ) (delta : ℝ) :
    plan.leg (m.image seed) (-delta) = (plan.leg seed delta).map m.image :=
  route_image hsymmetric delta plan.config.maxSteps seed none

end

/-! ### Traces -/

/-- A step into infinity, where it is marked, does not land on the axis `x = y = 0`. -/
def AvoidsAxis (plan : Plan ℝ) (route : Route ℝ) : Prop :=
  plan.embedding.showsInfinity = true → ∀ reached : Point ℝ,
    route.ending = .infinity reached → reached.x ≠ 0 ∨ reached.y ≠ 0

variable {plan : Plan ℝ} {m : Mirror}

theorem drawn_image {route : Route ℝ} (havoids : plan.AvoidsAxis route) :
    plan.drawn (route.map m.image) = (plan.drawn route).map m.image := by
  have hvisits : (route.visits.map (Visit.map m.image)).filterMap
      (fun visit => (plan.placement visit).vertex?) =
        (route.visits.filterMap fun visit => (plan.placement visit).vertex?).map m.image := by
    rw [List.filterMap_map, List.map_filterMap]
    refine List.filterMap_congr fun visit _ => ?_
    rw [Function.comp_apply, placement_image, Placement.vertex?_map]
  have hmarker : plan.marker? (route.ending.map m.image) =
      (plan.marker? route.ending).map m.image := by
    cases hending : route.ending with
    | infinity reached =>
      rw [Ending.map, marker?, marker?]
      split
      · next hshows => rw [m.axisMarker_image (havoids hshows reached hending), Option.map_some]
      · rfl
    | _ => rfl
  rw [drawn, drawn, List.map_append, ← hvisits, ← Option.toList_map, ← hmarker]
  rfl

theorem drawn_leg_image (hsymmetric : plan.curve.equation.SymmetricIn m) {seed : Point ℝ}
    {delta : ℝ} (havoids : plan.AvoidsAxis (plan.leg seed delta)) :
    plan.drawn (plan.leg (m.image seed) (-delta)) =
      (plan.drawn (plan.leg seed delta)).map m.image := by
  rw [leg_image hsymmetric, drawn_image havoids]

/-- The record of the mirrored trace is the mirror image of the record. -/
theorem along_leg_image (hsymmetric : plan.curve.equation.SymmetricIn m) {seed : Point ℝ}
    {delta : ℝ} (havoids : plan.AvoidsAxis (plan.leg seed delta)) :
    plan.along (plan.leg (m.image seed) (-delta)) =
      (plan.along (plan.leg seed delta)).map m.image := by
  rw [along, along, drawn_leg_image hsymmetric havoids, leg_image hsymmetric, Route.reports_map,
    Route.map, Ending.outcome_map]
  rfl

/-! ### Steps onto the axis -/

/-- A step onto the axis `x = y = 0` below the plane `z = 0` comes from below this plane. -/
theorem z_neg_of_stride_to_axis {delta : ℝ} {p start : Point ℝ}
    (hstride : plan.stride? delta p = some start) (hbelow : start.z < 0)
    (haxis : start.x = 0 ∧ start.y = 0) : p.z < 0 := by
  obtain ⟨amount, hamount, rfl⟩ := stride?_eq_some hstride
  -- the tangent is normal to `p`, so `p` and the point that is reached have the product `p · p`
  have hnormal : p.dot (p.move amount (plan.tangent p)) = p.normSq := by
    rw [Point.normSq_eq, Point.dot_eq, Point.move_eq, tangent, Point.cross_eq]
    ring
  rw [Point.dot_eq, haxis.1, haxis.2, mul_zero, mul_zero, zero_add, zero_add] at hnormal
  by_contra hz
  have hle : p.normSq ≤ 0 := hnormal ▸ mul_nonpos_of_nonneg_of_nonpos (not_lt.mp hz) hbelow.le
  have hzero : p = Point.zero := Point.normSq_eq_zero.mp (le_antisymm hle p.normSq_nonneg)
  have htangent : (plan.tangent p).norm = 0 := by
    rw [Point.norm_eq, Real.sqrt_eq_zero (Point.normSq_nonneg _), Point.normSq_eq_zero, tangent,
      hzero, Point.zero_eq, Point.cross_eq]
    simp
  rw [htangent] at hamount
  simp [Scalar.quotient?] at hamount

/-- A walk that stays above the plane `z = 0` does not run into infinity on the axis. -/
theorem off_axis_of_upper {delta : ℝ} {count : ℕ} {position reached : Point ℝ} {lastY? : Option ℝ}
    (hposition : 0 ≤ position.z)
    (hvisits : ∀ visit ∈ (plan.route delta count position lastY?).visits,
      0 ≤ visit.projection.point.z)
    (hending : (plan.route delta count position lastY?).ending = .infinity reached) :
    reached.x ≠ 0 ∨ reached.y ≠ 0 := by
  have hbelow := plan.below_of_infinity hending
  fun_induction plan.route delta count position lastY? with
  | case1 | case2 | case4 | case6 => cases hending
  | case3 count position lastY? start hstride =>
    obtain rfl := Ending.infinity.inj hending
    norm_num at hbelow
    by_contra haxis
    rw [not_or, not_not, not_not] at haxis
    exact absurd (z_neg_of_stride_to_axis hstride hbelow haxis) (not_lt.mpr hposition)
  | case5 count position lastY? start _ _ _ visited here _ ih =>
    rw [Route.after_visits] at hvisits
    exact ih (hvisits visited List.mem_cons_self)
      (fun visit hmem => hvisits visit (List.mem_cons_of_mem visited hmem)) hending

/-- A walk that runs into infinity has not used up its steps. -/
theorem length_visits_lt_of_infinity {delta : ℝ} {count : ℕ} {position reached : Point ℝ}
    {lastY? : Option ℝ}
    (hending : (plan.route delta count position lastY?).ending = .infinity reached) :
    (plan.route delta count position lastY?).visits.length < count := by
  fun_induction plan.route delta count position lastY? with
  | case1 | case2 | case4 | case6 => cases hending
  | case3 count => exact Nat.succ_pos count
  | case5 count position lastY? start _ _ _ visited here _ ih => exact Nat.succ_lt_succ (ih hending)

/-! ### Tessellations -/

/-- How mirrors act on the traces of a plan and on the tessellation that is made of them. -/
structure Mirrored (plan : Plan ℝ) (t : Tessellation ℝ) : Prop where
  trace : ∀ m : Mirror, plan.curve.equation.SymmetricIn m → ∀ (seed : Point ℝ) (delta : ℝ),
    plan.AvoidsAxis (plan.leg seed delta) → ∃ record, plan.record seed delta = .ok record ∧
      plan.record (m.image seed) (-delta) = .ok (record.map m.image)
  /-- The backward trace of a seed ends as the forward trace, so it needs no look. -/
  outcome : ∀ seed ∈ plan.curve.seeds, ∃ forward backward,
    plan.record seed.normalize plan.config.step = .ok forward ∧
      plan.record seed.normalize (-plan.config.step) = .ok backward ∧
      backward.outcome = forward.outcome
  /-- The open branch of an escaped seed, read backwards, is its own mirror image. -/
  branch : ∀ seed ∈ plan.curve.seeds, ∀ vertices : Array (Point ℝ),
    plan.fate seed = .escaped vertices → Branch.mk vertices false ∈ t.branches ∧
      (plan.AvoidsAxis (plan.leg seed.normalize plan.config.step) →
        ∃ m : Mirror, plan.curve.equation.SymmetricIn m ∧ m.image seed = seed ∧
          vertices.toList.reverse = vertices.toList.map m.image)

/-- A seed lies in the plane of one of the mirrors. -/
theorem exists_mirror_of_mem_seeds {equation : Equation ℝ} {curve : Curve ℝ}
    (haccepted : Curve.ofEquation equation = .ok curve) {seed : Point ℝ}
    (hseed : seed ∈ curve.seeds) :
    ∃ m : Mirror, curve.equation.SymmetricIn m ∧ m.image seed = seed := by
  have hzero : -(0.0 : ℝ) = 0.0 := by norm_num
  rw [Curve.equation_of_accepted haccepted]
  obtain hy | ⟨hedwards, hx⟩ := Curve.axis_of_mem_seeds haccepted hseed
  · refine ⟨.y, trivial, ?_⟩
    rw [Mirror.image, Point.mirrorY_eq, hy, hzero, ← hy]
  · refine ⟨.x, hedwards, ?_⟩
    rw [Mirror.image, Point.mirrorX_eq, hx, hzero, ← hx]

section

variable (hsymmetric : plan.curve.equation.SymmetricIn m) {seed : Point ℝ}
  (hfixed : m.image seed = seed)

include hsymmetric hfixed

theorem outcome_of_fixed (delta : ℝ) :
    (plan.leg seed (-delta)).ending.outcome = (plan.leg seed delta).ending.outcome := by
  have hleg := leg_image hsymmetric seed delta
  rw [hfixed] at hleg
  rw [hleg, Route.map, Ending.outcome_map]

theorem symmetric_of_escaped {vertices : Array (Point ℝ)}
    (hfate : plan.fate seed = .escaped vertices)
    (havoids : plan.AvoidsAxis (plan.leg seed.normalize plan.config.step)) :
    vertices.toList.reverse = vertices.toList.map m.image := by
  have hp : m.image seed.normalize = seed.normalize := m.image_normalize_of_fixed hfixed
  obtain ⟨first, hplace, -, hvertices⟩ := of_fate_escaped hfate
  have hfirst : m.image first = first := by
    have himage := m.place_image plan.embedding plan.config.minAffineZ seed.normalize
    rw [hp, hplace] at himage
    exact (Placement.inside.inj himage).symm
  have hbackward := drawn_leg_image hsymmetric havoids
  rw [hp] at hbackward
  have htwice : ∀ points : List (Point ℝ), (points.map m.image).map m.image = points := by
    intro points
    rw [List.map_map]
    exact List.map_id'' m.image_image points
  rw [hvertices, hbackward, List.map_append, List.map_cons, htwice, hfirst, List.map_reverse]
  simp

end

/-- Tracing commutes with the mirrors of an accepted curve. -/
theorem tessellateWith_mirrored {equation : Equation ℝ} {curve : Curve ℝ}
    (haccepted : Curve.ofEquation equation = .ok curve) (embedding : Embedding ℝ)
    {config : TraceConfig ℝ} (hvalid : config.isValid = true) :
    ∃ t, curve.tessellateWith embedding config = .ok t ∧
      (Plan.mk curve embedding config).Mirrored t.value := by
  refine ⟨_, tessellateWith_eq curve embedding config hvalid, ?trace, ?outcome, ?branch⟩
  case trace =>
    intro m hsymmetric seed delta havoids
    refine ⟨_, record_eq _ hvalid seed delta, ?_⟩
    rw [record_eq _ hvalid, along_leg_image hsymmetric havoids]
  case outcome =>
    intro seed hseed
    obtain ⟨m, hsymmetric, hfixed⟩ := exists_mirror_of_mem_seeds haccepted hseed
    exact ⟨_, _, record_eq _ hvalid _ _, record_eq _ hvalid _ _,
      outcome_of_fixed hsymmetric (m.image_normalize_of_fixed hfixed) config.step⟩
  case branch =>
    intro seed hseed vertices hfate
    refine ⟨(stitched_tessellate _).mem_of_escaped hseed hfate, fun havoids => ?_⟩
    obtain ⟨m, hsymmetric, hfixed⟩ := exists_mirror_of_mem_seeds haccepted hseed
    exact ⟨m, hsymmetric, hfixed, symmetric_of_escaped hsymmetric hfixed hfate havoids⟩

/-- The curve `y² = x³ + 1` on the sphere, with walks of one step. -/
theorem mirrored_zero_one :
    let curve : Curve ℝ := ⟨.weierstrass 0 1, [⟨-1, 0.0, 1.0⟩]⟩
    let config : TraceConfig ℝ := { TraceConfig.default with maxSteps := 1 }
    let plan : Plan ℝ := ⟨curve, .projective, config⟩
    Curve.ofEquation (.weierstrass 0 1) = .ok curve ∧ config.isValid = true ∧
      plan.AvoidsAxis (plan.leg (Point.normalize ⟨-1, 0.0, 1.0⟩) config.step) ∧
      ∃ t, curve.tessellateWith .projective config = .ok t ∧ plan.Mirrored t.value := by
  intro curve config plan
  have hvalid : config.isValid = true := by
    norm_num [config, TraceConfig.isValid, TraceConfig.isPositive, TraceConfig.default,
      Scalar.isFinite]
  refine ⟨Curve.accepted_zero_one, hvalid, ?_,
    tessellateWith_mirrored Curve.accepted_zero_one .projective hvalid⟩
  intro _ reached hending
  have hseed : (0 : ℝ) ≤ (Point.normalize ⟨-1, 0.0, 1.0⟩ : Point ℝ).z := by
    have hne : (⟨-1, 0.0, 1.0⟩ : Point ℝ) ≠ Point.zero := by
      rw [Ne, Point.eq_zero_iff]
      norm_num
    rw [Point.normalize_eq hne, Point.scale_z]
    exact mul_nonneg (by norm_num) (inv_nonneg.mpr (Point.norm_pos hne).le)
  have hnone : (plan.leg (Point.normalize ⟨-1, 0.0, 1.0⟩) config.step).visits = [] :=
    List.length_eq_zero_iff.mp (Nat.lt_one_iff.mp (length_visits_lt_of_infinity hending))
  refine off_axis_of_upper hseed (fun visit hmem => ?_) hending
  rw [leg] at hnone
  rw [hnone] at hmem
  cases hmem

end Plan

end EllipticPlot
