import EllipticPlot.Proofs.Binary64Null
import EllipticPlot.Proofs.Newton
import EllipticPlot.Proofs.Stitching
import EllipticPlot.Proofs.Strides

/-!
# Provenance

Where the vertices of a tessellation on the sphere come from, and what the diagnostics say about
them. A vertex is the seed of its branch, a marker at an end of an open branch, or a projection
that met the tolerance or was reported with its residual; the reports are those of the visits, in
the order of the traces.
-/

namespace EllipticPlot

variable {α : Type}

def Diagnostic.isStalled : Diagnostic α → Bool
  | .projectionStalled .. => true
  | _ => false

@[simp] theorem isStalled_stall (visit : Visit α) : visit.stall.isStalled = true := rfl

namespace Route

theorem isStalled_of_report? {visit : Visit α} {diagnostic : Diagnostic α}
    (h : visit.report? = some diagnostic) : diagnostic.isStalled = true := by
  rw [Visit.report?] at h
  split at h
  · cases h
  · rw [← Option.some.inj h]
    rfl

theorem filter_stalled_reports (route : Route α) :
    route.reports.filter Diagnostic.isStalled =
      (route.visits.filter (!·.projection.converged)).map Visit.stall := by
  rw [Route.reports]
  have hending : route.ending.report?.toList.filter Diagnostic.isStalled = [] := by
    cases route.ending <;> rfl
  rw [List.filter_append, hending, List.append_nil]
  induction route.visits with
  | nil => rfl
  | cons visit visits ih =>
    cases hconverged : visit.projection.converged with
    | true => simp [Visit.report?, hconverged, ih]
    | false =>
      have hreport : visit.report? = some visit.stall := by simp [Visit.report?, hconverged]
      rw [List.filterMap_cons_some hreport, List.filter_cons_of_pos (isStalled_stall visit), ih]
      simp [hconverged]

/-- Only the end of a walk is reported as a place without tangent. -/
theorem reports_of_degenerate {route : Route α} {q : Point α}
    (h : .degenerateTangent q ∈ route.reports) :
    route.ending = .noTangent q ∧
      route.reports = route.visits.filterMap Visit.report? ++ [.degenerateTangent q] := by
  rw [Route.reports] at h ⊢
  obtain hvisit | hending := List.mem_append.mp h
  · obtain ⟨visit, -, hreport⟩ := List.mem_filterMap.mp hvisit
    exact nomatch isStalled_of_report? hreport
  · cases hcase : route.ending with
    | noTangent position =>
      rw [hcase] at hending
      have hq := List.mem_singleton.mp hending
      rw [Diagnostic.degenerateTangent.inj hq]
      exact ⟨rfl, rfl⟩
    | _ =>
      rw [hcase] at hending
      cases hending

end Route

namespace Plan

variable [Scalar α]

def visits (plan : Plan α) : List (Visit α) :=
  plan.curve.seeds.flatMap fun seed => (plan.legs seed).flatMap Route.visits

/-- The branch is drawn from traces one of which starts at this seed. -/
inductive StartsAt (plan : Plan α) (seed : Point α) : Branch α → Prop
  | escaped {vertices : Array (Point α)} (h : plan.fate seed = .escaped vertices) :
    StartsAt plan seed ⟨vertices, false⟩
  | alone {half : HalfLoop α} (h : plan.fate seed = .half half) : StartsAt plan seed half.alone
  | first {half : HalfLoop α} (other : HalfLoop α) (h : plan.fate seed = .half half) :
    StartsAt plan seed (half.oval other)
  | second {half : HalfLoop α} (other : HalfLoop α) (h : plan.fate seed = .half half) :
    StartsAt plan seed (other.oval half)

/-- The projection met the tolerance, or it was reported with its residual; a start that is not
finite has no residual. -/
def Judged (plan : Plan α) (diagnostics : Array (Diagnostic α)) (start v : Point α) : Prop :=
  Scalar.abs (plan.curve.equation.residual v) < plan.config.vertexTolerance ∨
    .projectionStalled start v
      (if start.isFinite then some (plan.curve.equation.residual v) else none) ∈ diagnostics

/-- Where the vertex `v` at place `i` of a branch comes from. -/
inductive Source (plan : Plan α) (diagnostics : Array (Diagnostic α)) (branch : Branch α) (i : Nat)
    (v : Point α) : Prop
  /-- It is the unit representative of the branch's seed. -/
  | seed (s : Point α) (hmem : s ∈ plan.curve.seeds) (hstart : plan.StartsAt s branch)
      (hv : v = s.normalize)
  /-- It marks infinity, at one of the ends of an open branch. -/
  | marker (reached : Point α) (hbelow : reached.z < 0.0) (hopen : branch.closed = false)
      (hend : i = 0 ∨ i + 1 = branch.vertices.size) (hv : v = reached.axisMarker)
  /-- It is the projection of a point that a step reached. -/
  | projection (visit : Visit α) (hmem : visit ∈ plan.visits)
      (hprojection : visit.projection = plan.projectVertex visit.start)
      (hv : v = visit.projection.point) (hjudged : plan.Judged diagnostics visit.start v)

/-- Vertices and diagnostics are accounted for by each other. -/
structure Accounted (plan : Plan α) (t : Tessellation α) : Prop where
  vertex : ∀ branch ∈ t.branches, ∀ (i : Nat) (v : Point α), branch.vertices[i]? = some v →
    plan.Source t.diagnostics branch i v
  /-- A trace appends the points of its visits, and a marker if it runs into infinity. -/
  traced : ∀ (seed : Point α) (delta : α), (plan.trace seed delta).1.toList =
    (plan.leg seed delta).visits.map (·.projection.point) ++
      (plan.marker? (plan.leg seed delta).ending).toList
  /-- The stalled projections are the visits that did not converge, in order. -/
  stalled : t.diagnostics.toList.filter Diagnostic.isStalled =
    (plan.visits.filter (!·.projection.converged)).map Visit.stall
  /-- What is reported is what the traces report, in order, and the half loop that is left. -/
  reported : t.diagnostics.toList =
    (plan.curve.seeds.flatMap fun seed => (plan.directions seed).flatMap fun delta =>
      (plan.traceReports seed.normalize delta).toList) ++
      plan.left?.toList.map HalfLoop.report
  /-- A trace ends where it finds no tangent: this is its last report, at its last point. -/
  degenerate : ∀ (seed : Point α) (delta : α) (q : Point α),
    .degenerateTangent q ∈ plan.traceReports seed delta →
      (∃ stalls : List (Diagnostic α), (∀ stall ∈ stalls, stall.isStalled = true) ∧
        (plan.traceReports seed delta).toList = stalls ++ [.degenerateTangent q]) ∧
      (plan.trace seed delta).2 = .escaped ∧
      q = (plan.trace seed delta).1.back?.getD seed

/-! ### Traces on the sphere -/

section

variable {plan : Plan α} (hsphere : plan.embedding = .projective)

include hsphere

theorem trace_of_projective (seed : Point α) (delta : α) :
    (plan.trace seed delta).1.toList =
      (plan.leg seed delta).visits.map (·.projection.point) ++
        (plan.marker? (plan.leg seed delta).ending).toList := by
  rw [trace_eq, ← drawn_of_projective hsphere]

theorem place_of_projective (p : Point α) :
    plan.embedding.place plan.config.minAffineZ p = .inside p := by
  rw [hsphere]
  rfl

theorem admits_of_projective (seed : Point α) : plan.admits seed = true := by
  rw [admits]
  rw [place_of_projective hsphere]
  rfl

omit hsphere in
theorem exists_below_of_marker? {seed : Point α} {route : Route α} (hroute : route ∈ plan.legs seed)
    {v : Point α} (h : plan.marker? route.ending = some v) :
    ∃ reached : Point α, reached.z < 0.0 ∧ v = reached.axisMarker := by
  obtain ⟨delta, -, rfl⟩ := List.mem_map.mp hroute
  unfold marker? at h
  split at h
  · next reached hending =>
    split at h
    · exact ⟨reached, plan.below_of_infinity hending, (Option.some.inj h).symm⟩
    · cases h
  · cases h

/-- The vertices of an open branch: the forward trace backwards, the seed, the backward trace. -/
theorem vertices_of_escaped {seed : Point α} {vertices : Array (Point α)}
    (h : plan.fate seed = .escaped vertices) :
    ∃ forward ∈ plan.legs seed, ∃ backward ∈ plan.legs seed,
      vertices.toList =
        (plan.marker? forward.ending).toList ++
          ((forward.visits.map (·.projection.point)).reverse ++ seed.normalize ::
            backward.visits.map (·.projection.point)) ++
          (plan.marker? backward.ending).toList := by
  obtain ⟨first, hplace, houtcome, hvertices⟩ := of_fate_escaped h
  rw [place_of_projective hsphere] at hplace
  obtain rfl := Placement.inside.inj hplace
  rw [legs, directions]
  rw [if_pos (admits_of_projective hsphere seed), trace_eq, houtcome]
  refine ⟨plan.leg seed.normalize plan.config.step, by simp,
    plan.leg seed.normalize (-plan.config.step), by simp, ?_⟩
  rw [hvertices, drawn_of_projective hsphere, drawn_of_projective hsphere]
  cases plan.marker? (plan.leg seed.normalize plan.config.step).ending <;> simp

theorem vertices_of_half {seed : Point α} {half : HalfLoop α}
    (h : plan.fate seed = .half half) :
    ∃ forward ∈ plan.legs seed,
      half.vertices.toList = seed.normalize :: forward.visits.map (·.projection.point) := by
  obtain ⟨first, hplace, hending, hvertices⟩ := of_fate_half h
  rw [place_of_projective hsphere] at hplace
  obtain rfl := Placement.inside.inj hplace
  rw [legs, directions]
  rw [if_pos (admits_of_projective hsphere seed), trace_eq, hending]
  refine ⟨plan.leg seed.normalize plan.config.step, by simp [Ending.outcome], ?_⟩
  rw [hvertices, drawn_of_projective hsphere, hending]
  simp [marker?]

end

/-! ### Reports -/

theorem reports_eq (plan : Plan α) (seed : Point α) :
    plan.reports seed = (plan.directions seed).flatMap fun delta =>
      (plan.traceReports seed.normalize delta).toList := by
  rw [reports, legs]
  rw [List.flatMap_map]
  simp only [traceReports_eq]

/-- The reports of stalled projections are those of the visits, whatever the embedding. -/
theorem stalled_tessellate (plan : Plan α) :
    plan.tessellate.value.diagnostics.toList.filter Diagnostic.isStalled =
      (plan.visits.filter (!·.projection.converged)).map Visit.stall := by
  have hleft : ∀ left : List (HalfLoop α),
      (left.map HalfLoop.report).filter Diagnostic.isStalled = [] := by
    intro left
    simp [HalfLoop.report, Diagnostic.isStalled]
  rw [diagnostics_tessellate, List.filter_append, hleft, List.append_nil]
  unfold reports visits
  simp only [List.filter_flatMap, List.map_flatMap, Route.filter_stalled_reports]

theorem stall_mem_tessellate {plan : Plan α} {visit : Visit α} (hmem : visit ∈ plan.visits)
    (hconverged : visit.projection.converged = false) :
    visit.stall ∈ plan.tessellate.value.diagnostics := by
  have hstall : visit.stall ∈ plan.tessellate.value.diagnostics.toList.filter
      Diagnostic.isStalled := by
    rw [stalled_tessellate]
    exact List.mem_map_of_mem (List.mem_filter.mpr ⟨hmem, by rw [hconverged]; rfl⟩)
  exact Array.mem_toList_iff.mp (List.mem_of_mem_filter hstall)

theorem mem_visits {plan : Plan α} {seed : Point α} (hseed : seed ∈ plan.curve.seeds)
    {route : Route α} (hroute : route ∈ plan.legs seed) {visit : Visit α}
    (hvisit : visit ∈ route.visits) : visit ∈ plan.visits :=
  List.mem_flatMap.mpr ⟨seed, hseed, List.mem_flatMap.mpr ⟨route, hroute, hvisit⟩⟩

/-- A visit meets the tolerance or is among the stalled ones, with the residual of its point. -/
theorem judged_of_mem_visits [Scalar.LawfulZero α] {plan : Plan α}
    (haxis : ∀ seed ∈ plan.curve.seeds, plan.curve.equation.OnAxis seed.normalize)
    {diagnostics : Array (Diagnostic α)}
    (hstalled : ∀ visit ∈ plan.visits, visit.projection.converged = false →
      visit.stall ∈ diagnostics)
    {visit : Visit α} (hmem : visit ∈ plan.visits) :
    visit.projection = plan.projectVertex visit.start ∧
      plan.Judged diagnostics visit.start visit.projection.point := by
  obtain ⟨seed, hseed, hlegs⟩ := List.mem_flatMap.mp hmem
  obtain ⟨route, hroute, hvisit⟩ := List.mem_flatMap.mp hlegs
  obtain ⟨delta, -, rfl⟩ := List.mem_map.mp hroute
  have hprojection : visit.projection = plan.projectVertex visit.start :=
    congrArg Visit.projection (plan.visit_of_mem_route _ _ _ _ hvisit)
  refine ⟨hprojection, ?_⟩
  have hzero : (visit.start == Point.zero) = false :=
    plan.start_ne_zero delta _ _ none nofun (fun _ => haxis seed hseed) hvisit
  -- the start is not zero, so the projection has a residual unless the start is not finite
  cases hconverged : visit.projection.converged with
  | true =>
    left
    rw [hprojection] at hconverged ⊢
    exact Equation.abs_residual_lt_of_converged hconverged
  | false =>
    right
    have hresidual := Equation.projectWithin_residual? plan.curve.equation
      plan.config.maxIterations plan.config.vertexTolerance hzero
    have hstall := hstalled visit hmem hconverged
    rw [Visit.stall] at hstall
    rw [hprojection] at hstall ⊢
    rw [projectVertex] at hstall ⊢
    rw [hresidual] at hstall
    exact hstall

/-! ### Vertices -/

/-- An element of a framed list is inside, or the frame at the front or at the back. -/
theorem mem_of_getElem?_framed {β : Type} {front? back? : Option β} {middle : List β} {i : Nat}
    {v : β} (h : (front?.toList ++ middle ++ back?.toList)[i]? = some v) :
    v ∈ middle ∨ (front? = some v ∧ i = 0) ∨
      (back? = some v ∧ i + 1 = (front?.toList ++ middle ++ back?.toList).length) := by
  rw [List.getElem?_append] at h
  split at h
  · rw [List.getElem?_append] at h
    split at h
    · next hfront =>
      cases front? with
      | none => cases hfront
      | some front =>
        have hi : i = 0 := Nat.lt_one_iff.mp hfront
        subst hi
        exact .inr (.inl ⟨h, rfl⟩)
    · exact .inl (List.mem_of_getElem? h)
  · next hback =>
    cases back? with
    | none => simp at h
    | some back =>
      have hi : i - (front?.toList ++ middle).length = 0 := by
        obtain ⟨hlt, -⟩ := List.getElem?_eq_some_iff.mp h
        exact Nat.lt_one_iff.mp hlt
      rw [hi] at h
      refine .inr (.inr ⟨h, ?_⟩)
      rw [List.length_append, Option.toList_some, List.length_singleton]
      omega

/-! ### Branches -/

section

variable {plan : Plan α} (hsphere : plan.embedding = .projective)
  {diagnostics : Array (Diagnostic α)}
  (hjudged : ∀ visit ∈ plan.visits, visit.projection = plan.projectVertex visit.start ∧
    plan.Judged diagnostics visit.start visit.projection.point)

include hjudged

theorem source_of_mem_visits {seed : Point α} (hseed : seed ∈ plan.curve.seeds) {route : Route α}
    (hroute : route ∈ plan.legs seed) {branch : Branch α} {i : Nat} {v : Point α}
    (hv : v ∈ route.visits.map (·.projection.point)) : plan.Source diagnostics branch i v := by
  obtain ⟨visit, hvisit, rfl⟩ := List.mem_map.mp hv
  have hmem := mem_visits hseed hroute hvisit
  obtain ⟨hprojection, hjudge⟩ := hjudged visit hmem
  exact .projection visit hmem hprojection rfl hjudge

include hsphere

theorem source_of_escaped {seed : Point α} (hseed : seed ∈ plan.curve.seeds)
    {vertices : Array (Point α)} (hfate : plan.fate seed = .escaped vertices) {i : Nat}
    {v : Point α} (hv : vertices[i]? = some v) :
    plan.Source diagnostics ⟨vertices, false⟩ i v := by
  obtain ⟨forward, hforward, backward, hbackward, hvertices⟩ :=
    vertices_of_escaped hsphere hfate
  have hsize : vertices.size = vertices.toList.length := rfl
  rw [← Array.getElem?_toList, hvertices] at hv
  obtain hmiddle | ⟨hfront, hi⟩ | ⟨hback, hi⟩ := mem_of_getElem?_framed hv
  · obtain hmiddle | hmiddle := List.mem_append.mp hmiddle
    · exact source_of_mem_visits hjudged hseed hforward (List.mem_reverse.mp hmiddle)
    · obtain rfl | hmiddle := List.mem_cons.mp hmiddle
      · exact .seed seed hseed (.escaped hfate) rfl
      · exact source_of_mem_visits hjudged hseed hbackward hmiddle
  · obtain ⟨reached, hbelow, hv⟩ := exists_below_of_marker? hforward hfront
    exact .marker reached hbelow rfl (.inl hi) hv
  · obtain ⟨reached, hbelow, hv⟩ := exists_below_of_marker? hbackward hback
    rw [← hvertices, ← hsize] at hi
    exact .marker reached hbelow rfl (.inr hi) hv

theorem source_of_half {seed : Point α} (hseed : seed ∈ plan.curve.seeds) {half : HalfLoop α}
    (hfate : plan.fate seed = .half half) {branch : Branch α} (hstart : plan.StartsAt seed branch)
    {v : Point α} (hv : v ∈ half.vertices) (i : Nat) : plan.Source diagnostics branch i v := by
  obtain ⟨forward, hforward, hvertices⟩ := vertices_of_half hsphere hfate
  rw [← Array.mem_toList_iff, hvertices] at hv
  obtain rfl | hv := List.mem_cons.mp hv
  · exact .seed seed hseed hstart rfl
  · exact source_of_mem_visits hjudged hseed hforward hv

end

/-! ### Tessellations on the sphere -/

theorem source_of_mem_branches {plan : Plan α} (hsphere : plan.embedding = .projective)
    {diagnostics : Array (Diagnostic α)}
    (hjudged : ∀ visit ∈ plan.visits, visit.projection = plan.projectVertex visit.start ∧
      plan.Judged diagnostics visit.start visit.projection.point)
    {t : Tessellation α} (hstitched : plan.Stitched t) {branch : Branch α}
    (hbranch : branch ∈ t.branches) {i : Nat} {v : Point α} (hv : branch.vertices[i]? = some v) :
    plan.Source diagnostics branch i v := by
  cases hstitched.origin hbranch with
  | @oval seed other first second hseed hother hfate hotherFate =>
    obtain hv | hv := mem_oval (Array.mem_of_getElem? hv)
    · exact source_of_half hsphere hjudged hseed hfate (.first second hfate) hv i
    · exact source_of_half hsphere hjudged hother hotherFate (.second first hotherFate) hv i
  | escaped hseed hfate => exact source_of_escaped hsphere hjudged hseed hfate hv
  | left hseed hfate hleft =>
    exact source_of_half hsphere hjudged hseed hfate (.alone hfate) (Array.mem_of_getElem? hv) i

theorem trace_of_degenerate {plan : Plan α} (hsphere : plan.embedding = .projective)
    {seed : Point α} {delta : α} {q : Point α}
    (h : .degenerateTangent q ∈ plan.traceReports seed delta) :
    (∃ stalls : List (Diagnostic α), (∀ stall ∈ stalls, stall.isStalled = true) ∧
      (plan.traceReports seed delta).toList = stalls ++ [.degenerateTangent q]) ∧
      (plan.trace seed delta).2 = .escaped ∧ q = (plan.trace seed delta).1.back?.getD seed := by
  rw [traceReports_eq] at h ⊢
  obtain ⟨hending, hreports⟩ := Route.reports_of_degenerate (List.mem_toArray.mp h)
  refine ⟨⟨_, ?_, hreports⟩, ?_, ?_⟩
  · intro stall hstall
    obtain ⟨visit, -, hreport⟩ := List.mem_filterMap.mp hstall
    exact Route.isStalled_of_report? hreport
  · rw [trace_eq, hending]
    rfl
  · have hq := position_of_noTangent plan hending
    rw [← Array.getLast?_toList, trace_of_projective hsphere, hending]
    simpa [marker?, leg] using hq

theorem accounted_tessellate [Scalar.LawfulZero α] {plan : Plan α}
    (hsphere : plan.embedding = .projective)
    (haxis : ∀ seed ∈ plan.curve.seeds, plan.curve.equation.OnAxis seed.normalize) :
    plan.Accounted plan.tessellate.value := by
  have hstitched := plan.stitched_tessellate
  refine ⟨?vertex, trace_of_projective hsphere, plan.stalled_tessellate, ?reported,
    fun seed delta q => trace_of_degenerate hsphere⟩
  case vertex =>
    intro branch hbranch i v hv
    refine source_of_mem_branches hsphere (fun visit => judged_of_mem_visits haxis ?_) hstitched
      hbranch hv
    exact fun visit => stall_mem_tessellate
  case reported =>
    have hreports : plan.reports = fun seed => (plan.directions seed).flatMap fun delta =>
        (plan.traceReports seed.normalize delta).toList := funext plan.reports_eq
    rw [diagnostics_tessellate, hreports]

/-- On an accepted curve the vertices and the diagnostics account for each other. -/
theorem tessellateWith_accounted [Scalar.LawfulZero α] {equation : Equation α} {curve : Curve α}
    (haccepted : Curve.ofEquation equation = .ok curve) {config : TraceConfig α}
    (hvalid : config.isValid = true) :
    ∃ t, curve.tessellateWith .projective config = .ok t ∧
      (Plan.mk curve .projective config).Accounted t.value := by
  refine ⟨_, tessellateWith_eq curve .projective config hvalid, accounted_tessellate rfl ?_⟩
  intro seed hseed
  change curve.equation.OnAxis seed.normalize
  rw [Curve.equation_of_accepted haccepted]
  obtain hy | ⟨hedwards, hx⟩ := Curve.axis_of_mem_seeds haccepted hseed
  · left
    apply Point.null_normalize_y
    rw [hy]
    exact Scalar.LawfulZero.null_zero
  · right
    refine ⟨hedwards, Point.null_normalize_x ?_⟩
    rw [hx]
    exact Scalar.LawfulZero.null_zero

theorem accepted_edwards_neg_one : Curve.ofEquation (.edwards (-1.0) : Equation Float) =
    .ok ⟨.edwards (-1.0), [⟨-1.0, 0.0, 1.0⟩, ⟨1.0, 0.0, 1.0⟩]⟩ := by
  have hfinite : (Equation.edwards (-1.0) : Equation Float).isFinite = true := by decide +kernel
  have hsides : ¬ (1.0 : Float) ≤ -1.0 := by decide +kernel
  have hsmooth : ([⟨-1.0, 0.0, 1.0⟩, ⟨1.0, 0.0, 1.0⟩] : List (Point Float)).any
      (Curve.isSingularAt (.edwards (-1.0))) = false := by decide +kernel
  simp [Curve.ofEquation, Curve.seedsOf, hfinite, hsides, hsmooth]

/-- The Edwards curve with `d = -1` in doubles, with the default configuration. -/
theorem accounted_edwards_neg_one :
    Curve.ofEquation (.edwards (-1.0) : Equation Float) =
        .ok ⟨.edwards (-1.0), [⟨-1.0, 0.0, 1.0⟩, ⟨1.0, 0.0, 1.0⟩]⟩ ∧
      (TraceConfig.default : TraceConfig Float).isValid = true ∧
      ∃ t, (Curve.mk (.edwards (-1.0)) [⟨-1.0, 0.0, 1.0⟩, ⟨1.0, 0.0, 1.0⟩]).tessellateWith
          .projective (TraceConfig.default : TraceConfig Float) = .ok t ∧
        (Plan.mk (Curve.mk (.edwards (-1.0)) [⟨-1.0, 0.0, 1.0⟩, ⟨1.0, 0.0, 1.0⟩]) .projective
          .default).Accounted t.value := by
  have hvalid : (TraceConfig.default : TraceConfig Float).isValid = true := by decide +kernel
  exact ⟨accepted_edwards_neg_one, hvalid,
    tessellateWith_accounted accepted_edwards_neg_one hvalid⟩

end Plan

end EllipticPlot
