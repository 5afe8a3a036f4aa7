import EllipticPlot.Tracer

/-!
# Routes

A walk read as the list of its visits and the reason for which it ends, apart from the vertices and
the journal that it is collected into. `traceInto_eq` says that a trace appends exactly what its
route draws and reports exactly what its route has to report; what is proved about walks from here
on is proved by induction on their routes.
-/

namespace EllipticPlot

variable {α : Type}

/-- A point that a step reached, and what its projection made of it. -/
structure Visit (α : Type) where
  start : Point α
  projection : Projection α

/-- Why a walk ends. -/
inductive Ending (α : Type) where
  /-- There is no tangent at the last position. -/
  | noTangent (position : Point α)
  /-- A step reached a point below the plane `z = 0`. -/
  | infinity (reached : Point α)
  | crossing
  /-- The last visit is not inside of the window. -/
  | clipped
  | exhausted

structure Route (α : Type) where
  visits : List (Visit α)
  ending : Ending α

def Visit.stall (visit : Visit α) : Diagnostic α :=
  .projectionStalled visit.start visit.projection.point visit.projection.residual?

def Visit.report? (visit : Visit α) : Option (Diagnostic α) :=
  if visit.projection.converged then none else some visit.stall

namespace Ending

def report? : Ending α → Option (Diagnostic α)
  | noTangent position => some (.degenerateTangent position)
  | _ => none

def outcome : Ending α → Outcome
  | crossing => .halfLoop
  | _ => .escaped

def outcome? : Ending α → Option Outcome
  | exhausted => none
  | ending => some ending.outcome

end Ending

namespace Route

def after (visit : Visit α) (route : Route α) : Route α :=
  { route with visits := visit :: route.visits }

/-- What a walk along the route reports, in order. -/
def reports (route : Route α) : List (Diagnostic α) :=
  route.visits.filterMap Visit.report? ++ route.ending.report?.toList

def messages (route : Route α) (seed : Point α) (limit : Nat) : List (Message α) :=
  route.reports.map .diagnosed ++
    match route.ending with
    | .exhausted => [.stepsExhausted seed limit]
    | _ => []

@[simp] theorem after_visits (visit : Visit α) (route : Route α) :
    (route.after visit).visits = visit :: route.visits := rfl

@[simp] theorem after_ending (visit : Visit α) (route : Route α) :
    (route.after visit).ending = route.ending := rfl

theorem reports_nil (ending : Ending α) :
    (Route.mk [] ending).reports = ending.report?.toList := rfl

theorem after_reports (visit : Visit α) (route : Route α) :
    (route.after visit).reports = visit.report?.toList ++ route.reports := by
  unfold reports
  cases h : visit.report? <;> simp [h]

end Route

theorem Placement.exists_vertex {placement : Placement α} (h : placement.isInside = true) :
    ∃ vertex, placement.vertex? = some vertex := by
  cases placement with
  | inside vertex | onBorder vertex => exact ⟨vertex, rfl⟩
  | outOfPlane => cases h

/-! ### Journals that grow -/

def Journal.extend (journal : Journal α) (diagnostics : List (Diagnostic α))
    (messages : List (Message α)) : Journal α :=
  ⟨journal.diagnostics ++ diagnostics.toArray, journal.messages ++ messages.toArray⟩

namespace Journal

@[simp] theorem extend_nil (journal : Journal α) : journal.extend [] [] = journal := by
  simp [extend]

theorem extend_extend (journal : Journal α) (ds es : List (Diagnostic α))
    (ms ns : List (Message α)) :
    (journal.extend ds ms).extend es ns = journal.extend (ds ++ es) (ms ++ ns) := by
  simp [extend, Array.append_assoc]

theorem log_eq_extend (journal : Journal α) (message : Message α) :
    journal.log message = journal.extend [] [message] := by
  simp [log, extend]

theorem report_eq_extend (journal : Journal α) (diagnostic : Diagnostic α) :
    journal.report diagnostic = journal.extend [diagnostic] [.diagnosed diagnostic] := by
  simp [report, log, extend]

def reportAll (journal : Journal α) (reports : List (Diagnostic α)) : Journal α :=
  journal.extend reports (reports.map .diagnosed)

theorem reportAll_reportAll (journal : Journal α) (ds es : List (Diagnostic α)) :
    (journal.reportAll ds).reportAll es = journal.reportAll (ds ++ es) := by
  simp [reportAll, extend_extend]

end Journal

/-! ### Walks along a route -/

namespace Plan

variable [Scalar α]

def visit (plan : Plan α) (start : Point α) : Visit α := ⟨start, plan.projectVertex start⟩

def placement (plan : Plan α) (visit : Visit α) : Placement α :=
  plan.embedding.place plan.config.minAffineZ visit.projection.point

/-- The route of a walk of at most the given number of steps. -/
def route (plan : Plan α) (delta : α) : Nat → Point α → Option α → Route α
  | 0, _, _ => ⟨[], .exhausted⟩
  | count + 1, position, lastY? =>
    match plan.stride? delta position with
    | none => ⟨[], .noTangent position⟩
    | some start =>
      if start.z < 0.0 then ⟨[], .infinity start⟩
      else if crosses lastY? start then ⟨[], .crossing⟩
      else
        let visit := plan.visit start
        let here := visit.projection.point
        if (plan.placement visit).isInside then (plan.route delta count here (some here.y)).after visit
        else ⟨[visit], .clipped⟩

def marker? (plan : Plan α) : Ending α → Option (Point α)
  | .infinity reached => if plan.embedding.showsInfinity then some reached.axisMarker else none
  | _ => none

/-- The vertices that a walk along the route appends. -/
def drawn (plan : Plan α) (route : Route α) : List (Point α) :=
  route.visits.filterMap (fun visit => (plan.placement visit).vertex?) ++
    (plan.marker? route.ending).toList

theorem drawn_nil (plan : Plan α) (ending : Ending α) :
    plan.drawn ⟨[], ending⟩ = (plan.marker? ending).toList := rfl

theorem drawn_after (plan : Plan α) (visit : Visit α) (route : Route α) :
    plan.drawn (route.after visit) = (plan.placement visit).vertex?.toList ++ plan.drawn route := by
  unfold drawn
  cases h : (plan.placement visit).vertex? <;> simp [h]

theorem stride?_eq_some {plan : Plan α} {delta : α} {p start : Point α}
    (h : plan.stride? delta p = some start) :
    ∃ amount, Scalar.quotient? delta (plan.tangent p).norm = some amount ∧
      start = p.move amount (plan.tangent p) := by
  rw [stride?] at h
  obtain ⟨amount, hamount, hstart⟩ := Option.map_eq_some_iff.mp h
  exact ⟨amount, hamount, hstart.symm⟩

/-! The cases of one step, as equations. -/

section

variable {plan : Plan α} {delta : α} {position start : Point α} {lastY? : Option α} (count : Nat)

theorem route_of_no_stride (hstride : plan.stride? delta position = none) :
    plan.route delta (count + 1) position lastY? = ⟨[], .noTangent position⟩ := by
  simp only [route, hstride]

theorem route_of_below (hstride : plan.stride? delta position = some start)
    (hbelow : start.z < 0.0) :
    plan.route delta (count + 1) position lastY? = ⟨[], .infinity start⟩ := by
  simp only [route, hstride, if_pos hbelow]

theorem route_of_crosses (hstride : plan.stride? delta position = some start)
    (hbelow : ¬ start.z < 0.0) (hcross : crosses lastY? start = true) :
    plan.route delta (count + 1) position lastY? = ⟨[], .crossing⟩ := by
  simp only [route, hstride, if_neg hbelow, if_pos hcross]

theorem route_of_outside (hstride : plan.stride? delta position = some start)
    (hbelow : ¬ start.z < 0.0) (hcross : ¬ crosses lastY? start = true)
    (houtside : ¬ (plan.placement (plan.visit start)).isInside = true) :
    plan.route delta (count + 1) position lastY? =
      (Route.mk [] .clipped).after (plan.visit start) := by
  simp only [route, hstride, if_neg hbelow, if_neg hcross, if_neg houtside, Route.after]

theorem route_of_inside (hstride : plan.stride? delta position = some start)
    (hbelow : ¬ start.z < 0.0) (hcross : ¬ crosses lastY? start = true)
    (hinside : (plan.placement (plan.visit start)).isInside = true) :
    plan.route delta (count + 1) position lastY? =
      (plan.route delta count (plan.visit start).projection.point
        (some (plan.visit start).projection.point.y)).after (plan.visit start) := by
  simp only [route, hstride, if_neg hbelow, if_neg hcross, if_pos hinside]

end

private theorem settle_eq (plan : Plan α) (walk : Walk α) (start : Point α) :
    let visit := plan.visit start
    plan.settle walk start =
      (⟨visit.projection.point, some visit.projection.point.y,
        walk.vertices ++ (plan.placement visit).vertex?.toList.toArray,
        walk.journal.reportAll visit.report?.toList⟩,
       if (plan.placement visit).isInside then none else some .escaped) := by
  intro visit
  have happend : (plan.placement visit).appendTo walk.vertices
      = walk.vertices ++ (plan.placement visit).vertex?.toList.toArray := by
    rw [Placement.appendTo]
    cases (plan.placement visit).vertex? <;> simp
  have hnote : noteProjection walk.journal start visit.projection
      = walk.journal.reportAll visit.report?.toList := by
    rw [noteProjection, Visit.report?]
    cases visit.projection.converged
    · exact Journal.report_eq_extend _ _
    · exact (Journal.extend_nil _).symm
  rw [← happend, ← hnote]
  rfl

/-- A walk appends what its route draws, reports what its route reports, and ends as its route. -/
theorem steps_eq (plan : Plan α) (delta : α) (count : Nat) (walk : Walk α) :
    let route := plan.route delta count walk.position walk.lastY?
    ∃ position lastY?, plan.steps delta count walk =
      (⟨position, lastY?, walk.vertices ++ (plan.drawn route).toArray,
        walk.journal.reportAll route.reports⟩, route.ending.outcome?) := by
  induction count generalizing walk with
  | zero =>
    refine ⟨walk.position, walk.lastY?, ?_⟩
    simp [steps, route, drawn_nil, marker?, Route.reports_nil, Ending.report?, Ending.outcome?,
      Journal.reportAll]
  | succ count ih =>
    cases hstride : plan.stride? delta walk.position with
    | none =>
      refine ⟨walk.position, walk.lastY?, ?_⟩
      rw [route_of_no_stride count hstride]
      simp [steps, advance, hstride, drawn_nil, marker?, Route.reports_nil, Ending.report?,
        Ending.outcome?, Ending.outcome, Journal.reportAll, Journal.report_eq_extend]
    | some start =>
      by_cases hbelow : start.z < 0.0
      · refine ⟨walk.position, walk.lastY?, ?_⟩
        rw [route_of_below count hstride hbelow]
        cases hshows : plan.embedding.showsInfinity
        all_goals
          simp [steps, advance, hstride, hbelow, hshows, drawn_nil, marker?, Route.reports_nil,
            Ending.report?, Ending.outcome?, Ending.outcome, Journal.reportAll]
      · by_cases hcross : crosses walk.lastY? start = true
        · refine ⟨walk.position, walk.lastY?, ?_⟩
          rw [route_of_crosses count hstride hbelow hcross]
          simp [steps, advance, hstride, hbelow, hcross, drawn_nil, marker?, Route.reports_nil,
            Ending.report?, Ending.outcome?, Ending.outcome, Journal.reportAll]
        · by_cases hinside : (plan.placement (plan.visit start)).isInside = true
          · rw [route_of_inside count hstride hbelow hcross hinside]
            simp only [steps, advance, hstride, if_neg hbelow, if_neg hcross, settle_eq,
              if_pos hinside]
            obtain ⟨position, lastY?, hrest⟩ := ih _
            refine ⟨position, lastY?, hrest.trans ?_⟩
            simp only [Route.after_reports, Route.after_ending, drawn_after,
              Journal.reportAll_reportAll, Array.append_assoc, List.append_toArray]
          · rw [route_of_outside count hstride hbelow hcross hinside]
            simp only [steps, advance, hstride, if_neg hbelow, if_neg hcross, settle_eq,
              if_neg hinside]
            refine ⟨(plan.visit start).projection.point,
              some (plan.visit start).projection.point.y, ?_⟩
            simp [Route.after_reports, drawn_after, drawn_nil, marker?, Route.reports_nil,
              Ending.report?, Ending.outcome?, Ending.outcome]

theorem visit_of_mem_route (plan : Plan α) (delta : α) (count : Nat) (position : Point α)
    (lastY? : Option α) {visit : Visit α}
    (hmem : visit ∈ (plan.route delta count position lastY?).visits) :
    visit = plan.visit visit.start := by
  fun_induction plan.route delta count position lastY? with
  | case1 | case2 | case3 | case4 => cases hmem
  | case5 count position lastY? start _ _ _ visited here _ ih =>
    obtain rfl | hmem := List.mem_cons.mp hmem
    · rfl
    · exact ih hmem
  | case6 => rw [List.mem_singleton.mp hmem]; rfl

theorem below_of_infinity (plan : Plan α) {delta : α} {count : Nat} {position : Point α}
    {lastY? : Option α} {reached : Point α}
    (hending : (plan.route delta count position lastY?).ending = .infinity reached) :
    reached.z < 0.0 := by
  fun_induction plan.route delta count position lastY? with
  | case1 | case2 | case4 | case6 => cases hending
  | case3 count position lastY? start _ hbelow => exact Ending.infinity.inj hending ▸ hbelow
  | case5 count position lastY? start _ _ _ visited here _ ih => exact ih hending

theorem position_of_noTangent (plan : Plan α) {delta : α} {count : Nat} {position : Point α}
    {lastY? : Option α} {q : Point α}
    (hending : (plan.route delta count position lastY?).ending = .noTangent q) :
    q = ((plan.route delta count position lastY?).visits.getLast?.map
      (·.projection.point)).getD position := by
  fun_induction plan.route delta count position lastY? with
  | case1 | case3 | case4 | case6 => cases hending
  | case2 count position => exact (Ending.noTangent.inj hending).symm
  | case5 count position lastY? start _ _ _ visited here _ ih =>
    rw [Route.after_ending] at hending
    rw [ih hending, Route.after_visits, List.getLast?_cons]
    cases (plan.route delta count here (some here.y)).visits.getLast? <;> rfl

theorem stride?_of_noTangent (plan : Plan α) {delta : α} {count : Nat} {position : Point α}
    {lastY? : Option α} {q : Point α}
    (hending : (plan.route delta count position lastY?).ending = .noTangent q) :
    plan.stride? delta q = none := by
  fun_induction plan.route delta count position lastY? with
  | case1 | case3 | case4 | case6 => cases hending
  | case2 count position lastY? hstride => exact Ending.noTangent.inj hending ▸ hstride
  | case5 count position lastY? start _ _ _ visited here _ ih => exact ih hending

/-- Only the last visit of a clipped walk is outside of the window. -/
theorem isInside_of_mem_route (plan : Plan α) (delta : α) (count : Nat) (position : Point α)
    (lastY? : Option α) (hkept : (plan.route delta count position lastY?).ending ≠ .clipped)
    {visit : Visit α} (hmem : visit ∈ (plan.route delta count position lastY?).visits) :
    (plan.placement visit).isInside = true := by
  fun_induction plan.route delta count position lastY? with
  | case1 | case2 | case3 | case4 => simp at hmem
  | case5 count position lastY? start _ _ _ visited here hinside ih =>
    obtain rfl | hmem := List.mem_cons.mp hmem
    · exact hinside
    · exact ih hkept hmem
  | case6 => exact absurd rfl hkept

/-- A walk without a last vertex makes a visit before it comes back across `y = 0`. -/
theorem visits_ne_nil_of_crossing (plan : Plan α) (delta : α) (count : Nat) (position : Point α)
    (hending : (plan.route delta count position none).ending = .crossing) :
    (plan.route delta count position none).visits ≠ [] := by
  cases count with
  | zero => cases hending
  | succ count =>
    cases hstride : plan.stride? delta position with
    | none =>
      rw [route_of_no_stride count hstride] at hending
      cases hending
    | some start =>
      have hfirst : ¬ crosses none start = true := by simp [crosses]
      by_cases hbelow : start.z < 0.0
      · rw [route_of_below count hstride hbelow] at hending
        cases hending
      · by_cases hinside : (plan.placement (plan.visit start)).isInside = true
        · rw [route_of_inside count hstride hbelow hfirst hinside]
          exact List.cons_ne_nil _ _
        · rw [route_of_outside count hstride hbelow hfirst hinside]
          exact List.cons_ne_nil _ _

def leg (plan : Plan α) (seed : Point α) (delta : α) : Route α :=
  plan.route delta plan.config.maxSteps seed none

theorem length_drawn_of_crossing (plan : Plan α) {seed : Point α} {delta : α}
    (hending : (plan.leg seed delta).ending = .crossing) :
    1 ≤ (plan.drawn (plan.leg seed delta)).length := by
  obtain ⟨visit, hvisit⟩ :=
    List.exists_mem_of_ne_nil _ (plan.visits_ne_nil_of_crossing delta _ seed hending)
  have hinside : (plan.placement visit).isInside = true := by
    refine plan.isInside_of_mem_route delta _ seed none ?_ hvisit
    intro hclipped
    rw [leg, hclipped] at hending
    cases hending
  obtain ⟨vertex, hvertex⟩ := Placement.exists_vertex hinside
  have hmem : vertex ∈ plan.drawn (plan.leg seed delta) := by
    rw [drawn]
    exact List.mem_append_left _ (List.mem_filterMap.mpr ⟨visit, hvisit, hvertex⟩)
  exact List.length_pos_of_mem hmem

/-- A trace appends what its route draws, and extends the journal by its reports and messages. -/
theorem traceInto_eq (plan : Plan α) (journal : Journal α) (vertices : Array (Point α))
    (seed : Point α) (delta : α) :
    let route := plan.leg seed delta
    plan.traceInto journal vertices seed delta =
      (vertices ++ (plan.drawn route).toArray, route.ending.outcome,
        journal.extend route.reports (route.messages seed plan.config.maxSteps)) := by
  intro route
  obtain ⟨position, lastY?, hsteps⟩ :=
    plan.steps_eq delta plan.config.maxSteps ⟨seed, none, vertices, journal⟩
  have hroute : plan.route delta plan.config.maxSteps seed none = route := rfl
  rw [traceInto, hsteps, Route.messages]
  simp only [hroute]
  cases hending : route.ending
  all_goals
    simp [Ending.outcome?, Ending.outcome, Journal.reportAll, Journal.log_eq_extend,
      Journal.extend_extend]

/-! ### On the sphere -/

section

variable {plan : Plan α} (hsphere : plan.embedding = .projective)

include hsphere

theorem placement_of_projective (visit : Visit α) :
    plan.placement visit = .inside visit.projection.point := by
  rw [placement]
  rw [hsphere]
  rfl

theorem drawn_of_projective (route : Route α) :
    plan.drawn route =
      route.visits.map (·.projection.point) ++ (plan.marker? route.ending).toList := by
  rw [drawn]
  have hvertex : (fun visit : Visit α => (plan.placement visit).vertex?) =
      fun visit => some visit.projection.point := by
    funext visit
    rw [placement_of_projective hsphere]
    rfl
  rw [hvertex, List.filterMap_eq_map']

end

end Plan

end EllipticPlot
