import EllipticPlot.Binary64
import EllipticPlot.Proofs.TraceRecord
import Mathlib.Data.List.DropRight

/-!
# Sessions with a tracer

One tracer serves any number of requests, and its caller may do to the list of vertices what it
likes in between. No request depends on what the tracer did before: `serve_spec` says that a trace
adds to the list what it would give as the first trace of a new tracer, and its reports to those
that are kept; `run_reusable` says what follows for the answers in a whole session.
-/

namespace EllipticPlot

variable {α : Type}

/-- What a caller can do with its tracer and its list of vertices. -/
inductive Request (α : Type) where
  | trace (seed : Point α) (delta : α)
  /-- A trace into the list of the caller. -/
  | traceInto (seed : Point α) (delta : α)
  /-- The caller changes its list by itself. -/
  | edit (change : Array (Point α) → Array (Point α))
  | takeDiagnostics

inductive Answer (α : Type) where
  /-- The list that was traced into, and how the trace ended. -/
  | traced (vertices : Array (Point α)) (outcome : Outcome)
  | edited
  | taken (diagnostics : Array (Diagnostic α))

/-- The diagnostics that are handed over with an answer. -/
def Answer.diagnostics : Answer α → List (Diagnostic α)
  | taken diagnostics => diagnostics.toList
  | _ => []

def Request.isTake : Request α → Bool
  | takeDiagnostics => true
  | _ => false

/-- A tracer in use, and the list of its caller. -/
structure Session (α : Type) where
  tracer : Tracer α
  vertices : Array (Point α)

namespace Session

variable [Scalar α]

def serve (s : Session α) : Request α → Answer α × Session α
  | .trace seed delta =>
    let ((vertices, outcome), tracer) := s.tracer.trace seed delta
    (.traced vertices outcome, { s with tracer })
  | .traceInto seed delta =>
    let ((vertices, outcome), tracer) := s.tracer.traceInto s.vertices seed delta
    (.traced vertices outcome, { tracer, vertices })
  | .edit change => (.edited, { s with vertices := change s.vertices })
  | .takeDiagnostics =>
    let (diagnostics, tracer) := s.tracer.takeDiagnostics
    (.taken diagnostics, { s with tracer })

/-- The answers to requests in order, and the session after them. -/
def run (s : Session α) : List (Request α) → List (Answer α) × Session α
  | [] => ([], s)
  | request :: rest =>
    let (answer, next) := s.serve request
    let (answers, last) := next.run rest
    (answer :: answers, last)

end Session

/-! ### What a new tracer would do -/

namespace Request

variable [Scalar α] (fresh : Tracer α)

/-- What a new tracer reports when it serves this request. -/
def reports : Request α → List (Diagnostic α)
  | trace seed delta | traceInto seed delta =>
    (fresh.trace seed delta).2.takeDiagnostics.1.toList
  | edit _ | takeDiagnostics => []

/-- The answer that appends to `vertices` what a new tracer gives, and hands over `pending`. -/
def answer (vertices : Array (Point α)) (pending : List (Diagnostic α)) : Request α → Answer α
  | trace seed delta =>
    let (added, outcome) := (fresh.trace seed delta).1
    .traced added outcome
  | traceInto seed delta =>
    let (added, outcome) := (fresh.trace seed delta).1
    .traced (vertices ++ added) outcome
  | edit _ => .edited
  | takeDiagnostics => .taken pending.toArray

/-- The list of the caller after this request. -/
def leaves (vertices : Array (Point α)) : Request α → Array (Point α)
  | traceInto seed delta => vertices ++ (fresh.trace seed delta).1.1
  | edit change => change vertices
  | trace .. | takeDiagnostics => vertices

/-- The diagnostics to be handed over after this request. -/
def keeps (pending : List (Diagnostic α)) (request : Request α) : List (Diagnostic α) :=
  if request.isTake then [] else pending ++ request.reports fresh

theorem diagnostics_answer_append_keeps (vertices : Array (Point α))
    (pending : List (Diagnostic α)) (request : Request α) :
    (request.answer fresh vertices pending).diagnostics ++ request.keeps fresh pending =
      pending ++ request.reports fresh := by
  cases request with
  | trace seed delta | traceInto seed delta | edit change => rfl
  | takeDiagnostics => rfl

/-- The list of the caller after these requests. -/
def listAfter (vertices : Array (Point α)) (requests : List (Request α)) : Array (Point α) :=
  requests.foldl (leaves fresh) vertices

/-- What new tracers report for the requests since diagnostics were last taken, in order. -/
def reportsSinceTake (requests : List (Request α)) : List (Diagnostic α) :=
  (requests.rtakeWhile (!·.isTake)).flatMap (reports fresh)

theorem foldl_keeps (requests : List (Request α)) :
    requests.foldl (keeps fresh) [] = reportsSinceTake fresh requests := by
  induction requests using List.reverseRecOn with
  | nil => rfl
  | append_singleton requests request ih =>
    rw [List.foldl_append, List.foldl_cons, List.foldl_nil, ih, keeps, reportsSinceTake,
      reportsSinceTake, List.rtakeWhile_concat]
    cases request.isTake <;> simp

end Request

/-! ### One request -/

namespace Tracer

variable [Scalar α]

/-- A new tracer reports what the route of its first trace reports. -/
theorem takeDiagnostics_trace (plan : Plan α) (seed : Point α) (delta : α) :
    ((Tracer.mk plan .empty).trace seed delta).2.takeDiagnostics.1.toList =
      (plan.leg seed delta).reports := by
  rw [trace_eq]
  simp [takeDiagnostics, Journal.extend, Journal.empty]

end Tracer

namespace Session

variable [Scalar α] {plan : Plan α} {pending : List (Diagnostic α)} {s : Session α}

/-- The tracer in use works by the plan and keeps these diagnostics. -/
structure Holds (plan : Plan α) (pending : List (Diagnostic α)) (s : Session α) : Prop where
  plan_eq : s.tracer.plan = plan
  diagnostics_eq : s.tracer.journal.diagnostics = pending.toArray

/-- A trace adds its reports to those that are kept. -/
theorem Holds.traceInto (hs : s.Holds plan pending) (vertices list : Array (Point α))
    (seed : Point α) (delta : α) :
    Holds plan (pending ++ (plan.leg seed delta).reports)
      ⟨(s.tracer.traceInto vertices seed delta).2, list⟩ := by
  obtain ⟨rfl, hpending⟩ := hs
  have hdiagnostics : (s.tracer.traceInto vertices seed delta).2.journal.diagnostics =
      pending.toArray ++ (s.tracer.plan.leg seed delta).reports.toArray := by
    rw [Tracer.traceInto_eq, ← hpending]
    rfl
  have hplan : (s.tracer.traceInto vertices seed delta).2.plan = s.tracer.plan := by
    rw [Tracer.traceInto_eq]
  exact ⟨hplan, hdiagnostics.trans (List.append_toArray _ _)⟩

/-- A request is served as by a new tracer, whatever was served before. -/
theorem serve_spec (hs : s.Holds plan pending) (request : Request α) :
    (s.serve request).1 = request.answer ⟨plan, .empty⟩ s.vertices pending ∧
      (s.serve request).2.vertices = request.leaves ⟨plan, .empty⟩ s.vertices ∧
      (s.serve request).2.Holds plan (request.keeps ⟨plan, .empty⟩ pending) := by
  have hplan := hs.plan_eq
  cases request with
  | trace seed delta =>
    refine ⟨?answer, rfl, ?holds⟩
    case answer => simp only [serve, Request.answer, Tracer.trace_eq, hplan]
    case holds =>
      rw [Request.keeps, Request.reports, Tracer.takeDiagnostics_trace]
      exact hs.traceInto #[] s.vertices seed delta
  | traceInto seed delta =>
    refine ⟨?answer, ?list, ?holds⟩
    case answer =>
      simp only [serve, Request.answer, Tracer.traceInto_eq, Tracer.trace_eq, hplan]
    case list => simp only [serve, Request.leaves, Tracer.traceInto_eq, Tracer.trace_eq, hplan]
    case holds =>
      rw [Request.keeps, Request.reports, Tracer.takeDiagnostics_trace]
      exact hs.traceInto s.vertices _ seed delta
  | edit change =>
    refine ⟨rfl, rfl, ?holds⟩
    case holds =>
      rw [Request.keeps, Request.reports, List.append_nil]
      exact ⟨hplan, hs.diagnostics_eq⟩
  | takeDiagnostics =>
    refine ⟨?answer, rfl, ⟨hplan, rfl⟩⟩
    case answer => rw [serve, Request.answer, Tracer.takeDiagnostics, hs.diagnostics_eq]

/-! ### Whole sessions -/

/-- Each request of a session is answered by what the requests before it leave behind. -/
theorem answer_of_run (hs : s.Holds plan pending) (before after : List (Request α))
    (request : Request α) :
    (s.run (before ++ request :: after)).1[before.length]? = some
      (request.answer ⟨plan, .empty⟩ (Request.listAfter ⟨plan, .empty⟩ s.vertices before)
        (before.foldl (Request.keeps ⟨plan, .empty⟩) pending)) := by
  induction before generalizing s pending with
  | nil =>
    obtain ⟨hanswer, -, -⟩ := serve_spec hs request
    rw [Request.listAfter, List.foldl_nil, List.foldl_nil, ← hanswer]
    rfl
  | cons first before ih =>
    obtain ⟨-, hlist, hnext⟩ := serve_spec hs first
    rw [Request.listAfter, List.foldl_cons, List.foldl_cons, ← hlist]
    exact ih hnext

theorem vertices_of_run (hs : s.Holds plan pending) (requests : List (Request α)) :
    (s.run requests).2.vertices = Request.listAfter ⟨plan, .empty⟩ s.vertices requests := by
  induction requests generalizing s pending with
  | nil => rfl
  | cons request requests ih =>
    obtain ⟨-, hlist, hnext⟩ := serve_spec hs request
    rw [Request.listAfter, List.foldl_cons, ← hlist]
    exact ih hnext

/-- What is handed over with the answers, and what is left, are all the reports in order. -/
theorem handed_over_run (hs : s.Holds plan pending) (requests : List (Request α)) :
    (s.run requests).1.flatMap Answer.diagnostics ++
        (s.run requests).2.tracer.takeDiagnostics.1.toList =
      pending ++ requests.flatMap (Request.reports ⟨plan, .empty⟩) := by
  induction requests generalizing s pending with
  | nil =>
    rw [List.flatMap_nil, List.append_nil]
    exact congrArg Array.toList hs.diagnostics_eq
  | cons request requests ih =>
    obtain ⟨hanswer, -, hnext⟩ := serve_spec hs request
    have hrun : s.run (request :: requests) =
        ((s.serve request).1 :: ((s.serve request).2.run requests).1,
          ((s.serve request).2.run requests).2) := rfl
    rw [hrun, List.flatMap_cons, List.append_assoc, ih hnext, hanswer, ← List.append_assoc,
      Request.diagnostics_answer_append_keeps, List.append_assoc, List.flatMap_cons]

/-- How a session with a new tracer goes, with the list `vertices` at first. -/
structure Reusable (fresh : Tracer α) (vertices : Array (Point α)) : Prop where
  trace : ∀ (before after : List (Request α)) (seed : Point α) (delta : α),
    ((Session.mk fresh vertices).run (before ++ .trace seed delta :: after)).1[before.length]? =
      some (.traced (fresh.trace seed delta).1.1 (fresh.trace seed delta).1.2)
  /-- What was in the list stays in front, and a trace appends what it gives by itself. -/
  traceInto : ∀ (before after : List (Request α)) (seed : Point α) (delta : α),
    ((Session.mk fresh vertices).run
        (before ++ .traceInto seed delta :: after)).1[before.length]? =
      some (.traced
        (((Session.mk fresh vertices).run before).2.vertices ++ (fresh.trace seed delta).1.1)
        (fresh.trace seed delta).1.2)
  /-- The reports since diagnostics were last taken are handed over, in order. -/
  take : ∀ before after : List (Request α),
    ((Session.mk fresh vertices).run (before ++ .takeDiagnostics :: after)).1[before.length]? =
      some (.taken (Request.reportsSinceTake fresh before).toArray)
  /-- The list changes by traces into it and by its caller only. -/
  list : ∀ requests : List (Request α),
    ((Session.mk fresh vertices).run requests).2.vertices =
      Request.listAfter fresh vertices requests
  /-- Over the whole session no report is lost, and none is handed over twice. -/
  conserved : ∀ requests : List (Request α),
    ((Session.mk fresh vertices).run requests).1.flatMap Answer.diagnostics ++
        ((Session.mk fresh vertices).run requests).2.tracer.takeDiagnostics.1.toList =
      requests.flatMap (Request.reports fresh)

/-- A tracer in use answers every request as a new one would. -/
theorem run_reusable (plan : Plan α) (hvalid : plan.config.isValid = true) :
    ∃ fresh, Tracer.ofPlan plan = .ok fresh ∧ ∀ vertices, Reusable fresh vertices := by
  refine ⟨_, Tracer.ofPlan_eq hvalid, fun vertices => ?_⟩
  have hs : (Session.mk (Tracer.mk plan .empty) vertices).Holds plan [] := ⟨rfl, rfl⟩
  refine ⟨?trace, ?traceInto, ?take, vertices_of_run hs, handed_over_run hs⟩
  case trace => exact fun before after seed delta => answer_of_run hs before after _
  case traceInto =>
    intro before after seed delta
    rw [vertices_of_run hs]
    exact answer_of_run hs before after _
  case take =>
    intro before after
    rw [← Request.foldl_keeps]
    exact answer_of_run hs before after _

/-- The requests by which an open branch is traced, on the Edwards curve with `d = -1` in
doubles. -/
theorem run_reusable_edwards_neg_one :
    let curve : Curve Float := ⟨.edwards (-1.0), [⟨-1.0, 0.0, 1.0⟩, ⟨1.0, 0.0, 1.0⟩]⟩
    let plan : Plan Float := ⟨curve, .projective, .default⟩
    let seed : Point Float := Point.normalize ⟨1.0, 0.0, 1.0⟩
    let requests := [.traceInto seed 0.01, .edit Array.reverse, .traceInto seed (-0.01),
      .takeDiagnostics]
    plan.config.isValid = true ∧ ∃ fresh, Tracer.ofPlan plan = .ok fresh ∧
      Reusable fresh #[seed] ∧
      ((Session.mk fresh #[seed]).run requests).2.vertices =
        (#[seed] ++ (fresh.trace seed 0.01).1.1).reverse ++ (fresh.trace seed (-0.01)).1.1 := by
  intro curve plan seed requests
  have hvalid : plan.config.isValid = true := by decide +kernel
  obtain ⟨fresh, hfresh, hreusable⟩ := run_reusable plan hvalid
  exact ⟨hvalid, fresh, hfresh, hreusable #[seed], (hreusable #[seed]).list requests⟩

end Session

end EllipticPlot
