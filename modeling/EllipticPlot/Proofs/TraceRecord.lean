import EllipticPlot.Proofs.Route

/-!
# Records of traces

What a trace returns and what it adds to the journal of its tracer, and what the caller of a fresh
tracer gets to see of one trace. `record_eq` reads it off the route of the trace, so that two traces
are compared by comparing their routes.
-/

namespace EllipticPlot

variable {α : Type}

/-! ### Tracers -/

namespace Tracer

variable [Scalar α]

theorem ofPlan_eq {plan : Plan α} (hvalid : plan.config.isValid = true) :
    ofPlan plan = .ok ⟨plan, .empty⟩ := by
  rw [ofPlan, Plan.check, TraceConfig.validate, if_pos hvalid]
  rfl

theorem traceInto_eq (tracer : Tracer α) (vertices : Array (Point α)) (seed : Point α)
    (delta : α) :
    let route := tracer.plan.leg seed delta
    tracer.traceInto vertices seed delta =
      ((vertices ++ (tracer.plan.drawn route).toArray, route.ending.outcome),
        { tracer with
          journal := tracer.journal.extend route.reports
            (route.messages seed tracer.plan.config.maxSteps) }) := by
  intro route
  rw [traceInto, Plan.traceInto_eq]

theorem trace_eq (tracer : Tracer α) (seed : Point α) (delta : α) :
    let route := tracer.plan.leg seed delta
    tracer.trace seed delta =
      (((tracer.plan.drawn route).toArray, route.ending.outcome),
        { tracer with
          journal := tracer.journal.extend route.reports
            (route.messages seed tracer.plan.config.maxSteps) }) := by
  intro route
  rw [trace, traceInto_eq, Array.empty_append]

end Tracer

/-! ### Records -/

/-- What a trace returns, and what it leaves to be collected. -/
structure TraceRecord (α : Type) where
  vertices : List (Point α)
  outcome : Outcome
  diagnostics : List (Diagnostic α)

namespace Plan

variable [Scalar α]

/-- The record of the first trace of a new tracer. -/
def record (plan : Plan α) (seed : Point α) (delta : α) : Except PlotError (TraceRecord α) :=
  (Tracer.ofPlan plan).map fun tracer =>
    let ((vertices, outcome), tracer) := tracer.trace seed delta
    ⟨vertices.toList, outcome, tracer.takeDiagnostics.1.toList⟩

/-- The record of a walk along the route. -/
def along (plan : Plan α) (route : Route α) : TraceRecord α :=
  ⟨plan.drawn route, route.ending.outcome, route.reports⟩

theorem record_eq (plan : Plan α) (hvalid : plan.config.isValid = true) (seed : Point α)
    (delta : α) : plan.record seed delta = .ok (plan.along (plan.leg seed delta)) := by
  rw [record, Tracer.ofPlan_eq hvalid]
  simp [Except.map, Tracer.trace_eq, Tracer.takeDiagnostics, Journal.extend, Journal.empty, along]

end Plan

end EllipticPlot
