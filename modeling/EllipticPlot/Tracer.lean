import EllipticPlot.Curve
import EllipticPlot.Embedding
import EllipticPlot.Message
import EllipticPlot.Projection
import EllipticPlot.TraceConfig

/-!
# Tracing

A tracer walks along a curve in steps of fixed length and projects every vertex back onto it. A
walk ends where it comes back across `y = 0`, runs into infinity, leaves the window, finds no
tangent, or has used up its steps.
-/

namespace EllipticPlot

/-- How a walk in one direction ended. -/
inductive Outcome where
  /-- It ran into infinity, left the window or was cut. -/
  | escaped
  /-- It came back across `y = 0`: half of an oval. -/
  | halfLoop
  deriving DecidableEq, Repr

/-- What has been reported: diagnostics to be collected, and the log. -/
structure Journal (α : Type) where
  diagnostics : Array (Diagnostic α)
  messages : Array (Message α)

namespace Journal

variable {α : Type}

def empty : Journal α := ⟨#[], #[]⟩

def log (journal : Journal α) (message : Message α) : Journal α :=
  { journal with messages := journal.messages.push message }

/-- A diagnostic is collected and logged. -/
def report (journal : Journal α) (diagnostic : Diagnostic α) : Journal α :=
  { journal.log (.diagnosed diagnostic) with
    diagnostics := journal.diagnostics.push diagnostic }

end Journal

/-- What is traced, how it is laid out, and with which numbers. -/
structure Plan (α : Type) where
  curve : Curve α
  embedding : Embedding α
  config : TraceConfig α

/-- The state of a walk between two steps. -/
structure Walk (α : Type) where
  position : Point α
  /-- The `y` of the last vertex, if there is one. -/
  lastY? : Option α
  vertices : Array (Point α)
  journal : Journal α

namespace Plan

variable {α : Type} [Scalar α]

/-- The plan with a valid configuration. -/
def check (plan : Plan α) : Except PlotError (Plan α) :=
  plan.config.validate.map fun _ => plan

/-- The tangent of the curve within the sphere: normal to the point and to the gradient. -/
def tangent (plan : Plan α) (p : Point α) : Point α :=
  p.cross (plan.curve.equation.gradient p)

/-- The point a step of length `delta` along the tangent, if there is a tangent. -/
def stride? (plan : Plan α) (delta : α) (p : Point α) : Option (Point α) :=
  let tangent := plan.tangent p
  (Scalar.quotient? delta tangent.norm).map fun amount => p.move amount tangent

/-- Whether the step to `p` came back across `y = 0`. -/
def crosses (lastY? : Option α) (p : Point α) : Bool :=
  lastY?.any fun y => y * p.y ≤ 0.0

def projectVertex (plan : Plan α) (p : Point α) : Projection α :=
  plan.curve.equation.projectWithin plan.config.maxIterations plan.config.vertexTolerance p

/-- The journal after a vertex was projected from `start`. -/
def noteProjection (journal : Journal α) (start : Point α) (projection : Projection α) :
    Journal α :=
  if projection.converged then journal
  else journal.report (.projectionStalled start projection.point projection.residual?)

/-- The walk after `p` was reached and projected, and whether it ends there. -/
def settle (plan : Plan α) (walk : Walk α) (p : Point α) : Walk α × Option Outcome :=
  let projection := plan.projectVertex p
  let placement := plan.embedding.place plan.config.minAffineZ projection.point
  ({ position := projection.point
     lastY? := some projection.point.y
     vertices := placement.appendTo walk.vertices
     journal := noteProjection walk.journal p projection },
    if placement.isInside then none else some .escaped)

/-- One step of a walk, and how the walk ended if it did. -/
def advance (plan : Plan α) (delta : α) (walk : Walk α) : Walk α × Option Outcome :=
  match plan.stride? delta walk.position with
  | none =>
    ({ walk with journal := walk.journal.report (.degenerateTangent walk.position) },
      some .escaped)
  | some p =>
    if p.z < 0.0 then
      let vertices :=
        if plan.embedding.showsInfinity then walk.vertices.push p.axisMarker else walk.vertices
      ({ walk with vertices }, some .escaped)
    else if crosses walk.lastY? p then (walk, some .halfLoop)
    else plan.settle walk p

/-- A walk of at most the given number of steps; no outcome if all of them are used up. -/
def steps (plan : Plan α) (delta : α) : Nat → Walk α → Walk α × Option Outcome
  | 0, walk => (walk, none)
  | count + 1, walk =>
    match plan.advance delta walk with
    | (next, none) => plan.steps delta count next
    | (last, some outcome) => (last, some outcome)

/-- Traces from `seed` with signed step `delta`, appending to `vertices`. -/
def traceInto (plan : Plan α) (journal : Journal α) (vertices : Array (Point α)) (seed : Point α)
    (delta : α) : Array (Point α) × Outcome × Journal α :=
  match plan.steps delta plan.config.maxSteps ⟨seed, none, vertices, journal⟩ with
  | (walk, some outcome) => (walk.vertices, outcome, walk.journal)
  | (walk, none) =>
    (walk.vertices, .escaped, walk.journal.log (.stepsExhausted seed plan.config.maxSteps))

end Plan

/-- A plan and what has been reported while it was traced. -/
structure Tracer (α : Type) where
  plan : Plan α
  journal : Journal α

namespace Tracer

variable {α : Type} [Scalar α]

/-- A fresh tracer for a plan with a valid configuration. -/
def ofPlan (plan : Plan α) : Except PlotError (Tracer α) :=
  plan.check.map fun plan => ⟨plan, .empty⟩

/-- Traces from `seed`, appending to `vertices`; the seed itself is not appended. -/
def traceInto (tracer : Tracer α) (vertices : Array (Point α)) (seed : Point α) (delta : α) :
    (Array (Point α) × Outcome) × Tracer α :=
  let (vertices, outcome, journal) := tracer.plan.traceInto tracer.journal vertices seed delta
  ((vertices, outcome), { tracer with journal })

/-- Traces from `seed` into a fresh list of vertices. -/
def trace (tracer : Tracer α) (seed : Point α) (delta : α) :
    (Array (Point α) × Outcome) × Tracer α :=
  tracer.traceInto #[] seed delta

/-- What was reported since the last time; the tracer keeps no diagnostics. -/
def takeDiagnostics (tracer : Tracer α) : Array (Diagnostic α) × Tracer α :=
  (tracer.journal.diagnostics,
    { tracer with journal := { tracer.journal with diagnostics := #[] } })

end Tracer

end EllipticPlot
