import EllipticPlot.Binary64
import EllipticPlot.Message.Text
import EllipticPlot.Proofs.StepLimit
import EllipticPlot.Proofs.Stitching

/-!
# The log of a tessellation

What is logged while a curve is tessellated, message for message. Each diagnostic is logged once, at
the place where it is collected, so the warnings repeat the diagnostics; the other messages tell of
the seeds, of traces that have used up their steps, and of the result.
-/

namespace EllipticPlot

variable {α : Type}

namespace Message

@[simp] theorem level_diagnosed (diagnostic : Diagnostic α) :
    (diagnosed diagnostic).level = .warning := rfl

@[simp] theorem level_seedTraced (seed : Point α) (residual : α) (gradient : Point α) :
    (seedTraced seed residual gradient).level = .debug := rfl

@[simp] theorem level_stepsExhausted (seed : Point α) (steps : Nat) :
    (stepsExhausted seed steps).level = .debug := rfl

@[simp] theorem level_tessellated (equation : Equation α) (branches : Nat) :
    (tessellated equation branches).level = .debug := rfl

end Message

namespace Plan

variable [Scalar α]

def seedMessage (plan : Plan α) (seed : Point α) : Message α :=
  .seedTraced seed.normalize (plan.curve.equation.residual seed.normalize)
    (plan.curve.equation.gradient seed.normalize)

/-- The message of a trace that nothing has stopped. -/
def exhaustion? (plan : Plan α) (seed : Point α) (delta : α) : Option (Message α) :=
  if plan.stops seed delta then none else some (.stepsExhausted seed plan.config.maxSteps)

def traceMessages (plan : Plan α) (seed : Point α) (delta : α) : List (Message α) :=
  (plan.traceReports seed delta).toList.map .diagnosed ++ (plan.exhaustion? seed delta).toList

/-- The log and the diagnostics of a tessellation. -/
structure Logs (plan : Plan α) (t : Logged α (Tessellation α)) : Prop where
  /-- All messages: the seeds in order, each with its traces, what is left over, and the summary. -/
  messages : t.messages.toList =
    (plan.curve.seeds.flatMap fun seed =>
      plan.seedMessage seed ::
        (plan.directions seed).flatMap (plan.traceMessages seed.normalize)) ++
      plan.left?.toList.map (fun half => .diagnosed half.report) ++
      [.tessellated plan.curve.equation t.value.branches.size]
  warnings : t.messages.toList.filter (·.level == .warning) =
    t.value.diagnostics.toList.map .diagnosed
  /-- The warnings read as the diagnostics do. -/
  lines : ∀ write : NumberText α,
    (t.messages.toList.filter (·.level == .warning)).map (·.line write) =
      t.value.diagnostics.toList.map fun diagnostic => "WARN " ++ diagnostic.text write
  /-- Every seed has its message, also where the window leaves it out; then come its traces that
  nothing has stopped. -/
  debug : t.messages.toList.filter (·.level == .debug) =
    (plan.curve.seeds.flatMap fun seed =>
      plan.seedMessage seed ::
        (plan.directions seed).filterMap (plan.exhaustion? seed.normalize)) ++
      [.tessellated plan.curve.equation t.value.branches.size]

/-! ### One trace -/

theorem messages_leg (plan : Plan α) (seed : Point α) (delta : α) :
    (plan.leg seed delta).messages seed plan.config.maxSteps = plan.traceMessages seed delta := by
  have hstops := plan.stops_eq_false_iff seed delta
  rw [Route.messages, traceMessages, traceReports_eq, exhaustion?]
  cases hending : (plan.leg seed delta).ending with
  | exhausted =>
    rw [hstops.mpr hending]
    rfl
  | _ =>
    have hstopped : plan.stops seed delta = true := by
      rw [← Bool.not_eq_false, hstops, hending]
      intro hexhausted
      cases hexhausted
    rw [hstopped]
    rfl

theorem filter_warning_traceMessages (plan : Plan α) (seed : Point α) (delta : α) :
    (plan.traceMessages seed delta).filter (·.level == .warning) =
      (plan.traceReports seed delta).toList.map .diagnosed := by
  rw [traceMessages, exhaustion?, List.filter_append, List.filter_map]
  split <;> simp [Function.comp_def]

theorem filter_debug_traceMessages (plan : Plan α) (seed : Point α) (delta : α) :
    (plan.traceMessages seed delta).filter (·.level == .debug) =
      (plan.exhaustion? seed delta).toList := by
  rw [traceMessages, exhaustion?, List.filter_append, List.filter_map]
  split <;> simp [Function.comp_def]

/-! ### One seed -/

theorem messages_eq (plan : Plan α) (seed : Point α) : plan.messages seed =
    plan.seedMessage seed ::
      (plan.directions seed).flatMap (plan.traceMessages seed.normalize) := by
  rw [messages, legs, List.flatMap_map]
  simp only [messages_leg]
  rfl

theorem filter_warning_messages (plan : Plan α) (seed : Point α) :
    (plan.messages seed).filter (·.level == .warning) = (plan.reports seed).map .diagnosed := by
  rw [messages_eq, List.filter_cons_of_neg (by simp [seedMessage]),
    List.filter_flatMap, reports, legs, List.flatMap_map, List.map_flatMap]
  simp only [filter_warning_traceMessages, traceReports_eq]

theorem filter_debug_messages (plan : Plan α) (seed : Point α) :
    (plan.messages seed).filter (·.level == .debug) =
      plan.seedMessage seed ::
        (plan.directions seed).filterMap (plan.exhaustion? seed.normalize) := by
  rw [messages_eq, List.filter_cons_of_pos (by simp [seedMessage]),
    List.filter_flatMap, List.filterMap_eq_flatMap_toList]
  simp only [filter_debug_traceMessages]

/-! ### All seeds -/

theorem messages_tessellate (plan : Plan α) : plan.tessellate.messages.toList =
    plan.curve.seeds.flatMap plan.messages ++
      plan.left?.toList.map (fun half => .diagnosed half.report) ++
      [.tessellated plan.curve.equation plan.tessellate.value.branches.size] := by
  rw [tessellate_eq, plan.stitched_spec.1]

theorem logs_tessellate (plan : Plan α) : plan.Logs plan.tessellate := by
  have hwarnings : plan.tessellate.messages.toList.filter (·.level == .warning) =
      plan.tessellate.value.diagnostics.toList.map .diagnosed := by
    rw [messages_tessellate, diagnostics_tessellate]
    simp [List.filter_flatMap, filter_warning_messages, List.map_flatMap, List.filter_map,
      Function.comp_def]
  refine ⟨?messages, hwarnings, ?lines, ?debug⟩
  case messages =>
    rw [messages_tessellate, funext plan.messages_eq]
  case lines =>
    intro write
    rw [hwarnings, List.map_map]
    rfl
  case debug =>
    rw [messages_tessellate]
    simp [List.filter_flatMap, filter_debug_messages, List.filter_map, Function.comp_def]

/-- A valid configuration gives a tessellation whose log and diagnostics agree. -/
theorem tessellateWith_logged (curve : Curve α) (embedding : Embedding α)
    {config : TraceConfig α} (hvalid : config.isValid = true) :
    ∃ t, curve.tessellateWith embedding config = .ok t ∧
      (Plan.mk curve embedding config).Logs t :=
  ⟨_, tessellateWith_eq curve embedding config hvalid, logs_tessellate _⟩

/-- One step for each trace on the Edwards curve with `d = -1`, in doubles: the two seeds have their
messages, both traces of each use up their step, and the summary comes last. -/
theorem logs_edwards_neg_one :
    let curve : Curve Float := ⟨.edwards (-1.0), [⟨-1.0, 0.0, 1.0⟩, ⟨1.0, 0.0, 1.0⟩]⟩
    let config : TraceConfig Float :=
      { TraceConfig.default with maxSteps := 1, vertexTolerance := 1.0 }
    config.isValid = true ∧ ∃ t, curve.tessellateWith .projective config = .ok t ∧
      (Plan.mk curve .projective config).Logs t ∧
      (t.messages.toList.filter (·.level == .debug)).length = 7 := by
  intro curve config
  let plan : Plan Float := ⟨curve, .projective, config⟩
  have hvalid : config.isValid = true := by decide +kernel
  obtain ⟨t, ht, hlogs⟩ := tessellateWith_logged curve .projective hvalid
  have hseeds : (curve.seeds.flatMap fun seed =>
      plan.seedMessage seed ::
        (plan.directions seed).filterMap (plan.exhaustion? seed.normalize)).length = 6 := by
    decide +kernel
  refine ⟨hvalid, t, ht, hlogs, ?_⟩
  rw [hlogs.debug, List.length_append, hseeds]
  rfl

end Plan

end EllipticPlot
