import EllipticPlot.Binary64
import EllipticPlot.Proofs.TraceRecord

/-!
# Step limits

A walk with a higher limit takes the same steps. It goes on only where the shorter walk had used up
its own: `continuedBy_route` says so of the routes, and vertices and reports follow. A walk that
was stopped ends in the same way under every higher limit.
-/

namespace EllipticPlot

variable {α : Type}

namespace Route

/-- The longer route is the same, or goes on where the shorter one has used up its steps. -/
def ContinuedBy (short long : Route α) : Prop :=
  short = long ∨ short.ending = .exhausted ∧ short.visits <+: long.visits

variable {short long : Route α}

theorem ContinuedBy.after (h : short.ContinuedBy long) (visit : Visit α) :
    (short.after visit).ContinuedBy (long.after visit) := by
  rcases h with rfl | ⟨hexhausted, hvisits⟩
  · exact .inl rfl
  · exact .inr ⟨hexhausted, (List.prefix_cons_inj visit).mpr hvisits⟩

theorem ContinuedBy.eq_of_stopped (h : short.ContinuedBy long)
    (hstopped : short.ending ≠ .exhausted) : short = long :=
  h.resolve_right fun hcut => hstopped hcut.1

theorem ContinuedBy.reports_prefix (h : short.ContinuedBy long) :
    short.reports <+: long.reports := by
  rcases h with rfl | ⟨hexhausted, hvisits⟩
  · exact List.prefix_rfl
  · have hreports : short.reports = short.visits.filterMap Visit.report? := by
      rw [reports, hexhausted]
      exact List.append_nil _
    rw [hreports]
    exact (hvisits.filterMap _).trans (List.prefix_append _ _)

end Route

namespace Plan

variable [Scalar α]

/-- The same plan with another limit for the steps of a trace. -/
def limited (plan : Plan α) (limit : Nat) : Plan α :=
  { plan with config := { plan.config with maxSteps := limit } }

/-- Whether a trace ends before its steps are used up. -/
def stops (plan : Plan α) (seed : Point α) (delta : α) : Bool :=
  (plan.steps delta plan.config.maxSteps ⟨seed, none, #[], .empty⟩).2.isSome

theorem stops_eq_false_iff (plan : Plan α) (seed : Point α) (delta : α) :
    plan.stops seed delta = false ↔ (plan.leg seed delta).ending = .exhausted := by
  obtain ⟨position, lastY?, hsteps⟩ :=
    plan.steps_eq delta plan.config.maxSteps ⟨seed, none, #[], .empty⟩
  rw [stops, hsteps]
  change (plan.leg seed delta).ending.outcome?.isSome = false ↔ _
  cases (plan.leg seed delta).ending <;> simp [Ending.outcome?]

/-! ### Routes -/

/-- A limit does not change what a step does. -/
theorem route_limited (plan : Plan α) (limit : Nat) (delta : α) (count : Nat) (position : Point α)
    (lastY? : Option α) :
    (plan.limited limit).route delta count position lastY? =
      plan.route delta count position lastY? := by
  induction count generalizing position lastY? with
  | zero => rfl
  | succ count ih =>
    unfold route
    simp only [ih]
    rfl

theorem leg_limited (plan : Plan α) (limit : Nat) (seed : Point α) (delta : α) :
    (plan.limited limit).leg seed delta = plan.route delta limit seed none :=
  plan.route_limited limit delta limit seed none

/-- A walk with more steps to go continues the walk with fewer. -/
theorem continuedBy_route (plan : Plan α) (delta : α) {count more : Nat} (hle : count ≤ more)
    (position : Point α) (lastY? : Option α) :
    (plan.route delta count position lastY?).ContinuedBy
      (plan.route delta more position lastY?) := by
  induction count generalizing more position lastY? with
  | zero => exact .inr ⟨rfl, List.nil_prefix⟩
  | succ count ih =>
    obtain ⟨more, rfl⟩ := Nat.exists_eq_succ_of_ne_zero (Nat.ne_zero_of_lt hle)
    have hle : count ≤ more := Nat.le_of_succ_le_succ hle
    cases hstride : plan.stride? delta position with
    | none =>
      rw [route_of_no_stride count hstride, route_of_no_stride more hstride]
      exact .inl rfl
    | some start =>
      by_cases hbelow : start.z < 0.0
      · rw [route_of_below count hstride hbelow, route_of_below more hstride hbelow]
        exact .inl rfl
      · by_cases hcross : crosses lastY? start = true
        · rw [route_of_crosses count hstride hbelow hcross,
            route_of_crosses more hstride hbelow hcross]
          exact .inl rfl
        · by_cases hinside : (plan.placement (plan.visit start)).isInside = true
          · rw [route_of_inside count hstride hbelow hcross hinside,
              route_of_inside more hstride hbelow hcross hinside]
            exact (ih hle _ _).after _
          · rw [route_of_outside count hstride hbelow hcross hinside,
              route_of_outside more hstride hbelow hcross hinside]
            exact .inl rfl

/-! ### Vertices -/

theorem drawn_of_exhausted (plan : Plan α) {route : Route α} (h : route.ending = .exhausted) :
    plan.drawn route = route.visits.filterMap fun visit => (plan.placement visit).vertex? := by
  rw [drawn, h]
  exact List.append_nil _

theorem drawn_prefix_of_continuedBy (plan : Plan α) {short long : Route α}
    (h : short.ContinuedBy long) : plan.drawn short <+: plan.drawn long := by
  rcases h with rfl | ⟨hexhausted, hvisits⟩
  · exact List.prefix_rfl
  · rw [plan.drawn_of_exhausted hexhausted]
    exact (hvisits.filterMap _).trans (List.prefix_append _ _)

/-- A step draws one vertex at most, a marker of infinity included. -/
theorem length_drawn_le (plan : Plan α) (delta : α) (count : Nat) (position : Point α)
    (lastY? : Option α) : (plan.drawn (plan.route delta count position lastY?)).length ≤ count := by
  have hmarker : ∀ (ending : Ending α) (count : Nat),
      (plan.drawn ⟨[], ending⟩).length ≤ count + 1 := by
    intro ending count
    have hone : (plan.marker? ending).toList.length ≤ 1 := Option.length_toList_le
    rw [drawn_nil]
    omega
  have hvertex : ∀ (visit : Visit α) (rest : Route α) (count : Nat),
      (plan.drawn rest).length ≤ count → (plan.drawn (rest.after visit)).length ≤ count + 1 := by
    intro visit rest count hrest
    have hone : (plan.placement visit).vertex?.toList.length ≤ 1 := Option.length_toList_le
    rw [drawn_after, List.length_append]
    omega
  fun_induction plan.route delta count position lastY? with
  | case1 => exact Nat.le_refl 0
  | case2 count | case3 count | case4 count => exact hmarker _ count
  | case5 count position lastY? start _ _ _ visited here _ ih => exact hvertex visited _ count ih
  | case6 count position lastY? start _ _ _ visited =>
    exact hvertex visited ⟨[], .clipped⟩ count (Nat.zero_le count)

/-- A walk that uses up its steps draws a vertex with each of them. -/
theorem length_drawn_of_exhausted (plan : Plan α) (delta : α) (count : Nat) (position : Point α)
    (lastY? : Option α) (h : (plan.route delta count position lastY?).ending = .exhausted) :
    (plan.drawn (plan.route delta count position lastY?)).length = count := by
  fun_induction plan.route delta count position lastY? with
  | case1 => rfl
  | case2 | case3 | case4 | case6 => cases h
  | case5 count position lastY? start _ _ _ visited here hinside ih =>
    obtain ⟨vertex, hvertex⟩ := Placement.exists_vertex hinside
    rw [drawn_after, hvertex, List.length_append, ih h, Option.toList_some,
      List.length_singleton, Nat.add_comm]

end Plan

/-! ### Records -/

theorem TraceConfig.isValid_of_maxSteps_le [Scalar α] {config : TraceConfig α}
    (hvalid : config.isValid = true) {limit : Nat} (hle : config.maxSteps ≤ limit) :
    { config with maxSteps := limit }.isValid = true := by
  simp only [isValid, Bool.and_eq_true, bne_iff_ne] at hvalid ⊢
  obtain ⟨⟨hpositive, hsteps⟩, hiterations⟩ := hvalid
  exact ⟨⟨hpositive, by omega⟩, hiterations⟩

/-- How the record of a trace goes over into that under a higher limit for its steps. -/
structure TraceRecord.ContinuedBy (short long : TraceRecord α) (limit : Nat) (stopped : Bool) :
    Prop where
  vertices : short.vertices <+: long.vertices
  diagnostics : short.diagnostics <+: long.diagnostics
  length_le : short.vertices.length ≤ limit
  of_stopped : stopped = true → long = short
  /-- Else each of the steps appended a vertex. -/
  of_exhausted : stopped = false → short.vertices.length = limit ∧ short.outcome = .escaped

namespace Plan

variable [Scalar α]

/-- A higher limit for the steps only extends a trace, and it leaves a trace as it is that
something else had stopped. -/
theorem record_continued (curve : Curve α) (embedding : Embedding α) {config : TraceConfig α}
    (hvalid : config.isValid = true) {limit : Nat} (hle : config.maxSteps ≤ limit)
    (seed : Point α) (delta : α) :
    let plan : Plan α := ⟨curve, embedding, config⟩
    let longer : TraceConfig α := { config with maxSteps := limit }
    longer.isValid = true ∧
      ∃ short long, plan.record seed delta = .ok short ∧
        (Plan.mk curve embedding longer).record seed delta = .ok long ∧
        short.ContinuedBy long config.maxSteps (plan.stops seed delta) := by
  intro plan longer
  have hlonger : longer.isValid = true := TraceConfig.isValid_of_maxSteps_le hvalid hle
  have hshort := plan.record_eq hvalid seed delta
  have hlong := (plan.limited limit).record_eq hlonger seed delta
  have hcontinued : (plan.leg seed delta).ContinuedBy ((plan.limited limit).leg seed delta) := by
    rw [leg_limited]
    exact plan.continuedBy_route delta hle seed none
  refine ⟨hlonger, _, _, hshort, hlong, ?_⟩
  constructor
  case vertices => exact plan.drawn_prefix_of_continuedBy hcontinued
  case diagnostics => exact hcontinued.reports_prefix
  case length_le => exact plan.length_drawn_le delta config.maxSteps seed none
  case of_stopped =>
    intro hstopped
    have hending : (plan.leg seed delta).ending ≠ .exhausted := by
      intro hexhausted
      rw [(plan.stops_eq_false_iff seed delta).mpr hexhausted] at hstopped
      cases hstopped
    rw [hcontinued.eq_of_stopped hending]
    rfl
  case of_exhausted =>
    intro hgoing
    have hexhausted := (plan.stops_eq_false_iff seed delta).mp hgoing
    refine ⟨plan.length_drawn_of_exhausted delta config.maxSteps seed none hexhausted, ?_⟩
    rw [along, hexhausted]
    rfl

/-- The Edwards curve with `d = -1` in doubles, with two steps and with a thousand: long steps run
into infinity within two of them, short ones do not. -/
theorem record_continued_edwards_neg_one :
    let curve : Curve Float := ⟨.edwards (-1.0), [⟨-1.0, 0.0, 1.0⟩, ⟨1.0, 0.0, 1.0⟩]⟩
    let config : TraceConfig Float :=
      { TraceConfig.default with maxSteps := 2, vertexTolerance := 1.0 }
    let plan : Plan Float := ⟨curve, .projective, config⟩
    let seed : Point Float := Point.normalize ⟨1.0, 0.0, 1.0⟩
    config.isValid = true ∧ config.maxSteps ≤ 1000 ∧ plan.stops seed 2.0 = true ∧
      plan.stops seed 0.01 = false ∧
      ∀ delta, ∃ short long, plan.record seed delta = .ok short ∧
        (Plan.mk curve .projective { config with maxSteps := 1000 }).record seed delta = .ok long ∧
        short.ContinuedBy long 2 (plan.stops seed delta) := by
  intro curve config plan seed
  have hvalid : config.isValid = true := by decide +kernel
  have hle : config.maxSteps ≤ 1000 := by decide
  have hstopped : plan.stops seed 2.0 = true := by decide +kernel
  have hgoing : plan.stops seed 0.01 = false := by decide +kernel
  refine ⟨hvalid, hle, hstopped, hgoing, fun delta => ?_⟩
  exact (record_continued curve .projective hvalid hle seed delta).2

end Plan

end EllipticPlot
