import EllipticPlot.Proofs.Order
import EllipticPlot.Proofs.TraceRecord

/-!
# Traces seen through a window

A trace in a window takes the same steps as the trace on the sphere, up to the first point that is
not inside of the window. So its route is that of the sphere, clipped (`route_eq_clip`), and a
narrower window clips the route of a wider one in the same way.
-/

namespace EllipticPlot

variable {α : Type}

/-! ### Clipped routes -/

namespace Route

private def clipVisits (keep : Visit α → Bool) (ending : Ending α) : List (Visit α) → Route α
  | [] => ⟨[], ending⟩
  | visit :: rest =>
    if keep visit then (clipVisits keep ending rest).after visit else ⟨[visit], .clipped⟩

/-- The route that ends at its first visit that is not to be kept. -/
def clip (route : Route α) (keep : Visit α → Bool) : Route α :=
  clipVisits keep route.ending route.visits

variable {route : Route α} {keep : Visit α → Bool} {visit : Visit α}

@[simp] theorem clip_nil (ending : Ending α) : (Route.mk [] ending).clip keep = ⟨[], ending⟩ := rfl

theorem clip_after_of_kept (hkeep : keep visit = true) :
    (route.after visit).clip keep = (route.clip keep).after visit := if_pos hkeep

theorem clip_after_of_lost (hkeep : ¬ keep visit = true) :
    (route.after visit).clip keep = ⟨[visit], .clipped⟩ := if_neg hkeep

theorem clip_of_forall (hkeep : ∀ visit ∈ route.visits, keep visit = true) :
    route.clip keep = route := by
  obtain ⟨visits, ending⟩ := route
  induction visits with
  | nil => rfl
  | cons visit visits ih =>
    have hrest := ih fun other hmem => hkeep other (List.mem_cons_of_mem visit hmem)
    have hafter : Route.mk (visit :: visits) ending = (Route.mk visits ending).after visit := rfl
    rw [hafter, clip_after_of_kept (hkeep visit List.mem_cons_self), hrest]

theorem clip_of_first {before after : List (Visit α)}
    (hvisits : route.visits = before ++ visit :: after)
    (hbefore : ∀ visit ∈ before, keep visit = true) (hvisit : ¬ keep visit = true) :
    route.clip keep = ⟨before ++ [visit], .clipped⟩ := by
  obtain ⟨visits, ending⟩ := route
  obtain rfl : visits = before ++ visit :: after := hvisits
  induction before with
  | nil =>
    have hafter : Route.mk ([] ++ visit :: after) ending = (Route.mk after ending).after visit :=
      rfl
    rw [hafter, clip_after_of_lost hvisit, List.nil_append]
  | cons first before ih =>
    have hrest := ih fun other hmem => hbefore other (List.mem_cons_of_mem first hmem)
    have hafter : Route.mk (first :: before ++ visit :: after) ending =
        (Route.mk (before ++ visit :: after) ending).after first := rfl
    rw [hafter, clip_after_of_kept (hbefore first List.mem_cons_self), hrest]
    rfl

theorem clip_visits_prefix (route : Route α) (keep : Visit α → Bool) :
    (route.clip keep).visits <+: route.visits := by
  obtain ⟨visits, ending⟩ := route
  induction visits with
  | nil => exact List.prefix_rfl
  | cons visit visits ih =>
    have hafter : Route.mk (visit :: visits) ending = (Route.mk visits ending).after visit := rfl
    by_cases hkeep : keep visit = true
    · rw [hafter, clip_after_of_kept hkeep]
      exact (List.prefix_cons_inj visit).mpr ih
    · rw [hafter, clip_after_of_lost hkeep]
      exact List.prefix_append [visit] visits

/-- A clipped route comes back across `y = 0` only if nothing was clipped. -/
theorem outcome_clip (route : Route α) (keep : Visit α → Bool) :
    (route.clip keep).ending.outcome = .halfLoop ↔
      route.ending.outcome = .halfLoop ∧ ∀ visit ∈ route.visits, keep visit = true := by
  obtain ⟨visits, ending⟩ := route
  induction visits with
  | nil => simp
  | cons visit visits ih =>
    have hafter : Route.mk (visit :: visits) ending = (Route.mk visits ending).after visit := rfl
    by_cases hkeep : keep visit = true
    · rw [hafter, clip_after_of_kept hkeep, after_ending, ih]
      simp [hkeep]
    · rw [hafter, clip_after_of_lost hkeep]
      simp [Ending.outcome, hkeep]

/-- What is reported up to a visit is a prefix of what is reported in the end. -/
theorem reports_prefix_of_first {before after : List (Visit α)}
    (hvisits : route.visits = before ++ visit :: after) :
    (Route.mk (before ++ [visit]) .clipped).reports <+: route.reports := by
  have hreports : route.reports = (before ++ [visit]).filterMap Visit.report? ++
      (after.filterMap Visit.report? ++ route.ending.report?.toList) := by
    rw [reports, hvisits, ← List.append_assoc, ← List.filterMap_append, List.append_assoc before,
      List.singleton_append]
  have hclipped : (Ending.clipped : Ending α).report? = none := rfl
  rw [hreports, reports, hclipped, Option.toList_none, List.append_nil]
  exact List.prefix_append _ _

end Route

variable [Scalar α]

/-! ### Places in a window -/

namespace Point

/-- The place of `p` in the plane `z = 1`. -/
def inPlane (p : Point α) : Point α := ⟨p.x / p.z, p.y / p.z, 1.0⟩

def Within (boundary : α) (p : Point α) : Prop :=
  Scalar.abs p.x < boundary ∧ Scalar.abs p.y < boundary

/-- The point has a place in the plane, and this place is within the boundary. -/
def Inside (minZ boundary : α) (p : Point α) : Prop :=
  ¬ p.z < minZ ∧ p.inPlane.Within boundary

theorem Inside.mono [Scalar.LawfulOrder α] {minZ boundary wider : α} (hle : boundary ≤ wider)
    {p : Point α} (h : p.Inside minZ boundary) : p.Inside minZ wider :=
  ⟨h.1, Scalar.LawfulOrder.lt_of_lt_of_le h.2.1 hle,
    Scalar.LawfulOrder.lt_of_lt_of_le h.2.2 hle⟩

end Point

namespace Embedding

variable {boundary minZ : α} {p : Point α}

theorem eq_affine_of_window {window : Embedding α} (h : Embedding.window boundary = .ok window) :
    window = .affine boundary := by
  rw [Embedding.window] at h
  split at h
  · cases h
  · exact (Except.ok.inj h).symm

theorem isInside_affine : ((affine boundary).place minZ p).isInside = true ↔
    p.Inside minZ boundary := by
  rw [place, Point.Inside, Point.Within]
  dsimp only
  split
  · next hbelow => simp [hbelow, Placement.isInside]
  · next hbelow =>
    split
    · next hwithin => exact iff_of_true rfl ⟨hbelow, hwithin⟩
    · next hwithin => exact iff_of_false Bool.false_ne_true fun h => hwithin h.2

theorem vertex?_affine : ((affine boundary).place minZ p).vertex? =
    if p.z < minZ then none else some p.inPlane := by
  rw [place]
  dsimp only
  split
  · rfl
  · split <;> rfl

end Embedding

namespace Plan

/-! ### Two embeddings -/

/-- The same curve traced with the same numbers, laid out in another way. -/
def within (plan : Plan α) (embedding : Embedding α) : Plan α := { plan with embedding }

/-- A walk follows the route of an embedding that keeps more, clipped to what is kept. -/
theorem route_eq_clip (plan : Plan α) (wider : Embedding α)
    (hwider : ∀ visit, (plan.placement visit).isInside = true →
      ((plan.within wider).placement visit).isInside = true)
    (delta : α) (count : Nat) (position : Point α) (lastY? : Option α) :
    plan.route delta count position lastY? =
      ((plan.within wider).route delta count position lastY?).clip
        fun visit => (plan.placement visit).isInside := by
  induction count generalizing position lastY? with
  | zero => rfl
  | succ count ih =>
    have hstride : (plan.within wider).stride? delta position = plan.stride? delta position := rfl
    cases hstep : plan.stride? delta position with
    | none =>
      rw [route_of_no_stride count hstep, route_of_no_stride count (hstride.trans hstep),
        Route.clip_nil]
    | some start =>
      rw [hstep] at hstride
      by_cases hbelow : start.z < 0.0
      · rw [route_of_below count hstep hbelow, route_of_below count hstride hbelow, Route.clip_nil]
      · by_cases hcross : crosses lastY? start = true
        · rw [route_of_crosses count hstep hbelow hcross,
            route_of_crosses count hstride hbelow hcross, Route.clip_nil]
        · have hvisit : (plan.within wider).visit start = plan.visit start := rfl
          by_cases hinside : (plan.placement (plan.visit start)).isInside = true
          · rw [route_of_inside count hstep hbelow hcross hinside, ih,
              route_of_inside count hstride hbelow hcross (hwider _ hinside), hvisit,
              Route.clip_after_of_kept hinside]
          · -- the wider embedding may go on from here or end here as well
            rw [route_of_outside count hstep hbelow hcross hinside]
            by_cases hfurther :
                ((plan.within wider).placement ((plan.within wider).visit start)).isInside = true
            · rw [route_of_inside count hstride hbelow hcross hfurther, hvisit,
                Route.clip_after_of_lost hinside]
              rfl
            · rw [route_of_outside count hstride hbelow hcross hfurther, hvisit,
                Route.clip_after_of_lost hinside]
              rfl

theorem leg_eq_clip (plan : Plan α) (wider : Embedding α)
    (hwider : ∀ visit, (plan.placement visit).isInside = true →
      ((plan.within wider).placement visit).isInside = true) (seed : Point α) (delta : α) :
    plan.leg seed delta =
      ((plan.within wider).leg seed delta).clip fun visit => (plan.placement visit).isInside :=
  plan.route_eq_clip wider hwider delta plan.config.maxSteps seed none

/-! ### Traces in a window -/

/-- The points that a trace reached and projected, without a marker at infinity. -/
def reached (plan : Plan α) (seed : Point α) (delta : α) : List (Point α) :=
  (plan.leg seed delta).visits.map (·.projection.point)

section

variable {plan : Plan α} {boundary : α} (hwindow : plan.embedding = .affine boundary)

include hwindow

theorem isInside_of_window {visit : Visit α} : (plan.placement visit).isInside = true ↔
    visit.projection.point.Inside plan.config.minAffineZ boundary := by
  rw [placement, hwindow]
  exact Embedding.isInside_affine

theorem vertex?_of_window (visit : Visit α) : (plan.placement visit).vertex? =
    if visit.projection.point.z < plan.config.minAffineZ then none
    else some visit.projection.point.inPlane := by
  rw [placement, hwindow]
  exact Embedding.vertex?_affine

theorem drawn_of_window (route : Route α) :
    plan.drawn route = route.visits.filterMap fun visit => (plan.placement visit).vertex? := by
  have hmarker : plan.marker? route.ending = none := by
    unfold marker?
    rw [hwindow]
    cases route.ending <;> rfl
  rw [drawn, hmarker, Option.toList_none, List.append_nil]

/-- Of visits inside of the window every point is drawn. -/
theorem filterMap_vertex?_of_inside {visits : List (Visit α)}
    (hinside : ∀ visit ∈ visits, (plan.placement visit).isInside = true) :
    visits.filterMap (fun visit => (plan.placement visit).vertex?) =
      visits.map (·.projection.point.inPlane) := by
  rw [← List.filterMap_eq_map]
  apply List.filterMap_congr
  intro visit hmem
  rw [vertex?_of_window hwindow, if_neg ((isInside_of_window hwindow).mp (hinside visit hmem)).1]
  rfl

/-- After visits inside of the window, a last one is drawn if it has a place in the plane. -/
theorem drawn_of_first {before : List (Visit α)} {visit : Visit α}
    (hinside : ∀ visit ∈ before, (plan.placement visit).isInside = true) (ending : Ending α) :
    plan.drawn ⟨before ++ [visit], ending⟩ = before.map (·.projection.point.inPlane) ++
      if visit.projection.point.z < plan.config.minAffineZ then []
      else [visit.projection.point.inPlane] := by
  rw [drawn_of_window hwindow, List.filterMap_append,
    filterMap_vertex?_of_inside hwindow hinside]
  congr 1
  have hlast := vertex?_of_window hwindow visit
  split at hlast
  · next hbelow => simp [hlast, hbelow]
  · next hbelow => simp [hlast, hbelow]

/-- A trace that stays inside takes the route of the sphere. -/
theorem leg_of_inside {seed : Point α} {delta : α}
    (hinside : ∀ p ∈ (plan.within .projective).reached seed delta,
      p.Inside plan.config.minAffineZ boundary) :
    plan.leg seed delta = (plan.within .projective).leg seed delta := by
  rw [plan.leg_eq_clip .projective fun _ _ => rfl]
  apply Route.clip_of_forall
  intro visit hmem
  exact (isInside_of_window hwindow).mpr (hinside _ (List.mem_map_of_mem hmem))

/-- A trace ends with the first visit of the sphere's route that is not inside. -/
theorem leg_of_outside {seed : Point α} {delta : α} {before after : List (Visit α)}
    {visit : Visit α}
    (hvisits : ((plan.within .projective).leg seed delta).visits = before ++ visit :: after)
    (hbefore : ∀ visit ∈ before,
      visit.projection.point.Inside plan.config.minAffineZ boundary)
    (houtside : ¬ visit.projection.point.Inside plan.config.minAffineZ boundary) :
    plan.leg seed delta = ⟨before ++ [visit], .clipped⟩ := by
  rw [plan.leg_eq_clip .projective fun _ _ => rfl]
  apply Route.clip_of_first hvisits
  · intro other hmem
    exact (isInside_of_window hwindow).mpr (hbefore other hmem)
  · rwa [isInside_of_window hwindow]

end

end Plan

/-! ### Clipped records -/

/-- How a record in a window follows from the record on the sphere, which reached `points`. -/
structure TraceRecord.ClippedFrom (clipped : TraceRecord α) (minZ boundary : α)
    (points : List (Point α)) (full : TraceRecord α) : Prop where
  /-- Where every point is inside of the window, all of them are drawn in the plane. -/
  inside : (∀ p ∈ points, p.Inside minZ boundary) →
    clipped = ⟨points.map Point.inPlane, full.outcome, full.diagnostics⟩
  /-- The first point outside ends the trace, and it is drawn if it has a place in the plane. -/
  outside : ∀ (k : Nat) (hk : k < points.length), ¬ points[k].Inside minZ boundary →
    (∀ (j : Nat) (hj : j < k), points[j].Inside minZ boundary) →
      clipped.outcome = .escaped ∧
      clipped.vertices = (points.take k).map Point.inPlane ++
        (if points[k].z < minZ then [] else [points[k].inPlane]) ∧
      clipped.diagnostics <+: full.diagnostics

namespace Plan

section

variable {plan : Plan α} {boundary : α} (hwindow : plan.embedding = .affine boundary)

include hwindow

theorem along_leg_clipped (seed : Point α) (delta : α) :
    (plan.along (plan.leg seed delta)).ClippedFrom plan.config.minAffineZ boundary
      ((plan.within .projective).reached seed delta)
      ((plan.within .projective).along ((plan.within .projective).leg seed delta)) := by
  constructor
  case inside =>
    intro hinside
    have hkept : ∀ visit ∈ ((plan.within .projective).leg seed delta).visits,
        (plan.placement visit).isInside = true := by
      intro visit hmem
      exact (isInside_of_window hwindow).mpr (hinside _ (List.mem_map_of_mem hmem))
    rw [leg_of_inside hwindow hinside, along, drawn_of_window hwindow,
      filterMap_vertex?_of_inside hwindow hkept, reached, List.map_map]
    rfl
  case outside =>
    intro k hk houtside hfirst
    set visits := ((plan.within .projective).leg seed delta).visits with hvisits
    have hpoints : (plan.within .projective).reached seed delta =
        visits.map (·.projection.point) := rfl
    simp only [hpoints, List.getElem_map, List.length_map] at hk houtside hfirst ⊢
    have hsplit : visits = visits.take k ++ visits[k] :: visits.drop (k + 1) := by
      rw [← List.drop_eq_getElem_cons hk, List.take_append_drop]
    have hbefore : ∀ visit ∈ visits.take k,
        visit.projection.point.Inside plan.config.minAffineZ boundary := by
      intro visit hmem
      obtain ⟨j, hj, rfl⟩ := List.mem_take_iff_getElem.mp hmem
      exact hfirst j (by omega)
    have hleg := leg_of_outside hwindow hsplit hbefore houtside
    have hkept : ∀ visit ∈ visits.take k, (plan.placement visit).isInside = true :=
      fun visit hmem => (isInside_of_window hwindow).mpr (hbefore visit hmem)
    rw [hleg, along, drawn_of_first hwindow hkept, ← List.map_take, List.map_map]
    exact ⟨rfl, rfl, Route.reports_prefix_of_first hsplit⟩

/-- The list of a window is a prefix of the list of a wider window. -/
theorem drawn_prefix [Scalar.LawfulOrder α] {wider : α} (hle : boundary ≤ wider) (seed : Point α)
    (delta : α) : plan.drawn (plan.leg seed delta) <+:
      (plan.within (.affine wider)).drawn ((plan.within (.affine wider)).leg seed delta) := by
  have hinside : ∀ visit, (plan.placement visit).isInside = true →
      ((plan.within (.affine wider)).placement visit).isInside = true := by
    intro visit hkept
    exact (isInside_of_window rfl).mpr (((isInside_of_window hwindow).mp hkept).mono hle)
  have hwide : (plan.within (.affine wider)).embedding = .affine wider := rfl
  have hvertex : (fun visit => (plan.placement visit).vertex?) =
      fun visit => ((plan.within (.affine wider)).placement visit).vertex? := by
    funext visit
    rw [vertex?_of_window hwindow, vertex?_of_window hwide]
    rfl
  rw [drawn_of_window hwindow, drawn_of_window hwide, hvertex,
    plan.leg_eq_clip (.affine wider) hinside]
  exact (Route.clip_visits_prefix _ _).filterMap _

end

/-- A trace in a window is the trace on the sphere, clipped; a wider window continues it. -/
theorem record_window [Scalar.LawfulOrder α] (curve : Curve α) {config : TraceConfig α}
    (hvalid : config.isValid = true) {boundary : α} {window : Embedding α}
    (hwindow : Embedding.window boundary = .ok window) (seed : Point α) (delta : α) :
    let sphere : Plan α := ⟨curve, .projective, config⟩
    ∃ full clipped, sphere.record seed delta = .ok full ∧
      (Plan.mk curve window config).record seed delta = .ok clipped ∧
      full.vertices = sphere.reached seed delta ++
        (sphere.marker? (sphere.leg seed delta).ending).toList ∧
      clipped.ClippedFrom config.minAffineZ boundary (sphere.reached seed delta) full ∧
      ∀ (wider : α) (window' : Embedding α), boundary ≤ wider →
        Embedding.window wider = .ok window' →
        ∃ more, (Plan.mk curve window' config).record seed delta = .ok more ∧
          clipped.vertices <+: more.vertices := by
  intro sphere
  obtain rfl := Embedding.eq_affine_of_window hwindow
  have hplan : (Plan.mk curve (.affine boundary) config).embedding = .affine boundary := rfl
  refine ⟨_, _, sphere.record_eq hvalid seed delta, record_eq _ hvalid seed delta,
    drawn_of_projective rfl _, along_leg_clipped hplan seed delta, ?_⟩
  intro wider window' hle hwider
  obtain rfl := Embedding.eq_affine_of_window hwider
  exact ⟨_, record_eq _ hvalid seed delta, drawn_prefix hplan hle seed delta⟩

theorem window_four : Embedding.window (4.0 : Float) = .ok (.affine 4.0) := by
  have haccepted : (!Scalar.isFinite (4.0 : Float) || decide ((4.0 : Float) ≤ 0.0)) = false := rfl
  rw [Embedding.window, haccepted]
  rfl

/-- The unit circle in doubles, traced in the window with boundary `4`. -/
theorem record_window_circle :
    (TraceConfig.default : TraceConfig Float).isValid = true ∧
      Embedding.window (4.0 : Float) = .ok (.affine 4.0) ∧
      let curve : Curve Float := ⟨.edwards 0.0, [⟨-1.0, 0.0, 1.0⟩, ⟨1.0, 0.0, 1.0⟩]⟩
      let sphere : Plan Float := ⟨curve, .projective, .default⟩
      let seed : Point Float := Point.normalize ⟨1.0, 0.0, 1.0⟩
      ∃ full clipped, sphere.record seed 0.01 = .ok full ∧
        (Plan.mk curve (.affine 4.0) .default).record seed 0.01 = .ok clipped ∧
        full.vertices = sphere.reached seed 0.01 ++
          (sphere.marker? (sphere.leg seed 0.01).ending).toList ∧
        clipped.ClippedFrom 0.001 4.0 (sphere.reached seed 0.01) full ∧
        ∀ (wider : Float) (window' : Embedding Float), 4.0 ≤ wider →
          Embedding.window wider = .ok window' →
          ∃ more, (Plan.mk curve window' .default).record seed 0.01 = .ok more ∧
            clipped.vertices <+: more.vertices := by
  have hvalid : (TraceConfig.default : TraceConfig Float).isValid = true := by decide +kernel
  exact ⟨hvalid, window_four, record_window _ hvalid window_four _ _⟩

end Plan

end EllipticPlot
