import EllipticPlot.Proofs.Provenance
import EllipticPlot.Proofs.Window

/-!
# Branches in a window

Every vertex of a tessellation in a window lies in the plane, and it lies within the boundary but
for the vertices with which a branch leaves the window. Only a trace that is clipped has such a
vertex, and it has it last; so ovals and half loops have none, and an open branch has them at its
ends.
-/

namespace EllipticPlot

variable {α : Type} [Scalar α]

/-- The vertex is a place in the plane within the boundary. -/
def Point.Shown (boundary : α) (v : Point α) : Prop := v.z = 1.0 ∧ v.Within boundary

theorem Point.Inside.shown {minZ boundary : α} {p : Point α} (h : p.Inside minZ boundary) :
    p.inPlane.Shown boundary := ⟨rfl, h.2⟩

theorem Embedding.shown_of_place {boundary minZ : α} {p v : Point α}
    (h : (affine boundary).place minZ p = .inside v) : v.Shown boundary := by
  have hinside : p.Inside minZ boundary := isInside_affine.mp (by rw [h]; rfl)
  have hvertex : ((affine boundary).place minZ p).vertex? =
      if p.z < minZ then none else some p.inPlane := vertex?_affine
  rw [h, if_neg hinside.1] at hvertex
  rw [Option.some.inj hvertex]
  exact hinside.shown

/-- What is drawn in a window: all branches lie in the plane, and only open ones leave the window,
with their ends. -/
structure Tessellation.InWindow (boundary : α) (t : Tessellation α) : Prop where
  plane : ∀ branch ∈ t.branches, ∀ v ∈ branch.vertices, v.z = 1.0
  closed : ∀ branch ∈ t.branches, branch.closed = true →
    ∀ v ∈ branch.vertices, v.Within boundary
  /-- The branch of a half loop that is left, which is the last one. -/
  unmatched : ∀ (seed : Point α) (count : Nat),
    .unmatchedHalfLoop seed count ∈ t.diagnostics → ∃ branch, t.branches.back? = some branch ∧
      branch.closed = false ∧ branch.vertices.size = count ∧
      ∀ v ∈ branch.vertices, v.Within boundary
  opened : ∀ branch ∈ t.branches, branch.closed = false →
    ∀ (i : Nat) (v : Point α), branch.vertices[i]? = some v →
      v.Within boundary ∨ i = 0 ∨ i + 1 = branch.vertices.size

namespace Plan

section

variable {plan : Plan α} {boundary : α} (hwindow : plan.embedding = .affine boundary)

include hwindow

/-- A trace draws shown vertices, and where it is clipped at most one more. -/
theorem drawn_leg_shown (seed : Point α) (delta : α) :
    ∃ (inner : List (Point α)) (border? : Option (Point α)),
      plan.drawn (plan.leg seed delta) = inner ++ border?.toList ∧
      (∀ v ∈ inner, v.Shown boundary) ∧ (∀ v, border? = some v → v.z = 1.0) ∧
      ((plan.leg seed delta).ending.outcome = .halfLoop → border? = none) := by
  have hshown : ∀ visits : List (Visit α),
      (∀ visit ∈ visits, (plan.placement visit).isInside = true) →
      ∀ v ∈ visits.map (·.projection.point.inPlane), v.Shown boundary := by
    intro visits hkept v hv
    obtain ⟨visit, hmem, rfl⟩ := List.mem_map.mp hv
    exact ((isInside_of_window hwindow).mp (hkept visit hmem)).shown
  set visits := ((plan.within .projective).leg seed delta).visits with hvisits
  cases hfind : visits.find? (fun visit => !(plan.placement visit).isInside) with
  | none =>
    have hkept : ∀ visit ∈ visits, (plan.placement visit).isInside = true := by
      simpa using hfind
    have hleg : plan.leg seed delta = (plan.within .projective).leg seed delta := by
      rw [plan.leg_eq_clip .projective fun _ _ => rfl]
      exact Route.clip_of_forall hkept
    refine ⟨visits.map (·.projection.point.inPlane), none, ?_, hshown visits hkept, nofun,
      fun _ => rfl⟩
    rw [hleg, drawn_of_window hwindow, ← hvisits, filterMap_vertex?_of_inside hwindow hkept,
      Option.toList_none, List.append_nil]
  | some visit =>
    obtain ⟨hvisit, before, after, hsplit, hbefore⟩ := List.find?_eq_some_iff_append.mp hfind
    have hkept : ∀ visit ∈ before, (plan.placement visit).isInside = true := by
      simpa using hbefore
    have hleg : plan.leg seed delta = ⟨before ++ [visit], .clipped⟩ := by
      rw [plan.leg_eq_clip .projective fun _ _ => rfl]
      exact Route.clip_of_first hsplit hkept (by simpa using hvisit)
    refine ⟨before.map (·.projection.point.inPlane), (plan.placement visit).vertex?, ?_,
      hshown before hkept, ?_, ?_⟩
    · rw [hleg, drawn_of_window hwindow, List.filterMap_append,
        filterMap_vertex?_of_inside hwindow hkept]
      cases hvertex : (plan.placement visit).vertex? <;> simp [hvertex]
    · intro v hv
      rw [vertex?_of_window hwindow] at hv
      split at hv
      · cases hv
      · rw [← Option.some.inj hv]
        rfl
    · intro houtcome
      rw [hleg] at houtcome
      cases houtcome

theorem shown_of_admitted {seed first : Point α}
    (h : plan.embedding.place plan.config.minAffineZ seed.normalize = .inside first) :
    first.Shown boundary := by
  rw [hwindow] at h
  exact Embedding.shown_of_place h

theorem shown_of_half {seed : Point α} {half : HalfLoop α} (h : plan.fate seed = .half half) :
    ∀ v ∈ half.vertices, v.Shown boundary := by
  obtain ⟨first, hplace, hending, hvertices⟩ := of_fate_half h
  obtain ⟨inner, border?, hdrawn, hinner, -, hborder⟩ :=
    drawn_leg_shown hwindow seed.normalize plan.config.step
  rw [hborder (by rw [hending]; rfl), Option.toList_none, List.append_nil] at hdrawn
  intro v hv
  rw [← Array.mem_toList_iff, hvertices, hdrawn, List.mem_cons] at hv
  obtain rfl | hv := hv
  · exact shown_of_admitted hwindow hplace
  · exact hinner v hv

/-- An open branch of an escaped seed is framed by the vertices with which it leaves the window. -/
theorem shown_of_escaped {seed : Point α} {vertices : Array (Point α)}
    (h : plan.fate seed = .escaped vertices) :
    ∃ (front? back? : Option (Point α)) (middle : List (Point α)),
      vertices.toList = front?.toList ++ middle ++ back?.toList ∧
      (∀ v ∈ middle, v.Shown boundary) ∧
      (∀ v, front? = some v → v.z = 1.0) ∧ (∀ v, back? = some v → v.z = 1.0) := by
  obtain ⟨first, hplace, -, hvertices⟩ := of_fate_escaped h
  obtain ⟨forward, front?, hforward, hforwardShown, hfront, -⟩ :=
    drawn_leg_shown hwindow seed.normalize plan.config.step
  obtain ⟨backward, back?, hbackward, hbackwardShown, hback, -⟩ :=
    drawn_leg_shown hwindow seed.normalize (-plan.config.step)
  refine ⟨front?, back?, forward.reverse ++ first :: backward, ?_, ?_, hfront, hback⟩
  · rw [hvertices, hforward, hbackward]
    cases front? <;> simp
  · intro v hv
    rw [List.mem_append, List.mem_reverse, List.mem_cons] at hv
    obtain hv | rfl | hv := hv
    · exact hforwardShown v hv
    · exact shown_of_admitted hwindow hplace
    · exact hbackwardShown v hv

theorem inWindow_tessellate : plan.tessellate.value.InWindow boundary := by
  have hstitched := plan.stitched_tessellate
  have hframed : ∀ {seed : Point α} {vertices : Array (Point α)},
      plan.fate seed = .escaped vertices → ∀ (i : Nat) (v : Point α), vertices[i]? = some v →
        v.Shown boundary ∨ v.z = 1.0 ∧ (i = 0 ∨ i + 1 = vertices.size) := by
    intro seed vertices hfate i v hv
    obtain ⟨front?, back?, middle, hvertices, hmiddle, hfront, hback⟩ :=
      shown_of_escaped hwindow hfate
    have hsize : vertices.size = (front?.toList ++ middle ++ back?.toList).length := by
      rw [← hvertices, Array.length_toList]
    rw [← Array.getElem?_toList, hvertices] at hv
    obtain hv | ⟨hv, hi⟩ | ⟨hv, hi⟩ := mem_of_getElem?_framed hv
    · exact .inl (hmiddle v hv)
    · exact .inr ⟨hfront v hv, .inl hi⟩
    · exact .inr ⟨hback v hv, .inr (hi.trans hsize.symm)⟩
  constructor
  case plane =>
    intro branch hmem v hv
    cases hstitched.origin hmem with
    | oval hseed hother hfirst hsecond =>
      obtain hv | hv := mem_oval hv
      · exact (shown_of_half hwindow hfirst v hv).1
      · exact (shown_of_half hwindow hsecond v hv).1
    | escaped hseed hfate =>
      obtain ⟨i, hi⟩ := Array.mem_iff_getElem?.mp hv
      obtain hshown | ⟨hplane, -⟩ := hframed hfate i v hi
      · exact hshown.1
      · exact hplane
    | left hseed hfate hleft => exact (shown_of_half hwindow hfate v hv).1
  case closed =>
    intro branch hmem hclosed v hv
    cases hstitched.origin hmem with
    | oval hseed hother hfirst hsecond =>
      obtain hv | hv := mem_oval hv
      · exact (shown_of_half hwindow hfirst v hv).2
      · exact (shown_of_half hwindow hsecond v hv).2
    | escaped => cases hclosed
    | left => cases hclosed
  case unmatched =>
    intro seed count hreport
    have hunmatched : .unmatchedHalfLoop seed count ∈
        plan.tessellate.value.diagnostics.toList.filter Diagnostic.isUnmatched :=
      List.mem_filter.mpr ⟨hreport.val, rfl⟩
    rw [unmatched_tessellate] at hunmatched
    obtain ⟨half, hleft, hhalf⟩ := List.mem_map.mp hunmatched
    have hleft := Option.mem_toList.mp hleft
    obtain ⟨seed', -, hfate⟩ := exists_seed_of_mem_halfLoops (mem_of_unpaired? hleft)
    refine ⟨half.alone, ?_, rfl, ?_, fun v hv => (shown_of_half hwindow hfate v hv).2⟩
    · rw [← Array.getLast?_toList, branches_tessellate, Option.mem_def.mp hleft]
      simp
    · exact (Diagnostic.unmatchedHalfLoop.inj hhalf).2
  case opened =>
    intro branch hmem hopen i v hv
    cases hstitched.origin hmem with
    | oval => cases hopen
    | escaped hseed hfate => exact (hframed hfate i v hv).imp And.right And.right
    | left hseed hfate hleft =>
      exact .inl (shown_of_half hwindow hfate v (Array.mem_of_getElem? hv)).2

end

/-- A window clips: see `Tessellation.InWindow`. -/
theorem tessellateWith_inWindow (curve : Curve α) {config : TraceConfig α}
    (hvalid : config.isValid = true) {boundary : α} {window : Embedding α}
    (hwindow : Embedding.window boundary = .ok window) :
    ∃ t, curve.tessellateWith window config = .ok t ∧ t.value.InWindow boundary := by
  obtain rfl := Embedding.eq_affine_of_window hwindow
  exact ⟨_, tessellateWith_eq curve (.affine boundary) config hvalid, inWindow_tessellate rfl⟩

/-- The curve `y² = x³ - x` in doubles, with its oval and a branch that leaves the window. -/
theorem inWindow_oval_and_branch :
    (TraceConfig.default : TraceConfig Float).isValid = true ∧
      Embedding.window (4.0 : Float) = .ok (.affine 4.0) ∧
      ∃ t, (Curve.mk (.weierstrass (-1.0) 0.0)
          [⟨-1.0, 0.0, 1.0⟩, ⟨0.0, 0.0, 1.0⟩, ⟨1.0, 0.0, 1.0⟩]).tessellateWith
          (.affine 4.0) (TraceConfig.default : TraceConfig Float) = .ok t ∧
        t.value.InWindow 4.0 := by
  have hvalid : (TraceConfig.default : TraceConfig Float).isValid = true := by decide +kernel
  exact ⟨hvalid, window_four, tessellateWith_inWindow _ hvalid window_four⟩

end Plan

end EllipticPlot
