import EllipticPlot.Proofs.Route
import EllipticPlot.Tessellation

/-!
# Fates of seeds

What becomes of a seed depends on the seed alone, not on the seeds before it: `addSeed_eq` splits
the treatment of a seed into its fate, which the branches receive, and what its routes report. The
order of the seeds matters only for the half loops, which `Stitching.receive` pairs up.
-/

namespace EllipticPlot

variable {α : Type}

/-- What becomes of a seed. -/
inductive SeedFate (α : Type) where
  | leftOut
  /-- Its forward trace escaped: the vertices of the open branch through it. -/
  | escaped (vertices : Array (Point α))
  /-- Its forward trace came back across `y = 0`. -/
  | half (half : HalfLoop α)

namespace HalfLoop

def alone (half : HalfLoop α) : Branch α := ⟨half.vertices, false⟩

def report (half : HalfLoop α) : Diagnostic α := .unmatchedHalfLoop half.seed half.vertices.size

end HalfLoop

namespace Stitching

/-- A half loop waits or closes the waiting one; an open branch is kept as it is. -/
def receive (s : Stitching α) : SeedFate α → Stitching α
  | .leftOut => s
  | .escaped vertices => s.addBranch vertices false
  | .half half => s.addHalfLoop half

theorem receive_withJournal (s : Stitching α) (journal : Journal α) (fate : SeedFate α) :
    { s with journal }.receive fate = { s.receive fate with journal } := by
  cases fate with
  | leftOut => rfl
  | escaped vertices => rfl
  | half half =>
    unfold receive addHalfLoop
    cases s.pending? <;> rfl

theorem foldl_receive_withJournal (s : Stitching α) (journal : Journal α)
    (fates : List (SeedFate α)) :
    fates.foldl receive { s with journal } = { fates.foldl receive s with journal } := by
  induction fates generalizing s with
  | nil => rfl
  | cons fate fates ih => rw [List.foldl_cons, receive_withJournal, ih, List.foldl_cons]

end Stitching

namespace Plan

variable [Scalar α]

/-- The vertices of a trace with signed step `delta` from the given point, and its outcome. -/
def trace (plan : Plan α) (seed : Point α) (delta : α) : Array (Point α) × Outcome :=
  let (vertices, outcome, _) := plan.traceInto .empty #[] seed delta
  (vertices, outcome)

theorem trace_eq (plan : Plan α) (seed : Point α) (delta : α) :
    plan.trace seed delta =
      ((plan.drawn (plan.leg seed delta)).toArray, (plan.leg seed delta).ending.outcome) := by
  rw [trace, traceInto_eq]
  simp

def traceReports (plan : Plan α) (seed : Point α) (delta : α) : Array (Diagnostic α) :=
  (plan.traceInto .empty #[] seed delta).2.2.diagnostics

theorem traceReports_eq (plan : Plan α) (seed : Point α) (delta : α) :
    plan.traceReports seed delta = (plan.leg seed delta).reports.toArray := by
  rw [traceReports, traceInto_eq]
  simp [Journal.empty, Journal.extend]

/-- The fate of a seed, from traces that know of no other seed. -/
def fate (plan : Plan α) (seed : Point α) : SeedFate α :=
  let p := seed.normalize
  match plan.embedding.place plan.config.minAffineZ p with
  | .inside first =>
    match plan.trace p plan.config.step with
    | (forward, .escaped) =>
      .escaped ((#[first] ++ forward).reverse ++ (plan.trace p (-plan.config.step)).1)
    | (forward, .halfLoop) => .half ⟨p, #[first] ++ forward⟩
  | _ => .leftOut

/-- The fates of all seeds, in order. -/
def fates (plan : Plan α) : List (SeedFate α) := plan.curve.seeds.map plan.fate

/-- An escaped seed gives its forward trace backwards, itself, and its backward trace. -/
theorem of_fate_escaped {plan : Plan α} {seed : Point α} {vertices : Array (Point α)}
    (hfate : plan.fate seed = .escaped vertices) :
    ∃ first, plan.embedding.place plan.config.minAffineZ seed.normalize = .inside first ∧
      (plan.leg seed.normalize plan.config.step).ending.outcome = .escaped ∧
      vertices.toList = (plan.drawn (plan.leg seed.normalize plan.config.step)).reverse ++
        first :: plan.drawn (plan.leg seed.normalize (-plan.config.step)) := by
  rw [fate] at hfate
  simp only [trace_eq] at hfate
  cases hplace : plan.embedding.place plan.config.minAffineZ seed.normalize with
  | outOfPlane => simp [hplace] at hfate
  | onBorder first => simp [hplace] at hfate
  | inside first =>
    cases houtcome : (plan.leg seed.normalize plan.config.step).ending.outcome with
    | halfLoop => simp [hplace, houtcome] at hfate
    | escaped =>
      simp only [hplace, houtcome, SeedFate.escaped.injEq] at hfate
      refine ⟨first, rfl, rfl, ?_⟩
      rw [← hfate]
      simp

/-- A half loop is its seed and the forward trace. -/
theorem of_fate_half {plan : Plan α} {seed : Point α} {half : HalfLoop α}
    (hfate : plan.fate seed = .half half) :
    ∃ first, plan.embedding.place plan.config.minAffineZ seed.normalize = .inside first ∧
      (plan.leg seed.normalize plan.config.step).ending = .crossing ∧
      half.vertices.toList = first :: plan.drawn (plan.leg seed.normalize plan.config.step) := by
  rw [fate] at hfate
  simp only [trace_eq] at hfate
  cases hplace : plan.embedding.place plan.config.minAffineZ seed.normalize with
  | outOfPlane => simp [hplace] at hfate
  | onBorder first => simp [hplace] at hfate
  | inside first =>
    cases hending : (plan.leg seed.normalize plan.config.step).ending with
    | crossing =>
      simp only [hplace, hending, Ending.outcome, SeedFate.half.injEq] at hfate
      refine ⟨first, rfl, rfl, ?_⟩
      rw [← hfate]
      simp
    | _ => simp [hplace, hending, Ending.outcome] at hfate

theorem two_le_size_of_half {plan : Plan α} {seed : Point α} {half : HalfLoop α}
    (hfate : plan.fate seed = .half half) : 2 ≤ half.vertices.size := by
  obtain ⟨first, -, hending, hvertices⟩ := of_fate_half hfate
  have hdrawn := plan.length_drawn_of_crossing hending
  rw [← Array.length_toList, hvertices, List.length_cons]
  omega

def admits (plan : Plan α) (seed : Point α) : Bool :=
  (plan.embedding.place plan.config.minAffineZ seed.normalize).isInside

/-- The number of vertices that the traces of an admitted seed append. -/
def traced (plan : Plan α) (seed : Point α) : Nat :=
  let p := seed.normalize
  match plan.trace p plan.config.step with
  | (forward, .escaped) => forward.size + (plan.trace p (-plan.config.step)).1.size
  | (forward, .halfLoop) => forward.size

def directions (plan : Plan α) (seed : Point α) : List α :=
  if plan.admits seed then
    match (plan.trace seed.normalize plan.config.step).2 with
    | .escaped => [plan.config.step, -plan.config.step]
    | .halfLoop => [plan.config.step]
  else []

def legs (plan : Plan α) (seed : Point α) : List (Route α) :=
  (plan.directions seed).map (plan.leg seed.normalize)

def reports (plan : Plan α) (seed : Point α) : List (Diagnostic α) :=
  (plan.legs seed).flatMap Route.reports

def messages (plan : Plan α) (seed : Point α) : List (Message α) :=
  let p := seed.normalize
  .seedTraced p (plan.curve.equation.residual p) (plan.curve.equation.gradient p) ::
    (plan.legs seed).flatMap (·.messages p plan.config.maxSteps)

theorem addSeed_eq (plan : Plan α) (s : Stitching α) (seed : Point α) :
    plan.addSeed s seed =
      { s.receive (plan.fate seed) with
        journal := s.journal.extend (plan.reports seed) (plan.messages seed) } := by
  rw [← Stitching.receive_withJournal]
  rw [addSeed, fate, reports, messages, legs, directions, admits]
  dsimp only
  cases hplace : plan.embedding.place plan.config.minAffineZ seed.normalize with
  | outOfPlane => simp [Placement.isInside, Stitching.receive, Journal.log_eq_extend]
  | onBorder first => simp [Placement.isInside, Stitching.receive, Journal.log_eq_extend]
  | inside first =>
    simp only [traceInto_eq, trace_eq]
    cases houtcome : (plan.leg seed.normalize plan.config.step).ending.outcome with
    | escaped =>
      simp [Placement.isInside, Stitching.receive, Journal.log_eq_extend, Journal.extend_extend]
    | halfLoop =>
      simp [Placement.isInside, Stitching.receive, Journal.log_eq_extend, Journal.extend_extend]

theorem foldl_addSeed (plan : Plan α) (seeds : List (Point α)) (s : Stitching α) :
    seeds.foldl plan.addSeed s =
      { (seeds.map plan.fate).foldl Stitching.receive s with
        journal := s.journal.extend (seeds.flatMap plan.reports) (seeds.flatMap plan.messages) } := by
  induction seeds generalizing s with
  | nil => simp
  | cons seed seeds ih =>
    rw [List.foldl_cons, ih, addSeed_eq, Stitching.foldl_receive_withJournal]
    simp only [List.map_cons, List.foldl_cons, List.flatMap_cons, Journal.extend_extend]

/-- All seeds of the plan, before a half loop that is left is given up. -/
def stitched (plan : Plan α) : Stitching α := plan.fates.foldl Stitching.receive .empty

/-- The branches are those of the stitched fates; what is reported is that of the seeds in order,
and in the end the half loop that is left. -/
theorem tessellate_eq (plan : Plan α) :
    let left := plan.stitched.pending?.toList
    let branches := plan.stitched.branches ++ (left.map HalfLoop.alone).toArray
    plan.tessellate =
      ⟨⟨branches, (plan.curve.seeds.flatMap plan.reports ++ left.map HalfLoop.report).toArray⟩,
        (plan.curve.seeds.flatMap plan.messages ++
          left.map (fun half => Message.diagnosed half.report) ++
          [Message.tessellated plan.curve.equation branches.size]).toArray⟩ := by
  have hfold : plan.curve.seeds.foldl plan.addSeed .empty =
      { plan.stitched with
        journal := Journal.empty.extend (plan.curve.seeds.flatMap plan.reports)
          (plan.curve.seeds.flatMap plan.messages) } := plan.foldl_addSeed _ _
  rw [tessellate, hfold, Stitching.finish]
  cases plan.stitched.pending?
  all_goals
    simp [Journal.empty, Journal.extend, Stitching.addBranch, Journal.log,
      Journal.report, HalfLoop.alone, HalfLoop.report]

end Plan

end EllipticPlot
