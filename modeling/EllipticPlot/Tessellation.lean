import EllipticPlot.Tracer

/-!
# Tessellations

The branches of a curve as polylines. Every seed is traced in one direction; an open branch is
continued backwards from its seed, and two half loops in a row are joined to an oval. At most one
half loop waits for its counterpart at any time.
-/

namespace EllipticPlot

/-- One continuous arc of a curve; the last vertex of a closed one repeats the first. -/
structure Branch (α : Type) where
  vertices : Array (Point α)
  closed : Bool

structure Tessellation (α : Type) where
  branches : Array (Branch α)
  diagnostics : Array (Diagnostic α)

def Tessellation.vertexCount {α : Type} (tessellation : Tessellation α) : Nat :=
  tessellation.branches.foldl (fun count branch => count + branch.vertices.size) 0

/-- A half loop that waits for its counterpart. -/
structure HalfLoop (α : Type) where
  seed : Point α
  vertices : Array (Point α)

/-- The state of a tessellation between two seeds. -/
structure Stitching (α : Type) where
  branches : Array (Branch α)
  pending? : Option (HalfLoop α)
  journal : Journal α

namespace Stitching

variable {α : Type}

def empty : Stitching α := ⟨#[], none, .empty⟩

def addBranch (s : Stitching α) (vertices : Array (Point α)) (closed : Bool) : Stitching α :=
  { s with branches := s.branches.push ⟨vertices, closed⟩ }

/-- A half loop closes the waiting one to an oval, or waits itself. -/
def addHalfLoop (s : Stitching α) (half : HalfLoop α) : Stitching α :=
  match s.pending? with
  | some first =>
    let around := first.vertices ++ half.vertices
    { s with pending? := none }.addBranch (around ++ around.extract 0 1) true
  | none => { s with pending? := some half }

/-- A half loop without counterpart is reported, and kept as an open branch. -/
def finish (s : Stitching α) : Stitching α :=
  match s.pending? with
  | some half =>
    { s with
      pending? := none
      journal := s.journal.report (.unmatchedHalfLoop half.seed half.vertices.size)
      }.addBranch half.vertices false
  | none => s

end Stitching

namespace Plan

variable {α : Type} [Scalar α]

/-- Traces one seed; a seed outside of the window is left out. -/
def addSeed (plan : Plan α) (s : Stitching α) (seed : Point α) : Stitching α :=
  let p := seed.normalize
  let equation := plan.curve.equation
  let journal := s.journal.log (.seedTraced p (equation.residual p) (equation.gradient p))
  match plan.embedding.place plan.config.minAffineZ p with
  | .inside first =>
    match plan.traceInto journal #[first] p plan.config.step with
    | (forward, .escaped, journal) =>
      let (vertices, _, journal) :=
        plan.traceInto journal forward.reverse p (-plan.config.step)
      { s with journal }.addBranch vertices false
    | (vertices, .halfLoop, journal) => { s with journal }.addHalfLoop ⟨p, vertices⟩
  | _ => { s with journal }

/-- All branches of the plan's curve. -/
def tessellate (plan : Plan α) : Logged α (Tessellation α) :=
  let s := (plan.curve.seeds.foldl plan.addSeed .empty).finish
  let journal := s.journal.log (.tessellated plan.curve.equation s.branches.size)
  ⟨⟨s.branches, journal.diagnostics⟩, journal.messages⟩

end Plan

namespace Curve

variable {α : Type} [Scalar α]

/-- The branches of the curve, traced with the default configuration. -/
def tessellate (curve : Curve α) (embedding : Embedding α) : Logged α (Tessellation α) :=
  (Plan.mk curve embedding .default).tessellate

/-- The branches of the curve, traced with a configuration that has to be valid. -/
def tessellateWith (curve : Curve α) (embedding : Embedding α) (config : TraceConfig α) :
    Except PlotError (Logged α (Tessellation α)) :=
  (Plan.mk curve embedding config).check.map (·.tessellate)

end Curve

namespace Tessellation

variable {α : Type}

/-! ### Flat form -/

/-- The coordinates of a branch's vertices in one array; empty past the last branch. -/
def flatBranch (t : Tessellation α) (i : Nat) : Array α :=
  match t.branches[i]? with
  | some branch => branch.vertices.flatMap (·.toList.toArray)
  | none => #[]

def isClosed (t : Tessellation α) (i : Nat) : Bool := t.branches[i]?.any (·.closed)

end Tessellation

end EllipticPlot
