import EllipticPlot.PlotError
import EllipticPlot.Point

/-!
# Embeddings

How traced vertices are laid out for drawing: on the unit sphere, or in the plane `z = 1` clipped
to a square window.
-/

namespace EllipticPlot

inductive Embedding (α : Type) where
  /-- Unit representatives of projective points, without bounds. -/
  | projective
  /-- The plane `z = 1` where `|x|` and `|y|` are below the boundary. -/
  | affine (boundary : α)

/-- What becomes of a vertex: kept, kept as the last one, or dropped. -/
inductive Placement (α : Type) where
  | inside (vertex : Point α)
  | onBorder (vertex : Point α)
  | outOfPlane

namespace Placement

variable {α : Type}

def vertex? : Placement α → Option (Point α)
  | inside v | onBorder v => some v
  | outOfPlane => none

/-- Whether a trace goes on after this vertex. -/
def isInside : Placement α → Bool
  | inside _ => true
  | onBorder _ | outOfPlane => false

/-- `vertices` with this vertex at the end, if it is kept. -/
def appendTo (placement : Placement α) (vertices : Array (Point α)) : Array (Point α) :=
  match placement.vertex? with
  | some v => vertices.push v
  | none => vertices

end Placement

namespace Embedding

variable {α : Type} [Scalar α]

/-- The window with a positive finite boundary. -/
def window (boundary : α) : Except PlotError (Embedding α) :=
  if !Scalar.isFinite boundary || decide (boundary ≤ 0.0) then .error .invalidBoundary
  else .ok (.affine boundary)

/-- The window with the given boundary, or the sphere where there is none. -/
def ofBoundary? : Option α → Except PlotError (Embedding α)
  | some boundary => window boundary
  | none => .ok .projective

/-- Infinity is drawn on the sphere only. -/
def showsInfinity : Embedding α → Bool
  | projective => true
  | affine _ => false

/-- The place of `p`; below `minZ` it has none in the plane. -/
def place (embedding : Embedding α) (minZ : α) (p : Point α) : Placement α :=
  match embedding with
  | projective => .inside p
  | affine boundary =>
    if p.z < minZ then .outOfPlane
    else
      let x := p.x / p.z
      let y := p.y / p.z
      if Scalar.abs x < boundary ∧ Scalar.abs y < boundary then .inside ⟨x, y, 1.0⟩
      else .onBorder ⟨x, y, 1.0⟩

end Embedding

end EllipticPlot
