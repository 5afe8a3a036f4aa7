import EllipticPlot.Scalar

/-!
# Points

Homogeneous coordinates `(x, y, z)` in the projective plane. No scale is fixed: a triple is
brought to unit length only where a definition says so.
-/

namespace EllipticPlot

/-- A homogeneous coordinate triple. -/
structure Point (α : Type) where
  x : α
  y : α
  z : α
  deriving Repr

namespace Point

variable {α : Type} [Scalar α]

instance : Add (Point α) := ⟨fun p q => ⟨p.x + q.x, p.y + q.y, p.z + q.z⟩⟩

instance : Sub (Point α) := ⟨fun p q => ⟨p.x - q.x, p.y - q.y, p.z - q.z⟩⟩

instance : Neg (Point α) := ⟨fun p => ⟨-p.x, -p.y, -p.z⟩⟩

instance : BEq (Point α) := ⟨fun p q => p.x == q.x && p.y == q.y && p.z == q.z⟩

def zero : Point α := ⟨0.0, 0.0, 0.0⟩

def isFinite (p : Point α) : Bool :=
  Scalar.isFinite p.x && Scalar.isFinite p.y && Scalar.isFinite p.z

def scale (s : α) (p : Point α) : Point α := ⟨p.x * s, p.y * s, p.z * s⟩

def divide (p : Point α) (s : α) : Point α := ⟨p.x / s, p.y / s, p.z / s⟩

/-- `p` moved by `amount` times `direction`. -/
def move (p : Point α) (amount : α) (direction : Point α) : Point α :=
  p + direction.scale amount

def dot (p q : Point α) : α := p.x * q.x + p.y * q.y + p.z * q.z

def cross (p q : Point α) : Point α :=
  ⟨p.y * q.z - q.y * p.z, p.z * q.x - q.z * p.x, p.x * q.y - q.x * p.y⟩

def normSq (p : Point α) : α := p.dot p

def norm (p : Point α) : α := Scalar.sqrt p.normSq

/-! ### Unit length -/

/-- The multiple of `p` with unit length; a triple without positive length is kept. -/
def normalize (p : Point α) : Point α :=
  let length := p.norm
  if 0.0 < length then p.scale (1.0 / length) else p

/-- The multiple of `p` with unit length, where the length has a positive reciprocal. -/
def unit? (p : Point α) : Option (Point α) :=
  match Scalar.quotient? 1.0 p.norm with
  | some r => if 0.0 < r then some (p.scale r) else none
  | none => none

/-- The unit representative of a triple that denotes a point: it is finite and not zero. -/
def proper? (p : Point α) : Option (Point α) :=
  if p.isFinite then p.unit? else none

/-! ### Projective points -/

/-- The square of the angle under which two triples count as the same projective point. -/
def sameAngleSq : α := 1e-24

/-- Whether two triples denote the same projective point, up to a tiny angle between them. -/
def same (p q : Point α) : Bool :=
  p == q || decide ((p.cross q).normSq ≤ sameAngleSq * p.normSq * q.normSq)

/-- The triple of the same projective point on the side `0 ≤ z`. -/
def upper (p : Point α) : Point α := if p.z < 0.0 then -p else p

/-- The mirror image in the plane `y = 0`. -/
def mirrorY (p : Point α) : Point α := ⟨p.x, -p.y, p.z⟩

/-- The mirror image in the plane `x = 0`. -/
def mirrorX (p : Point α) : Point α := ⟨-p.x, p.y, p.z⟩

/-- The point at infinity in the direction of the axis that dominates `p`, with its sign. -/
def axisMarker (p : Point α) : Point α :=
  if Scalar.abs p.y < Scalar.abs p.x then ⟨Scalar.unitSign p.x, 0.0, 0.0⟩
  else ⟨0.0, Scalar.unitSign p.y, 0.0⟩

/-- The coordinates as a list, in order. -/
def toList (p : Point α) : List α := [p.x, p.y, p.z]

end Point

end EllipticPlot
