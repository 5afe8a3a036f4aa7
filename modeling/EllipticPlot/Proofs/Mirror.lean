import EllipticPlot.Projection
import EllipticPlot.Proofs.RealPlane

/-!
# Mirrors

Both families of curves are symmetric in `y`, and Edwards curves in `x` as well. A mirror keeps
lengths and the residual, carries gradients along, and turns cross products around; with this a
projection commutes with every mirror that the equation is symmetric in.
-/

namespace EllipticPlot

/-- The planes to be mirrored in: `x = 0` and `y = 0`. -/
inductive Mirror where
  | x
  | y
  deriving DecidableEq, Repr

namespace Mirror

variable {α : Type} [Scalar α]

def image : Mirror → Point α → Point α
  | x => Point.mirrorX
  | y => Point.mirrorY

/-- What becomes of a second coordinate. -/
def imageY : Mirror → α → α
  | x => id
  | y => Neg.neg

theorem image_y (m : Mirror) (p : Point α) : (m.image p).y = m.imageY p.y := by
  cases m <;> rfl

@[simp] theorem image_z (m : Mirror) (p : Point α) : (m.image p).z = p.z := by
  cases m <;> rfl

end Mirror

/-- The mirrors in which the equation is symmetric. -/
def Equation.SymmetricIn {α : Type} (equation : Equation α) : Mirror → Prop
  | .x => ∃ d, equation = .edwards d
  | .y => True

/-! ### Points -/

namespace Point

theorem mirrorX_eq (p : Point ℝ) : p.mirrorX = ⟨-p.x, p.y, p.z⟩ := rfl

theorem mirrorY_eq (p : Point ℝ) : p.mirrorY = ⟨p.x, -p.y, p.z⟩ := rfl

end Point

namespace Mirror

variable (m : Mirror) (p q : Point ℝ)

theorem imageY_mul (s t : ℝ) : m.imageY s * m.imageY t = s * t := by
  cases m
  · rfl
  · exact neg_mul_neg s t

theorem image_image : m.image (m.image p) = p := by
  cases m
  · ext <;> simp [image, Point.mirrorX_eq]
  · exact p.mirrorY_mirrorY

theorem image_scale (s : ℝ) : m.image (p.scale s) = (m.image p).scale s := by
  cases m
  · ext <;> simp [image, Point.mirrorX_eq]
  · ext <;> simp [image]

theorem image_move (s : ℝ) : m.image (p.move s q) = (m.image p).move s (m.image q) := by
  cases m
  · ext <;> simp [image, Point.mirrorX_eq, Point.move_eq, add_comm]
  · ext <;> simp [image, Point.move_eq, add_comm]

theorem normSq_image : (m.image p).normSq = p.normSq := by
  cases m
  · simp [image, Point.mirrorX_eq, Point.normSq_eq]
  · simp [image, Point.normSq_eq]

theorem norm_image : (m.image p).norm = p.norm := by
  rw [Point.norm_eq, normSq_image, Point.norm_eq]

theorem image_eq_zero_iff : m.image p = Point.zero ↔ p = Point.zero := by
  rw [← Point.normSq_eq_zero, normSq_image, Point.normSq_eq_zero]

theorem normalize_image : (m.image p).normalize = m.image p.normalize := by
  by_cases hp : p = Point.zero
  · have himage := (m.image_eq_zero_iff p).mpr hp
    have hzero : (Point.zero : Point ℝ).normalize = Point.zero := by
      have hnorm : (Point.zero : Point ℝ).norm = 0 := by
        rw [Point.norm_eq, Point.normSq_eq_zero.mpr rfl, Real.sqrt_zero]
      norm_num [Point.normalize, hnorm]
    rw [himage, hzero, hp, hzero, (m.image_eq_zero_iff _).mpr rfl]
  · have himage : m.image p ≠ Point.zero := fun h => hp ((m.image_eq_zero_iff p).mp h)
    rw [Point.normalize_eq himage, Point.normalize_eq hp, norm_image, image_scale]

theorem image_normalize_of_fixed {p : Point ℝ} (hfixed : m.image p = p) :
    m.image p.normalize = p.normalize := by
  rw [← m.normalize_image, hfixed]

/-- A mirror turns the orientation around. -/
theorem cross_image : (m.image p).cross (m.image q) = (m.image (p.cross q)).scale (-1) := by
  cases m
  · ext <;> simp [image, Point.mirrorX_eq, Point.cross_eq] <;> ring
  · ext <;> simp [image, Point.cross_eq] <;> ring

end Mirror

/-! ### Equations -/

namespace Equation

variable {equation : Equation ℝ} {m : Mirror} (hsymmetric : equation.SymmetricIn m)

include hsymmetric

theorem residual_image (p : Point ℝ) : equation.residual (m.image p) = equation.residual p := by
  cases m
  · obtain ⟨d, rfl⟩ := hsymmetric
    simp [Mirror.image, Point.mirrorX_eq, residual_edwards]
  · exact equation.residual_mirrorY

theorem gradient_image (p : Point ℝ) :
    equation.gradient (m.image p) = m.image (equation.gradient p) := by
  cases m
  · obtain ⟨d, rfl⟩ := hsymmetric
    simp only [Mirror.image, Point.mirrorX_eq, gradient_edwards, Point.mk.injEq]
    exact ⟨by ring, by ring, by ring⟩
  · cases equation
    · simp [Mirror.image, Point.mirrorY_eq, gradient_weierstrass]
    · simp only [Mirror.image, Point.mirrorY_eq, gradient_edwards, Point.mk.injEq]
      exact ⟨by ring, by ring, by ring⟩

theorem newtonStep_image (p : Point ℝ) :
    equation.newtonStep (m.image p) = m.image (equation.newtonStep p) := by
  rw [newtonStep, newtonStep, gradient_image hsymmetric, residual_image hsymmetric,
    m.normSq_image, m.image_move]

end Equation

def Projection.map {α : Type} (f : Point α → Point α) (projection : Projection α) :
    Projection α := { projection with point := f projection.point }

namespace Equation

variable {equation : Equation ℝ} {m : Mirror} (hsymmetric : equation.SymmetricIn m)

include hsymmetric

theorem newton_image (tolerance : ℝ) (left taken : ℕ) (p : Point ℝ) :
    equation.newton tolerance left taken (m.image p) =
      (equation.newton tolerance left taken p).map m.image := by
  induction left generalizing taken p with
  | zero =>
    rw [newton, newton, m.normalize_image, residual_image hsymmetric]
    rfl
  | succ left ih =>
    rw [newton, newton]
    simp only [m.normalize_image, residual_image hsymmetric, newtonStep_image hsymmetric, ih]
    split <;> rfl

/-- Projecting commutes with mirroring. -/
theorem projectWithin_image (limit : ℕ) (tolerance : ℝ) (p : Point ℝ) :
    equation.projectWithin limit tolerance (m.image p) =
      (equation.projectWithin limit tolerance p).map m.image := by
  have himproper : ∀ q : Point ℝ, (!q.isFinite || q == Point.zero) = true ↔ q = Point.zero := by
    intro q
    rw [Bool.or_eq_true, Point.beq_iff]
    simp [Point.isFinite, Scalar.isFinite]
  rw [projectWithin, projectWithin]
  by_cases hp : p = Point.zero
  · rw [if_pos ((himproper _).mpr ((m.image_eq_zero_iff p).mpr hp)), if_pos ((himproper p).mpr hp)]
    rfl
  · have himage : m.image p ≠ Point.zero := fun h => hp ((m.image_eq_zero_iff p).mp h)
    rw [if_neg (fun h => himage ((himproper _).mp h)), if_neg (fun h => hp ((himproper p).mp h))]
    exact newton_image hsymmetric tolerance limit 0 p

end Equation

end EllipticPlot
