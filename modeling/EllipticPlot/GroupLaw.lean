import EllipticPlot.GroupLaw.Edwards
import EllipticPlot.GroupLaw.Weierstrass

/-!
# The group law

Addition of points on a curve of either family.
-/

namespace EllipticPlot.Equation

variable {α : Type} [Scalar α]

/-- The sum of two points; the threshold chooses between the charts of a Weierstrass curve. -/
def addWithThreshold (equation : Equation α) (threshold : α) (p q : Point α) : Sum α :=
  match equation with
  | .weierstrass a b => Weierstrass.sum a b threshold p q
  | .edwards d => ⟨Edwards.sum d p q, none⟩

def add (equation : Equation α) (p q : Point α) : Sum α :=
  equation.addWithThreshold Weierstrass.defaultThreshold p q

end EllipticPlot.Equation
