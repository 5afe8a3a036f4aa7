import EllipticPlot.Proofs.RealPlane
import Mathlib.Algebra.Group.Basic

/-!
# Groups of points

An addition of triples that is undecided about some pairs cannot be a group. It obeys the laws of
an abelian group all the same, up to the scale of triples and for the pairs that it decides, once
it is known to compute the sums of a group whose elements have triples of their own.
-/

namespace EllipticPlot

open Point

/-- On admissible pairs of triples that denote elements of a group, an operation gives a triple
that denotes their sum. `triple` is the way in which elements are written as points. -/
structure ComputesSum {G : Type} [AddCommGroup G] (triple : G → Point ℝ)
    (Admissible : Point ℝ → Point ℝ → Prop) (op : Point ℝ → Point ℝ → Point ℝ) : Prop where
  projEq : ∀ {P Q : G} {p q : Point ℝ}, (triple P).ProjEq p → (triple Q).ProjEq q →
    Admissible p q → (triple (P + Q)).ProjEq (op p q)

namespace ComputesSum

variable {G : Type} [AddCommGroup G] {triple : G → Point ℝ}
  {Admissible : Point ℝ → Point ℝ → Prop} {op : Point ℝ → Point ℝ → Point ℝ}
  {P Q R : G} {p q r : Point ℝ} (h : ComputesSum triple Admissible op)

include h

theorem comm (hp : (triple P).ProjEq p) (hq : (triple Q).ProjEq q) (hpq : Admissible p q)
    (hqp : Admissible q p) : (op p q).ProjEq (op q p) := by
  have hright := h.projEq hq hp hqp
  rw [add_comm] at hright
  exact (h.projEq hp hq hpq).symm.trans hright

theorem assoc (hp : (triple P).ProjEq p) (hq : (triple Q).ProjEq q) (hr : (triple R).ProjEq r)
    (hpq : Admissible p q) (hqr : Admissible q r) (hleft : Admissible (op p q) r)
    (hright : Admissible p (op q r)) : (op (op p q) r).ProjEq (op p (op q r)) := by
  have hsumLeft := h.projEq (h.projEq hp hq hpq) hr hleft
  have hsumRight := h.projEq hp (h.projEq hq hr hqr) hright
  rw [← add_assoc] at hsumRight
  exact hsumLeft.symm.trans hsumRight

theorem zero_right (hp : (triple P).ProjEq p) (hq : (triple 0).ProjEq q)
    (hpq : Admissible p q) : (op p q).ProjEq p := by
  have hsum := h.projEq hp hq hpq
  rw [add_zero] at hsum
  exact hsum.symm.trans hp

theorem neg_right (hp : (triple P).ProjEq p) (hq : (triple (-P)).ProjEq q)
    (hpq : Admissible p q) : (triple 0).ProjEq (op p q) := by
  have hsum := h.projEq hp hq hpq
  rwa [add_neg_cancel] at hsum

end ComputesSum

end EllipticPlot
