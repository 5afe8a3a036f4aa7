import EllipticPlot.Proofs.Acceptance
import EllipticPlot.Proofs.Null
import EllipticPlot.Proofs.Route

/-!
# Strides

A step of a trace never lands on the zero triple, in exact numbers or in doubles. The first step
leaves an axis: if it led to zero, there would be no tangent. Every later step keeps `y` away from
zero, or it is taken for a crossing.
-/

namespace EllipticPlot

open Scalar

variable {α : Type} [Scalar α] [LawfulZero α]

/-- On an axis of symmetry, up to what is no number. -/
def Equation.OnAxis (equation : Equation α) (p : Point α) : Prop :=
  Null p.y ∨ (∃ d, equation = .edwards d) ∧ Null p.x

namespace Point

omit [LawfulZero α] in
theorem beq_zero_iff (p : Point α) :
    (p == Point.zero) = true ↔
      (p.x == 0.0) = true ∧ (p.y == 0.0) = true ∧ (p.z == 0.0) = true := by
  change (p.x == 0.0 && p.y == 0.0 && p.z == 0.0) = true ↔ _
  rw [Bool.and_eq_true, Bool.and_eq_true, and_assoc]

theorem null_normalize_x {p : Point α} (h : Null p.x) : Null p.normalize.x := by
  unfold normalize
  dsimp only
  split
  · exact LawfulZero.null_mul_right h _
  · exact h

theorem null_normalize_y {p : Point α} (h : Null p.y) : Null p.normalize.y := by
  unfold normalize
  dsimp only
  split
  · exact LawfulZero.null_mul_right h _
  · exact h

theorem null_norm {p : Point α} (hx : Null p.x) (hy : Null p.y) (hz : Null p.z) :
    Null p.norm := by
  have hxx := LawfulZero.null_mul_right hx p.x
  have hyy := LawfulZero.null_mul_right hy p.y
  have hzz := LawfulZero.null_mul_right hz p.z
  exact LawfulZero.null_sqrt (LawfulZero.null_add (LawfulZero.null_add hxx hyy) hzz)

theorem null_cross_of_y {p q : Point α} (hp : Null p.y) (hq : Null q.y) :
    Null (p.cross q).x ∧ Null (p.cross q).z :=
  ⟨LawfulZero.null_sub (LawfulZero.null_mul_right hp _) (LawfulZero.null_mul_right hq _),
    LawfulZero.null_sub (LawfulZero.null_mul_left hq _) (LawfulZero.null_mul_left hp _)⟩

theorem null_cross_of_x {p q : Point α} (hp : Null p.x) (hq : Null q.x) :
    Null (p.cross q).y ∧ Null (p.cross q).z :=
  ⟨LawfulZero.null_sub (LawfulZero.null_mul_left hq _) (LawfulZero.null_mul_left hp _),
    LawfulZero.null_sub (LawfulZero.null_mul_right hp _) (LawfulZero.null_mul_right hq _)⟩

theorem null_of_moved {x t a : α} (ht : Null t) (h : (x + t * a == 0.0) = true) : Null x :=
  LawfulZero.null_of_add (LawfulZero.null_mul_right ht a) h

end Point

namespace Equation

/-- Both families are symmetric in `y`. -/
theorem null_gradient_y (equation : Equation α) {p : Point α} (h : Null p.y) :
    Null (equation.gradient p).y := by
  cases equation with
  | weierstrass a b =>
    exact LawfulZero.null_mul_right (LawfulZero.null_mul_left h _) _
  | edwards d =>
    exact LawfulZero.null_sub (LawfulZero.null_mul_right (LawfulZero.null_mul_left h _) _)
      (LawfulZero.null_mul_left h _)

theorem null_gradient_x (d : α) {p : Point α} (h : Null p.x) :
    Null ((Equation.edwards d).gradient p).x :=
  LawfulZero.null_sub (LawfulZero.null_mul_right (LawfulZero.null_mul_left h _) _)
    (LawfulZero.null_mul_right (LawfulZero.null_mul_left h _) _)

end Equation

namespace Plan

theorem stride?_ne_zero_of_onAxis {plan : Plan α} {delta : α} {p start : Point α}
    (haxis : plan.curve.equation.OnAxis p) (h : plan.stride? delta p = some start) :
    (start == Point.zero) = false := by
  obtain ⟨amount, hamount, rfl⟩ := stride?_eq_some h
  by_contra hzero
  obtain ⟨hx, hy, hz⟩ := (Point.beq_zero_iff _).mp (Bool.eq_true_of_not_eq_false hzero)
  -- point and gradient lie in the plane of symmetry and the tangent across it: the coordinates in
  -- the plane arrive at zero unmoved, so they were null before, and then there is no tangent
  have htangent : Null (plan.tangent p).x ∧ Null (plan.tangent p).y ∧ Null (plan.tangent p).z := by
    obtain hpy | ⟨⟨d, hd⟩, hpx⟩ := haxis
    · obtain ⟨htx, htz⟩ := Point.null_cross_of_y hpy (plan.curve.equation.null_gradient_y hpy)
      have hpx : Null p.x := Point.null_of_moved htx hx
      have hpz : Null p.z := Point.null_of_moved htz hz
      exact ⟨htx, LawfulZero.null_sub (LawfulZero.null_mul_right hpz _)
        (LawfulZero.null_mul_left hpx _), htz⟩
    · have hgx : Null (plan.curve.equation.gradient p).x := by
        rw [hd]
        exact Equation.null_gradient_x d hpx
      obtain ⟨hty, htz⟩ := Point.null_cross_of_x hpx hgx
      have hpy : Null p.y := Point.null_of_moved hty hy
      have hpz : Null p.z := Point.null_of_moved htz hz
      exact ⟨LawfulZero.null_sub (LawfulZero.null_mul_right hpy _)
        (LawfulZero.null_mul_left hpz _), hty, htz⟩
  obtain ⟨htx, hty, htz⟩ := htangent
  rw [LawfulZero.quotient?_null (Point.null_norm htx hty htz)] at hamount
  cases hamount

theorem stride?_ne_zero_of_not_crosses {plan : Plan α} {delta : α} {p start : Point α}
    (hcross : ¬ crosses (some p.y) start = true) (h : plan.stride? delta p = some start) :
    (start == Point.zero) = false := by
  obtain ⟨amount, -, rfl⟩ := stride?_eq_some h
  by_contra hzero
  obtain ⟨-, hy, -⟩ := (Point.beq_zero_iff _).mp (Bool.eq_true_of_not_eq_false hzero)
  have hfinite : isFinite p.y = true := LawfulZero.isFinite_of_add hy
  apply hcross
  rw [crosses]
  rw [Option.any_some, decide_eq_true_iff]
  exact LawfulZero.mul_zero_le hfinite hy

/-- No step leads to zero, be it the first or a later one. -/
theorem stride?_ne_zero {plan : Plan α} {delta : α} {p start : Point α} {lastY? : Option α}
    (hlast : ∀ y, lastY? = some y → y = p.y)
    (haxis : lastY? = none → plan.curve.equation.OnAxis p)
    (hcross : ¬ crosses lastY? start = true) (h : plan.stride? delta p = some start) :
    (start == Point.zero) = false := by
  cases lastY? with
  | none => exact stride?_ne_zero_of_onAxis (haxis rfl) h
  | some y =>
    rw [hlast y rfl] at hcross
    exact stride?_ne_zero_of_not_crosses hcross h

/-- No visit of a walk that leaves an axis starts at zero. -/
theorem start_ne_zero (plan : Plan α) (delta : α) (count : Nat) (position : Point α)
    (lastY? : Option α) (hlast : ∀ y, lastY? = some y → y = position.y)
    (haxis : lastY? = none → plan.curve.equation.OnAxis position) {visit : Visit α}
    (hmem : visit ∈ (plan.route delta count position lastY?).visits) :
    (visit.start == Point.zero) = false := by
  fun_induction plan.route delta count position lastY? with
  | case1 | case2 | case3 | case4 => cases hmem
  | case5 count position lastY? start hstride _ hcross visited here _ ih =>
    obtain rfl | hmem := List.mem_cons.mp hmem
    · exact stride?_ne_zero hlast haxis hcross hstride
    · refine ih (fun y hy => (Option.some.inj hy).symm) ?_ hmem
      intro hnone
      cases hnone
  | case6 count position lastY? start hstride _ hcross =>
    rw [List.mem_singleton.mp hmem]
    exact stride?_ne_zero hlast haxis hcross hstride

end Plan

end EllipticPlot
