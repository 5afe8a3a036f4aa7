import EllipticPlot.Projection
import Mathlib.Logic.Function.Iterate

/-!
# Newton's iteration

What a projection says about itself: its residual is that of its point, and where it converged the
residual is within the tolerance. Only a start that is zero or not finite has no residual. The
iteration stops at the first iterate within the tolerance, or else at its limit.
-/

namespace EllipticPlot.Equation

variable {α : Type} [Scalar α]

theorem newton_residual? (equation : Equation α) (tolerance : α) (left taken : Nat)
    (p : Point α) :
    (equation.newton tolerance left taken p).residual? =
      some (equation.residual (equation.newton tolerance left taken p).point) := by
  fun_induction newton equation tolerance left taken p with
  | case1 taken p => rfl
  | case2 left taken p candidate residual hwithin => rfl
  | case3 left taken p candidate residual hbeyond ih => exact ih

theorem abs_residual_lt_of_newton_converged (equation : Equation α) (tolerance : α)
    (left taken : Nat) (p : Point α)
    (h : (equation.newton tolerance left taken p).converged = true) :
    Scalar.abs (equation.residual (equation.newton tolerance left taken p).point) < tolerance := by
  fun_induction newton equation tolerance left taken p with
  | case1 taken p => cases h
  | case2 left taken p candidate residual hwithin => exact hwithin
  | case3 left taken p candidate residual hbeyond ih => exact ih h

/-- Where a projection converged, its point is on the curve up to the tolerance. -/
theorem abs_residual_lt_of_converged {equation : Equation α} {limit : Nat} {tolerance : α}
    {p : Point α} (h : (equation.projectWithin limit tolerance p).converged = true) :
    Scalar.abs (equation.residual (equation.projectWithin limit tolerance p).point)
      < tolerance := by
  rw [projectWithin] at h ⊢
  split at h
  · cases h
  · next hproper =>
    rw [if_neg hproper]
    exact abs_residual_lt_of_newton_converged _ _ _ _ _ h

/-- A projection reports the residual of its point, unless the start is no proper triple. -/
theorem projectWithin_residual? (equation : Equation α) (limit : Nat) (tolerance : α)
    {p : Point α} (hzero : (p == Point.zero) = false) :
    (equation.projectWithin limit tolerance p).residual? =
      if p.isFinite then some (equation.residual (equation.projectWithin limit tolerance p).point)
      else none := by
  rw [projectWithin]
  rw [hzero, Bool.or_false]
  cases p.isFinite
  · rfl
  · exact newton_residual? _ _ _ _ _

/-- A zero or infinite triple is no start of a projection. -/
theorem projectWithin_of_improper {equation : Equation α} {limit : Nat} {tolerance : α}
    {p : Point α} (h : p.isFinite = false ∨ (p == Point.zero) = true) :
    equation.projectWithin limit tolerance p = ⟨p, none, 0, false⟩ := by
  rw [projectWithin, if_pos]
  obtain hinfinite | hzero := h
  · rw [hinfinite]
    rfl
  · rw [hzero, Bool.or_true]

/-! ### Where the iteration stops -/

/-- The iterates before the `k`-th are beyond the tolerance; the `k`-th is within it, unless the
limit is reached. -/
structure StopsAt (equation : Equation α) (tolerance : α) (limit : ℕ) (p : Point α) (k : ℕ) :
    Prop where
  le_limit : k ≤ limit
  beyond : ∀ i < k,
    ¬ Scalar.abs (equation.residual (equation.newtonStep^[i] p).normalize) < tolerance
  within : k < limit →
    Scalar.abs (equation.residual (equation.newtonStep^[k] p).normalize) < tolerance

variable {equation : Equation α} {tolerance : α} {limit k : ℕ} {p : Point α}

theorem StopsAt.of_within
    (h : Scalar.abs (equation.residual p.normalize) < tolerance) :
    equation.StopsAt tolerance limit p 0 :=
  ⟨limit.zero_le, nofun, fun _ => h⟩

theorem StopsAt.of_beyond (hbeyond : ¬ Scalar.abs (equation.residual p.normalize) < tolerance)
    (h : equation.StopsAt tolerance limit (equation.newtonStep p) k) :
    equation.StopsAt tolerance (limit + 1) p (k + 1) := by
  refine ⟨Nat.succ_le_succ h.le_limit, fun i hi => ?_, fun hk => ?_⟩
  · cases i with
    | zero => exact hbeyond
    | succ i => exact h.beyond i (Nat.lt_of_succ_lt_succ hi)
  · exact h.within (Nat.lt_of_succ_lt_succ hk)

theorem newton_stopsAt (equation : Equation α) (tolerance : α) (left taken : ℕ) (p : Point α) :
    ∃ k, equation.StopsAt tolerance left p k ∧ equation.newton tolerance left taken p =
      ⟨(equation.newtonStep^[k] p).normalize,
        some (equation.residual (equation.newtonStep^[k] p).normalize), taken + k,
        decide (k < left)⟩ := by
  fun_induction newton equation tolerance left taken p with
  | case1 taken p => exact ⟨0, ⟨Nat.le_refl 0, nofun, nofun⟩, rfl⟩
  | case2 left taken p candidate residual hwithin => exact ⟨0, .of_within hwithin, rfl⟩
  | case3 left taken p candidate residual hbeyond ih =>
    obtain ⟨k, hstops, heq⟩ := ih
    refine ⟨k + 1, .of_beyond hbeyond hstops, ?_⟩
    rw [heq, Function.iterate_succ_apply, Nat.add_assoc taken 1 k, Nat.add_comm 1 k]
    simp only [Nat.succ_eq_add_one, Nat.add_lt_add_iff_right]

end EllipticPlot.Equation
