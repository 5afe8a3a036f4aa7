import EllipticPlot.Proofs.Binary64Sign
import EllipticPlot.Proofs.Provenance
import EllipticPlot.Proofs.TraceRecord

/-!
# When a projection converges

A projection ends at the first of Newton's iterates that is within the tolerance, or at its limit;
the iterates keep their scale, and each is judged at unit length. The tolerance is tested before
every step and not after the last one. So a point that is reached with the last step is returned as
not converged even if it is on the curve, and a trace reports it as stalled: `ReachedLast` names
the starts for which this happens, and for every other start the flag agrees with the residual.
-/

namespace EllipticPlot

variable {α : Type} [Scalar α]

/-- The residual that the projection gives is within the tolerance. -/
def Projection.IsWithin (projection : Projection α) (tolerance : α) : Prop :=
  ∃ residual, projection.residual? = some residual ∧ Scalar.abs residual < tolerance

instance (projection : Projection α) (tolerance : α) : Decidable (projection.IsWithin tolerance) :=
  decidable_of_iff (projection.residual?.any fun residual => Scalar.abs residual < tolerance) <| by
    cases hresidual : projection.residual? <;> simp [Projection.IsWithin, hresidual]

/-- The diagnostic reports a projection as stalled although its residual is within the tolerance. -/
def Diagnostic.isStalledWithin (tolerance : α) : Diagnostic α → Bool
  | .projectionStalled _ _ (some residual) => decide (Scalar.abs residual < tolerance)
  | _ => false

theorem Diagnostic.of_isStalledWithin {tolerance : α} {diagnostic : Diagnostic α}
    (h : diagnostic.isStalledWithin tolerance = true) :
    ∃ start result residual, diagnostic = .projectionStalled start result (some residual) ∧
      Scalar.abs residual < tolerance := by
  unfold isStalledWithin at h
  split at h
  · next start result residual => exact ⟨start, result, residual, rfl, of_decide_eq_true h⟩
  · cases h

namespace Equation

/-! ### Newton's iterates -/

/-- Newton's sequence from `p`, in the scale of `p`. -/
def newtonSequence (equation : Equation α) (p : Point α) : ℕ → Point α
  | 0 => p
  | k + 1 =>
    let q := equation.newtonSequence p k
    let gradient := equation.gradient q
    q - gradient.scale (equation.residual q / gradient.normSq)

def unitIterate (equation : Equation α) (p : Point α) (k : ℕ) : Point α :=
  (equation.newtonSequence p k).normalize

def IsWithin (equation : Equation α) (tolerance : α) (p : Point α) : Prop :=
  Scalar.abs (equation.residual p) < tolerance

instance (equation : Equation α) (tolerance : α) (p : Point α) :
    Decidable (equation.IsWithin tolerance p) := inferInstanceAs (Decidable (_ < _))

/-- What a projection of `p` returns if it ends at the `k`-th iterate. -/
def endingAt (equation : Equation α) (p : Point α) (k : ℕ) (converged : Bool) : Projection α :=
  ⟨equation.unitIterate p k, some (equation.residual (equation.unitIterate p k)), k, converged⟩

variable [Scalar.LawfulNeg α]

theorem newtonStep_eq (equation : Equation α) (p : Point α) :
    equation.newtonStep p = p - (equation.gradient p).scale
      (equation.residual p / (equation.gradient p).normSq) := by
  have hmove : ∀ x y share : α, x + y * -share = x - y * share := by
    intro x y share
    rw [Scalar.LawfulNeg.mul_neg, Scalar.LawfulNeg.add_neg]
  rw [newtonStep, Scalar.LawfulNeg.neg_div]
  apply (Point.mk.injEq ..).mpr
  exact ⟨hmove _ _ _, hmove _ _ _, hmove _ _ _⟩

theorem newtonSequence_eq (equation : Equation α) (p : Point α) (k : ℕ) :
    equation.newtonSequence p k = equation.newtonStep^[k] p := by
  induction k with
  | zero => rfl
  | succ k ih => rw [Function.iterate_succ_apply', newtonStep_eq, ← ih, newtonSequence]

/-! ### Where a projection ends -/

variable {equation : Equation α} {tolerance : α} {limit k : ℕ} {p : Point α}

theorem StopsAt.iff_unitIterate : equation.StopsAt tolerance limit p k ↔
    k ≤ limit ∧ (∀ i < k, ¬ equation.IsWithin tolerance (equation.unitIterate p i)) ∧
      (k < limit → equation.IsWithin tolerance (equation.unitIterate p k)) := by
  simp only [IsWithin, unitIterate, newtonSequence_eq]
  exact ⟨fun h => ⟨h.le_limit, h.beyond, h.within⟩, fun h => ⟨h.1, h.2.1, h.2.2⟩⟩

omit [Scalar.LawfulNeg α] in
theorem StopsAt.unique {j : ℕ} (hk : equation.StopsAt tolerance limit p k)
    (hj : equation.StopsAt tolerance limit p j) : k = j := by
  obtain hlt | heq | hgt := lt_trichotomy k j
  · exact absurd (hk.within (hlt.trans_le hj.le_limit)) (hj.beyond k hlt)
  · exact heq
  · exact absurd (hj.within (hgt.trans_le hk.le_limit)) (hk.beyond j hgt)

section

variable (hfinite : p.isFinite = true) (hzero : (p == Point.zero) = false)

include hfinite hzero

/-- A projection stops at one of the iterates, and converged if it is not the one at the limit. -/
theorem projectWithin_stopsAt (equation : Equation α) (tolerance : α) (limit : ℕ) :
    ∃ k, equation.StopsAt tolerance limit p k ∧
      equation.projectWithin limit tolerance p = equation.endingAt p k (decide (k < limit)) := by
  obtain ⟨k, hstops, heq⟩ := equation.newton_stopsAt tolerance limit 0 p
  refine ⟨k, hstops, ?_⟩
  have hproper : ¬ (!p.isFinite || p == Point.zero) = true := by
    rw [hfinite, hzero]
    exact Bool.false_ne_true
  rw [projectWithin, if_neg hproper, heq, endingAt, unitIterate, newtonSequence_eq, Nat.zero_add]

theorem projectWithin_of_stopsAt (h : equation.StopsAt tolerance limit p k) :
    equation.projectWithin limit tolerance p = equation.endingAt p k (decide (k < limit)) := by
  obtain ⟨j, hstops, heq⟩ := projectWithin_stopsAt hfinite hzero equation tolerance limit
  rw [heq, h.unique hstops]

theorem projectWithin_of_beyond
    (h : ∀ k < limit, ¬ equation.IsWithin tolerance (equation.unitIterate p k)) :
    equation.projectWithin limit tolerance p = equation.endingAt p limit false := by
  have hstops : equation.StopsAt tolerance limit p limit :=
    StopsAt.iff_unitIterate.mpr ⟨le_rfl, h, fun hlt => absurd hlt (lt_irrefl limit)⟩
  rw [projectWithin_of_stopsAt hfinite hzero hstops, decide_eq_false (lt_irrefl limit)]

end

/-- How the projection of `p` is told by the iterates from `p`. -/
structure EndsAtFirst (equation : Equation α) (tolerance : α) (limit : ℕ) (p : Point α) :
    Prop where
  improper : p.isFinite = false ∨ (p == Point.zero) = true →
    equation.projectWithin limit tolerance p = ⟨p, none, 0, false⟩
  /-- It is the first iterate within the tolerance, if there is one before the limit. -/
  within : p.isFinite = true → (p == Point.zero) = false →
    (∃ k < limit, equation.IsWithin tolerance (equation.unitIterate p k)) →
    ∃ k < limit, equation.IsWithin tolerance (equation.unitIterate p k) ∧
      (∀ j < k, ¬ equation.IsWithin tolerance (equation.unitIterate p j)) ∧
      equation.projectWithin limit tolerance p = equation.endingAt p k true
  /-- Else it is the iterate at the limit. -/
  beyond : p.isFinite = true → (p == Point.zero) = false →
    (∀ k < limit, ¬ equation.IsWithin tolerance (equation.unitIterate p k)) →
    equation.projectWithin limit tolerance p = equation.endingAt p limit false
  residual : p.isFinite = true → (p == Point.zero) = false →
    (equation.projectWithin limit tolerance p).residual? =
      some (equation.residual (equation.projectWithin limit tolerance p).point)

/-- A projection returns the first of Newton's iterates that meets the tolerance. -/
theorem projectWithin_first (equation : Equation α) (tolerance : α) (limit : ℕ) (p : Point α) :
    equation.EndsAtFirst tolerance limit p := by
  refine ⟨projectWithin_of_improper, ?within, projectWithin_of_beyond, ?residual⟩
  case within =>
    rintro hfinite hzero ⟨j, hj, hwithin⟩
    obtain ⟨k, hstops, heq⟩ := projectWithin_stopsAt hfinite hzero equation tolerance limit
    obtain ⟨hle, hbeyond, hmeets⟩ := StopsAt.iff_unitIterate.mp hstops
    have hk : k < limit := by
      by_contra hlast
      exact hbeyond j (hj.trans_le (not_lt.mp hlast)) hwithin
    rw [decide_eq_true hk] at heq
    exact ⟨k, hk, hmeets hk, hbeyond, heq⟩
  case residual =>
    intro hfinite hzero
    obtain ⟨k, -, heq⟩ := projectWithin_stopsAt hfinite hzero equation tolerance limit
    rw [heq]
    rfl

/-- In doubles, a projection onto `y² = x³ - x + 1` that one step does not finish. -/
theorem projectWithin_first_two_one :
    let equation : Equation Float := .weierstrass (-1.0) 1.0
    let p : Point Float := ⟨2.0, 1.0, 1.0⟩
    let meets := fun k => equation.IsWithin 0.01 (equation.unitIterate p k)
    p.isFinite = true ∧ (p == Point.zero) = false ∧ meets 3 ∧
      equation.projectWithin 1 0.01 p = equation.endingAt p 1 false ∧
      ∃ k < 20, meets k ∧ (∀ j < k, ¬ meets j) ∧
        equation.projectWithin 20 0.01 p = equation.endingAt p k true := by
  intro equation p meets
  have hfinite : p.isFinite = true := by decide
  have hzero : (p == Point.zero) = false := by decide
  have hbeyond : ¬ meets 0 := by
    simp only [meets]
    decide +kernel
  have hthree : meets 3 := by
    simp only [meets]
    decide +kernel
  have hone : ∀ k < 1, ¬ meets k := by
    intro k hk
    rwa [Nat.lt_one_iff.mp hk]
  exact ⟨hfinite, hzero, hthree,
    (equation.projectWithin_first 0.01 1 p).beyond hfinite hzero hone,
    (equation.projectWithin_first 0.01 20 p).within hfinite hzero ⟨3, by norm_num, hthree⟩⟩

/-! ### The last step -/

/-- The iterates that a projection of `p` tests are all beyond the tolerance, but the one at the
limit is within it. -/
structure ReachedLast (equation : Equation α) (tolerance : α) (limit : ℕ) (p : Point α) :
    Prop where
  isFinite : p.isFinite = true
  ne_zero : (p == Point.zero) = false
  beyond : ∀ k < limit, ¬ equation.IsWithin tolerance (equation.unitIterate p k)
  within : equation.IsWithin tolerance (equation.unitIterate p limit)

omit [Scalar.LawfulNeg α] in
theorem isWithin_endingAt {converged : Bool} :
    (equation.endingAt p k converged).IsWithin tolerance ↔
      equation.IsWithin tolerance (equation.unitIterate p k) := by
  simp [Projection.IsWithin, endingAt, IsWithin]

/-- The residual is within the tolerance and the flag does not say so, exactly for such starts. -/
theorem isWithin_and_not_converged_iff :
    (equation.projectWithin limit tolerance p).IsWithin tolerance ∧
        (equation.projectWithin limit tolerance p).converged = false ↔
      equation.ReachedLast tolerance limit p := by
  constructor
  · rintro ⟨hwithin, hflag⟩
    by_cases himproper : p.isFinite = false ∨ (p == Point.zero) = true
    · rw [projectWithin_of_improper himproper] at hwithin
      obtain ⟨residual, hnone, -⟩ := hwithin
      cases hnone
    · obtain ⟨hfinite, hzero⟩ := not_or.mp himproper
      rw [Bool.not_eq_false] at hfinite
      rw [Bool.not_eq_true] at hzero
      obtain ⟨k, hstops, heq⟩ := projectWithin_stopsAt hfinite hzero equation tolerance limit
      obtain ⟨hle, hbeyond, -⟩ := StopsAt.iff_unitIterate.mp hstops
      rw [heq] at hwithin hflag
      obtain rfl : k = limit := hle.antisymm (not_lt.mp (of_decide_eq_false hflag))
      exact ⟨hfinite, hzero, hbeyond, isWithin_endingAt.mp hwithin⟩
  · intro h
    rw [projectWithin_of_beyond h.isFinite h.ne_zero h.beyond]
    exact ⟨isWithin_endingAt.mpr h.within, rfl⟩

/-- With one step more to go the same point is returned as converged. -/
theorem ReachedLast.projectWithin_succ (h : equation.ReachedLast tolerance limit p) :
    equation.projectWithin (limit + 1) tolerance p =
      { equation.projectWithin limit tolerance p with converged := true } := by
  have hstops : equation.StopsAt tolerance (limit + 1) p limit :=
    StopsAt.iff_unitIterate.mpr ⟨limit.le_succ, h.beyond, fun _ => h.within⟩
  rw [projectWithin_of_stopsAt h.isFinite h.ne_zero hstops,
    projectWithin_of_beyond h.isFinite h.ne_zero h.beyond, decide_eq_true limit.lt_succ_self]
  rfl

end Equation

/-! ### Traces -/

namespace Plan

/-- What a trace reports as stalled is a projection that did not converge. -/
theorem projectVertex_of_stalled {plan : Plan α} {seed start result : Point α} {delta : α}
    {residual? : Option α}
    (hmem : .projectionStalled start result residual? ∈ (plan.leg seed delta).reports) :
    (plan.projectVertex start).converged = false ∧
      (plan.projectVertex start).residual? = residual? := by
  have hstalled := List.mem_filter.mpr ⟨hmem, (rfl : Diagnostic.isStalled _ = true)⟩
  rw [Route.filter_stalled_reports] at hstalled
  obtain ⟨visit, hvisit, hstall⟩ := List.mem_map.mp hstalled
  obtain ⟨hvisit, hflag⟩ := List.mem_filter.mp hvisit
  obtain ⟨rfl, -, rfl⟩ := Diagnostic.projectionStalled.inj hstall
  have hprojection : visit.projection = plan.projectVertex visit.start :=
    congrArg Visit.projection (plan.visit_of_mem_route delta _ _ _ hvisit)
  rw [← hprojection]
  exact ⟨(Bool.not_eq_true' _).mp hflag, rfl⟩

end Plan

namespace Curve

/-- When the flag of a projection, and the reports of a trace, do not say what the residual says. -/
structure FlaggedUpToLast (curve : Curve α) (config : TraceConfig α)
    (record : TraceRecord α) : Prop where
  flag : ∀ (limit : ℕ) (tolerance : α) (p : Point α),
    (curve.equation.projectWithin limit tolerance p).IsWithin tolerance ∧
        (curve.equation.projectWithin limit tolerance p).converged = false ↔
      curve.equation.ReachedLast tolerance limit p
  longer : ∀ (limit : ℕ) (tolerance : α) (p : Point α),
    curve.equation.ReachedLast tolerance limit p →
      curve.equation.projectWithin (limit + 1) tolerance p =
        { curve.equation.projectWithin limit tolerance p with converged := true }
  report : ∀ (start result : Point α) (residual : α),
    .projectionStalled start result (some residual) ∈ record.diagnostics →
      (Scalar.abs residual < config.vertexTolerance ↔
        curve.equation.ReachedLast config.vertexTolerance config.maxIterations start)

/-- A projection within the tolerance is flagged as converged, and is not reported by a trace,
unless it was reached with the last step. -/
theorem record_flaggedUpToLast [Scalar.LawfulNeg α] (curve : Curve α) (embedding : Embedding α)
    {config : TraceConfig α} (hvalid : config.isValid = true) (seed : Point α) (delta : α) :
    ∃ record, (Plan.mk curve embedding config).record seed delta = .ok record ∧
      curve.FlaggedUpToLast config record := by
  refine ⟨_, Plan.record_eq _ hvalid seed delta, ?flag, ?longer, ?report⟩
  case flag => exact fun _ _ _ => Equation.isWithin_and_not_converged_iff
  case longer => exact fun _ _ _ => Equation.ReachedLast.projectWithin_succ
  case report =>
    intro start result residual hmem
    obtain ⟨hflag, hresidual⟩ := Plan.projectVertex_of_stalled hmem
    rw [← Equation.isWithin_and_not_converged_iff]
    constructor
    · exact fun hwithin => ⟨⟨residual, hresidual, hwithin⟩, hflag⟩
    · rintro ⟨⟨other, hother, hwithin⟩, -⟩
      obtain rfl := Option.some.inj (hother.symm.trans hresidual)
      exact hwithin

/-- The Edwards curve with `d = -1` in doubles, with the default configuration. -/
theorem record_flaggedUpToLast_neg_one :
    let curve : Curve Float := ⟨.edwards (-1.0), [⟨-1.0, 0.0, 1.0⟩, ⟨1.0, 0.0, 1.0⟩]⟩
    (TraceConfig.default : TraceConfig Float).isValid = true ∧
      ∃ record, (Plan.mk curve .projective .default).record (Point.normalize ⟨1.0, 0.0, 1.0⟩)
          0.01 = .ok record ∧ curve.FlaggedUpToLast .default record := by
  have hvalid : (TraceConfig.default : TraceConfig Float).isValid = true := rfl
  exact ⟨hvalid, record_flaggedUpToLast _ _ hvalid _ _⟩

/-- On that curve one step is allowed, and it reaches the tolerance, but the projection is not
flagged as converged and a trace reports the vertex. -/
theorem unflagged_at_limit :
    let equation : Equation Float := .edwards (-1.0)
    let curve : Curve Float := ⟨equation, [⟨-1.0, 0.0, 1.0⟩, ⟨1.0, 0.0, 1.0⟩]⟩
    let config : TraceConfig Float :=
      { TraceConfig.default with maxSteps := 1, vertexTolerance := 1e-7, maxIterations := 1 }
    let start : Point Float := ⟨0.7071067811865475, 0.01, 0.7071067811865475⟩
    let projection := equation.projectWithin 1 1e-7 start
    ofEquation equation = .ok curve ∧ start.isFinite = true ∧ (start == Point.zero) = false ∧
      projection.IsWithin 1e-7 ∧ projection.converged = false ∧ config.isValid = true ∧
      ∃ record, (Plan.mk curve .projective config).record (Point.normalize ⟨1.0, 0.0, 1.0⟩) 0.01 =
          .ok record ∧
        ∃ start result residual, .projectionStalled start result (some residual) ∈
          record.diagnostics ∧ Scalar.abs residual < config.vertexTolerance := by
  intro equation curve config start projection
  have hfinite : start.isFinite = true := by decide
  have hzero : (start == Point.zero) = false := by decide
  have hvalid : config.isValid = true := by decide
  have hunflagged : projection.IsWithin 1e-7 ∧ projection.converged = false := by decide +kernel
  have hreport : (((Plan.mk curve .projective config).leg (Point.normalize ⟨1.0, 0.0, 1.0⟩)
      0.01).reports.any (Diagnostic.isStalledWithin 1e-7)) = true := by decide +kernel
  obtain ⟨diagnostic, hmem, hstalled⟩ := List.any_eq_true.mp hreport
  obtain ⟨start', result, small, rfl, hless⟩ := Diagnostic.of_isStalledWithin hstalled
  have hrecord := Plan.record_eq (Plan.mk curve .projective config) hvalid
    (Point.normalize ⟨1.0, 0.0, 1.0⟩) 0.01
  exact ⟨Plan.accepted_edwards_neg_one, hfinite, hzero, hunflagged.1, hunflagged.2, hvalid, _,
    hrecord, start', result, small, hmem, hless⟩

end Curve

end EllipticPlot
