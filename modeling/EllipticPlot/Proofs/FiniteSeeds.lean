import EllipticPlot.Proofs.SeedResidual

/-!
# Finite seeds

In doubles a cubic has no number for a root only where its `delta` overflows: a `delta` that is a
number keeps the coefficients small enough for everything that is computed from them. What Cardano's
formula then gives is almost a root, unless a large linear coefficient cancels its two cube roots.
The seeds of Edwards curves are the same for all parameters, and no parameter is felt on the axes.
-/

namespace EllipticPlot

open Binary64
open Float.Model.UnpackedFloat

/-! ### Roots of cubics -/

namespace DepressedCubic

variable {c : DepressedCubic Float}

theorem isFinite_of_mem_repeatedRoots (hconstant : AtMost 513 (value c.constant)) {x : Float}
    (hx : x ∈ c.repeatedRoots) : Scalar.isFinite x = true := by
  rw [repeatedRoots] at hx
  split at hx
  · rw [List.mem_singleton.mp hx]
    rfl
  · have hscaled := atMost_mul constantBounds.neg_four hconstant (by norm_num) (by norm_num)
    have hsimple := atMost_cbrt (isFinite_of_atMost hscaled)
    have hdouble := atMost_mul constantBounds.neg_half hsimple (by norm_num) (by norm_num)
    rw [mem_ascending, List.mem_cons, List.mem_singleton] at hx
    obtain rfl | rfl := hx
    · exact isFinite_of_atMost hsimple
    · exact isFinite_of_atMost hdouble

/-- The single root is the sum of the cube roots of two numbers below `2 ^ 513`. -/
theorem isFinite_singleRoot (hpos : 0.0 < c.delta) (hconstant : AtMost 513 (value c.constant))
    (hdelta : Scalar.isFinite c.delta = true) : Scalar.isFinite c.singleRoot = true := by
  have hlow : AtMost (512 + 512) (value c.delta) := (atMost_value hdelta).mono (by norm_num)
  have hroot : AtMost 512 (value c.delta.sqrt) := by
    obtain hnan | hbound := atMost_sqrt hlow (by norm_num) (by norm_num)
    · have hpositive := isPositive_sqrt (isPositive_of_pos hpos)
      rw [hnan] at hpositive
      cases hpositive
    · exact hbound
  have hhalf : AtMost 512 (value (-0.5 * c.constant)) :=
    (atMost_mul constantBounds.neg_half hconstant (by norm_num) (by norm_num)).mono (by norm_num)
  have hsum := atMost_cbrt (isFinite_of_atMost (atMost_add hhalf hroot (by norm_num) (by norm_num)))
  have hdifference :=
    atMost_cbrt (isFinite_of_atMost (atMost_sub hhalf hroot (by norm_num) (by norm_num)))
  exact isFinite_of_atMost (atMost_add hsum hdifference (by norm_num) (by norm_num))

/-- Where `delta` is infinite, so are both cube roots, with opposite signs. -/
theorem not_isFinite_singleRoot (hpos : 0.0 < c.delta)
    (hconstant : Scalar.isFinite c.constant = true)
    (hdelta : Scalar.isFinite c.delta = false) : Scalar.isFinite c.singleRoot = false := by
  have hroot : value c.delta.sqrt = .infinity .positive := by
    rw [value_sqrt, (isPositive_of_pos hpos).eq_infinity hdelta]
    exact stored_infinity .positive
  have hhalf := atMost_mul constantBounds.neg_half (atMost_value hconstant) (by norm_num)
    (by norm_num)
  have hsum := value_add_infinity (isFinite_of_atMost hhalf) hroot
  have hdifference := value_sub_infinity (isFinite_of_atMost hhalf) hroot
  change (value (cbrt (-0.5 * c.constant + c.delta.sqrt) +
    cbrt (-0.5 * c.constant - c.delta.sqrt))).isFinite = false
  rw [cbrt_of_infinity hsum, cbrt_of_infinity hdifference, value_add, hsum, hdifference]
  rfl

/-- A cubic that is solved has finite roots, unless `delta` is positive and overflows. -/
theorem isFinite_roots_iff {xs : List Float} (h : c.roots = .ok xs) :
    (∀ x ∈ xs, Scalar.isFinite x = true) ↔ (0.0 < c.delta → Scalar.isFinite c.delta = true) := by
  have hconstant := (isFinite_of_roots h).2
  have hbound : Scalar.isFinite c.delta = true → AtMost 513 (value c.constant) :=
    fun hdelta => atMost_constant hconstant (isFinite_of_isFinite_add hdelta).1
  obtain ⟨hzero, rfl⟩ | ⟨hpos, rfl⟩ | ⟨hpos, hall, rfl⟩ := roots_cases h
  · have hdelta := isFinite_of_beq_zero hzero
    exact iff_of_true (fun x => isFinite_of_mem_repeatedRoots (hbound hdelta)) fun _ => hdelta
  · rw [List.forall_mem_singleton]
    constructor
    · intro hroot _
      by_contra hdelta
      rw [not_isFinite_singleRoot hpos hconstant (eq_false_of_ne_true hdelta)] at hroot
      cases hroot
    · intro hdelta
      exact isFinite_singleRoot hpos (hbound (hdelta hpos)) (hdelta hpos)
  · -- only here the roots themselves are looked at
    refine iff_of_true (fun x hx => ?_) fun h => absurd h hpos
    exact List.all_eq_true.mp hall x (mem_ascending.mp hx)

end DepressedCubic

/-! ### Seeds on the axes -/

/-- The meeting points of all Edwards curves with the axes. -/
def axisPoints : List (Point Float) :=
  [⟨-1.0, 0.0, 1.0⟩, ⟨1.0, 0.0, 1.0⟩, ⟨0.0, -1.0, 1.0⟩, ⟨0.0, 1.0, 1.0⟩]

theorem isFinite_axisPoints : ∀ p ∈ axisPoints, p.isFinite = true := by decide

/-- The squares of the coordinates, and what is left of the residual without the parameter. -/
theorem squares_axisPoints : ∀ p ∈ axisPoints, let q := p.normalize
    AtMost (-1) (value (Scalar.sq q.x)) ∧ AtMost (-1) (value (Scalar.sq q.y)) ∧
      ((Scalar.sq q.x == 0.0) = true ∨ (Scalar.sq q.y == 0.0) = true) ∧
      ((Scalar.sq q.x + Scalar.sq q.y) * Scalar.sq q.z - Scalar.sq (Scalar.sq q.z) == 0.0) =
        true := by
  decide +kernel

/-- The parameter is multiplied by a zero: no finite one is felt on the axes. -/
theorem residual_axisPoints {d : Float} (hd : Scalar.isFinite d = true) {p : Point Float}
    (hp : p ∈ axisPoints) : ((Equation.edwards d).residual p.normalize == 0.0) = true := by
  obtain ⟨hx, hy, hzeros, hrest⟩ := squares_axisPoints p hp
  rw [Equation.residual]
  refine sub_beq_zero hrest ?_
  obtain hzero | hzero := hzeros
  · exact mul_beq_zero_left (mul_beq_zero_right hd hzero) (isFinite_of_atMost hy)
  · have hproduct := atMost_mul (atMost_value hd) hx (by norm_num) (by norm_num)
    exact mul_beq_zero_right (isFinite_of_atMost hproduct) hzero

/-! ### Seeds of accepted curves -/

namespace Curve

/-- What the seeds of a curve are worth in doubles. -/
structure FiniteSeeds (curve : Curve Float) : Prop where
  weierstrass : ∀ a b, curve.equation = .weierstrass a b →
    let delta := (DepressedCubic.mk a b).delta
    ((∀ seed ∈ curve.seeds, seed.isFinite = true) ↔ (0.0 < delta → Scalar.isFinite delta = true))
  /-- Cardano's formula gives points on the curve, and almost such where the cube is swamped. -/
  residual : ∀ a b, curve.equation = .weierstrass a b →
    let c := DepressedCubic.mk a b
    c.Tame → 0.0 ≤ c.delta → Scalar.isFinite c.delta = true → ∀ seed ∈ curve.seeds,
      let residual := Scalar.abs (curve.equation.residual seed.normalize)
      residual < (1e-3 : Float) ∧ (c.Balanced → residual < (1e-8 : Float))
  edwards : ∀ d, curve.equation = .edwards d → ∀ seed ∈ curve.seeds,
    seed.isFinite = true ∧ Scalar.abs (curve.equation.residual seed.normalize) < (1e-8 : Float)

theorem mem_axisPoints {d : Float} {curve : Curve Float}
    (h : ofEquation (.edwards d) = .ok curve) {seed : Point Float} (hseed : seed ∈ curve.seeds) :
    seed ∈ axisPoints := by
  rcases cases_of_mem_seeds_edwards h hseed with rfl | rfl | rfl | rfl <;> simp [axisPoints]

/-- The seeds of accepted curves are finite, unless the cubic has a positive `delta` that overflows.
Those of Edwards curves satisfy the equation, and so do those that Cardano's formula gives, up to
what the cancellation of its cube roots costs. -/
theorem finiteSeeds_of_accepted {equation : Equation Float} {curve : Curve Float}
    (h : ofEquation equation = .ok curve) : curve.FiniteSeeds := by
  have hequation := equation_of_accepted h
  constructor
  · intro a b hcurve
    obtain rfl := hcurve.symm.trans hequation
    obtain ⟨xs, hroots, hseeds⟩ := exists_roots_of_accepted h
    dsimp only
    rw [← DepressedCubic.isFinite_roots_iff hroots, hseeds, List.forall_mem_map]
    refine forall₂_congr fun x _ => ?_
    have hzero : Scalar.isFinite (0.0 : Float) = true := rfl
    have hone : Scalar.isFinite (1.0 : Float) = true := isFinite_of_atMost constantBounds.one.2
    rw [Point.isFinite, hzero, hone, Bool.and_true, Bool.and_true]
  · intro a b hcurve c htame hdelta hfinite seed hseed
    obtain rfl := hcurve.symm.trans hequation
    obtain ⟨xs, hroots, hseeds⟩ := exists_roots_of_accepted h
    rw [hseeds] at hseed
    obtain ⟨x, hx, rfl⟩ := List.mem_map.mp hseed
    have hfinite' := (DepressedCubic.isFinite_roots_iff hroots).mpr (fun _ => hfinite) x hx
    have hlt := DepressedCubic.abs_residual_lt hroots htame hfinite hdelta hx hfinite'
    dsimp only at hlt ⊢
    rw [hcurve]
    exact hlt
  · intro d hcurve seed hseed
    obtain rfl := hcurve.symm.trans hequation
    have haxis := mem_axisPoints h hseed
    refine ⟨isFinite_axisPoints seed haxis, ?_⟩
    have hzero := residual_axisPoints (isFinite_of_accepted h) haxis
    rw [hcurve, abs_of_beq_zero hzero]
    decide +kernel

/-- Both kinds of curves, in doubles; the one of the first kind has a seed, on the curve. -/
theorem finiteSeeds_instances :
    (∃ curve : Curve Float, ofEquation (.weierstrass (-1.0) 1.0) = .ok curve ∧
      curve.FiniteSeeds ∧ curve.seeds ≠ [] ∧ ∀ seed ∈ curve.seeds, seed.isFinite = true ∧
        Scalar.abs (curve.equation.residual seed.normalize) < (1e-8 : Float)) ∧
    ∃ curve : Curve Float, ofEquation (.edwards 300.0) = .ok curve ∧ curve.FiniteSeeds := by
  constructor
  · obtain ⟨curve, haccepted, hcheck⟩ := exists_accepted_of_any (.weierstrass (-1.0 : Float) 1.0)
      (fun curve => !curve.seeds.isEmpty) (by decide +kernel)
    have hseeds := finiteSeeds_of_accepted haccepted
    have hequation := equation_of_accepted haccepted
    have hdelta : 0.0 ≤ (DepressedCubic.mk (-1.0 : Float) 1.0).delta ∧
        Scalar.isFinite (DepressedCubic.mk (-1.0 : Float) 1.0).delta = true := by
      decide +kernel
    have htame : (DepressedCubic.mk (-1.0 : Float) 1.0).Tame := .inl (by decide +kernel)
    have hbalanced : (DepressedCubic.mk (-1.0 : Float) 1.0).Balanced := by
      refine .cube ?_
      rw [real_neg, real_one]
      norm_num
    have hfinite := (hseeds.weierstrass _ _ hequation).mpr fun _ => hdelta.2
    have hresidual := hseeds.residual _ _ hequation htame hdelta.1 hdelta.2
    exact ⟨curve, haccepted, hseeds, by simpa using hcheck,
      fun seed hseed => ⟨hfinite seed hseed, (hresidual seed hseed).2 hbalanced⟩⟩
  · obtain ⟨curve, haccepted, -⟩ := exists_accepted_of_any (.edwards (300.0 : Float))
      (fun _ => true) (by decide +kernel)
    exact ⟨curve, haccepted, finiteSeeds_of_accepted haccepted⟩

/-- For `z·y² = x³ + 10²⁰⁰·z³` the square in `delta` overflows and the root is no number; for
`z·y² = x³ + 6·10⁻⁶·x·z² + z³` the sum of the cube roots cancels and the seed is off the curve. -/
theorem unusable_seeds :
    (∃ curve : Curve Float, ofEquation (.weierstrass 0.0 1e200) = .ok curve ∧
      ∃ seed ∈ curve.seeds, seed.isFinite = false) ∧
    ∃ curve : Curve Float, ofEquation (.weierstrass 6e-6 1.0) = .ok curve ∧
      ∃ seed ∈ curve.seeds,
        ¬ Scalar.abs (curve.equation.residual seed.normalize) < (1e-8 : Float) := by
  constructor
  · obtain ⟨curve, haccepted, hcheck⟩ := exists_accepted_of_any (.weierstrass (0.0 : Float) 1e200)
      (fun curve => curve.seeds.any fun seed => !seed.isFinite) (by decide +kernel)
    obtain ⟨seed, hseed, hinfinite⟩ := List.any_eq_true.mp hcheck
    exact ⟨curve, haccepted, seed, hseed, by simpa using hinfinite⟩
  · obtain ⟨curve, haccepted, hcheck⟩ := exists_accepted_of_any (.weierstrass (6e-6 : Float) 1.0)
      (fun curve => curve.seeds.any fun seed =>
        decide (¬ Scalar.abs (curve.equation.residual seed.normalize) < (1e-8 : Float)))
      (by decide +kernel)
    obtain ⟨seed, hseed, hoff⟩ := List.any_eq_true.mp hcheck
    exact ⟨curve, haccepted, seed, hseed, of_decide_eq_true hoff⟩

end Curve

end EllipticPlot
