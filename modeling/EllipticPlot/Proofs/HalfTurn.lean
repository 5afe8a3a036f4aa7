import EllipticPlot.Proofs.Acceptance
import EllipticPlot.Proofs.Binary64Sign
import EllipticPlot.Proofs.Stitching
import EllipticPlot.Proofs.Window

/-!
# Half turns

The half turn `(x, y, z) ↦ (-x, -y, z)` keeps every Edwards curve, and takes the tangent at a point
to the tangent at its image. Walks from opposite seeds are half turns of each other step by step, in
any arithmetic that carries signs along, so they end alike and a half loop never lacks its
counterpart. A Weierstrass curve has no such symmetry between the seeds of its oval. There a window
keeps the half loops of the sphere that it holds from end to end, and one of them is left if the
window holds it without the other half.
-/

namespace EllipticPlot

variable {α : Type} [Scalar α]

open Scalar

/-- `q` is the half turn of `p`; zeros are not told apart. -/
structure Point.HalfTurned (p q : Point α) : Prop where
  x : Reflects true p.x q.x
  y : Reflects true p.y q.y
  z : Reflects false p.z q.z

variable [LawfulSign α] {p q : Point α}

/-! ### Points -/

namespace Point.HalfTurned

theorem dot_self (h : p.HalfTurned q) : p.dot p = q.dot q := by
  have hx : p.x * p.x = q.x * q.x := LawfulSign.sq h.x
  have hy : p.y * p.y = q.y * q.y := LawfulSign.sq h.y
  have hz : p.z * p.z = q.z * q.z := LawfulSign.sq h.z
  rw [dot, dot, hx, hy, hz]

theorem symm (h : p.HalfTurned q) : q.HalfTurned p :=
  ⟨LawfulSign.symm h.x, LawfulSign.symm h.y, LawfulSign.symm h.z⟩

theorem norm (h : p.HalfTurned q) : p.norm = q.norm := congrArg sqrt h.dot_self

theorem add {s t : Point α} (h : p.HalfTurned q) (ht : s.HalfTurned t) :
    (p + s).HalfTurned (q + t) :=
  ⟨LawfulSign.add h.x ht.x, LawfulSign.add h.y ht.y, LawfulSign.add h.z ht.z⟩

theorem scale (h : p.HalfTurned q) (s : α) : (p.scale s).HalfTurned (q.scale s) :=
  ⟨LawfulSign.mul h.x (reflects_self s), LawfulSign.mul h.y (reflects_self s),
    LawfulSign.mul h.z (reflects_self s)⟩

theorem move {s t : Point α} (h : p.HalfTurned q) (amount : α) (ht : s.HalfTurned t) :
    (p.move amount s).HalfTurned (q.move amount t) :=
  h.add (ht.scale amount)

theorem normalize (h : p.HalfTurned q) : p.normalize.HalfTurned q.normalize := by
  unfold Point.normalize
  rw [← h.norm]
  dsimp only
  split
  · exact h.scale _
  · exact h

theorem isFinite (h : p.HalfTurned q) : p.isFinite = q.isFinite := by
  rw [Point.isFinite, Point.isFinite, LawfulSign.isFinite h.x, LawfulSign.isFinite h.y,
    LawfulSign.isFinite h.z]

theorem beq_zero (h : p.HalfTurned q) : (p == zero) = (q == zero) := by
  change (p.x == 0.0 && p.y == 0.0 && p.z == 0.0) = (q.x == 0.0 && q.y == 0.0 && q.z == 0.0)
  rw [LawfulSign.beq_zero h.x, LawfulSign.beq_zero h.y, LawfulSign.beq_zero h.z]

theorem cross {s t : Point α} (h : p.HalfTurned q) (ht : s.HalfTurned t) :
    (p.cross s).HalfTurned (q.cross t) where
  x := LawfulSign.sub (LawfulSign.mul h.y ht.z) (LawfulSign.mul ht.y h.z)
  y := LawfulSign.sub (LawfulSign.mul h.z ht.x) (LawfulSign.mul ht.z h.x)
  z := LawfulSign.sub (LawfulSign.mul h.x ht.y) (LawfulSign.mul ht.x h.y)

end Point.HalfTurned

/-! ### Equations -/

namespace Equation

theorem residual_halfTurned (d : α) (h : p.HalfTurned q) :
    (Equation.edwards d).residual p = (Equation.edwards d).residual q := by
  rw [residual, residual, LawfulSign.sq h.x, LawfulSign.sq h.y, LawfulSign.sq h.z]

theorem gradient_halfTurned (d : α) (h : p.HalfTurned q) :
    ((Equation.edwards d).gradient p).HalfTurned ((Equation.edwards d).gradient q) := by
  have hxx := LawfulSign.sq h.x
  have hyy := LawfulSign.sq h.y
  have hzz := LawfulSign.sq h.z
  have hcube : Reflects false (cube p.z) (cube q.z) :=
    LawfulSign.mul (LawfulSign.mul h.z h.z) h.z
  constructor
  · rw [gradient, gradient, hyy, hzz]
    exact LawfulSign.sub (LawfulSign.mul (LawfulSign.mul (reflects_self _) h.x) (reflects_self _))
      (LawfulSign.mul (LawfulSign.mul (reflects_self _) h.x) (reflects_self _))
  · rw [gradient, gradient, hxx, hzz]
    exact LawfulSign.sub (LawfulSign.mul (LawfulSign.mul (reflects_self _) h.y) (reflects_self _))
      (LawfulSign.mul (reflects_self _) h.y)
  · rw [gradient, gradient, hxx, hyy]
    exact LawfulSign.sub (LawfulSign.mul (reflects_self _) h.z)
      (LawfulSign.mul (reflects_self _) hcube)

theorem newtonStep_halfTurned (d : α) (h : p.HalfTurned q) :
    ((Equation.edwards d).newtonStep p).HalfTurned ((Equation.edwards d).newtonStep q) := by
  have hgradient := gradient_halfTurned d h
  have hlength : ((Equation.edwards d).gradient p).normSq =
      ((Equation.edwards d).gradient q).normSq := hgradient.dot_self
  rw [newtonStep, newtonStep, residual_halfTurned d h, hlength]
  exact h.move _ hgradient

/-- Newton's iteration from a half turn takes as many steps, to the half turn of its result. -/
theorem newton_halfTurned (d tolerance : α) (left taken : Nat) (h : p.HalfTurned q) :
    ((Equation.edwards d).newton tolerance left taken p).point.HalfTurned
      ((Equation.edwards d).newton tolerance left taken q).point := by
  induction left generalizing taken p q with
  | zero => exact h.normalize
  | succ left ih =>
    rw [newton, newton, residual_halfTurned d h.normalize]
    split
    · exact h.normalize
    · exact ih (taken + 1) (newtonStep_halfTurned d h)

theorem projectWithin_halfTurned (d : α) (limit : Nat) (tolerance : α) (h : p.HalfTurned q) :
    ((Equation.edwards d).projectWithin limit tolerance p).point.HalfTurned
      ((Equation.edwards d).projectWithin limit tolerance q).point := by
  rw [projectWithin, projectWithin, h.isFinite, h.beq_zero]
  split
  · exact h
  · exact newton_halfTurned d tolerance limit 0 h

end Equation

/-! ### Walks -/

omit [LawfulSign α] in
theorem TraceConfig.minAffineZ_pos {config : TraceConfig α} (hvalid : config.isValid = true) :
    0.0 < config.minAffineZ := by
  simp only [TraceConfig.isValid, TraceConfig.isPositive, Bool.and_eq_true,
    decide_eq_true_eq] at hvalid
  exact hvalid.1.1.2.2

/-- Of half turns both are inside of the window or none is. -/
theorem Embedding.isInside_halfTurned (embedding : Embedding α) {minZ : α} (hminZ : 0.0 < minZ)
    (h : p.HalfTurned q) :
    (embedding.place minZ p).isInside = (embedding.place minZ q).isInside := by
  cases embedding with
  | projective => rfl
  | affine boundary =>
    rw [place, place]
    by_cases hout : p.z < minZ
    · rw [if_pos hout, if_pos ((LawfulSign.lt h.z minZ).mp hout)]
    · rw [if_neg hout, if_neg (fun hq => hout ((LawfulSign.lt h.z minZ).mpr hq))]
      -- a zero would be below `minZ`, so here the heights are the same number
      have hz : p.z = q.z := by
        obtain hz | ⟨hp, -⟩ := h.z
        · exact hz
        · exact absurd ((LawfulSign.lt (.inr ⟨hp, LawfulSign.zero_beq_zero⟩) minZ).mpr hminZ) hout
      have hx : Scalar.abs (p.x / p.z) = Scalar.abs (q.x / q.z) := by
        rw [hz, LawfulSign.abs_div h.x]
      have hy : Scalar.abs (p.y / p.z) = Scalar.abs (q.y / q.z) := by
        rw [hz, LawfulSign.abs_div h.y]
      dsimp only
      rw [hx, hy]
      split <;> rfl

namespace Plan

section

variable {plan : Plan α} {d : α} (hequation : plan.curve.equation = .edwards d)

include hequation

theorem tangent_halfTurned (h : p.HalfTurned q) : (plan.tangent p).HalfTurned (plan.tangent q) := by
  rw [tangent, tangent, hequation]
  exact h.cross (Equation.gradient_halfTurned d h)

/-- From half turns either no step is possible, or both reach half turns. -/
theorem stride?_halfTurned (delta : α) (h : p.HalfTurned q) :
    plan.stride? delta p = none ∧ plan.stride? delta q = none ∨
      ∃ s t, plan.stride? delta p = some s ∧ plan.stride? delta q = some t ∧ s.HalfTurned t := by
  have htangent := tangent_halfTurned hequation h
  rw [stride?, stride?, htangent.norm]
  cases quotient? delta (plan.tangent q).norm with
  | none => exact .inl ⟨rfl, rfl⟩
  | some amount => exact .inr ⟨_, _, rfl, rfl, h.move amount htangent⟩

theorem visit_halfTurned (h : p.HalfTurned q) :
    (plan.visit p).projection.point.HalfTurned (plan.visit q).projection.point := by
  rw [visit, visit, projectVertex, projectVertex, hequation]
  exact Equation.projectWithin_halfTurned d _ _ h

omit hequation in
theorem crosses_halfTurned {last? other? : Option α}
    (hlast : Option.Rel (Reflects true) last? other?) (h : p.HalfTurned q) :
    crosses last? p = crosses other? q := by
  cases hlast with
  | none => rfl
  | some hy =>
    rw [crosses, crosses, Option.any_some, Option.any_some]
    exact decide_eq_decide.mpr (LawfulSign.le (LawfulSign.mul hy h.y) 0.0)

omit hequation in
theorem placement_halfTurned (hminZ : 0.0 < plan.config.minAffineZ) {visit other : Visit α}
    (h : visit.projection.point.HalfTurned other.projection.point) :
    (plan.placement visit).isInside = (plan.placement other).isInside :=
  plan.embedding.isInside_halfTurned hminZ h

/-- Walks from half turns end alike. -/
theorem route_halfTurned (hminZ : 0.0 < plan.config.minAffineZ) (delta : α) (count : Nat)
    (h : p.HalfTurned q) {last? other? : Option α}
    (hlast : Option.Rel (Reflects true) last? other?) :
    (plan.route delta count p last?).ending.outcome =
      (plan.route delta count q other?).ending.outcome := by
  induction count generalizing p q last? other? with
  | zero => rfl
  | succ count ih =>
    obtain ⟨hp, hq⟩ | ⟨s, t, hp, hq, hturned⟩ := stride?_halfTurned hequation delta h
    · rw [route_of_no_stride count hp, route_of_no_stride count hq]
      rfl
    have hbelow : s.z < 0.0 ↔ t.z < 0.0 := LawfulSign.lt hturned.z 0.0
    have hcrosses : crosses last? s = crosses other? t := crosses_halfTurned hlast hturned
    have hvisit := visit_halfTurned hequation hturned
    have hinside := placement_halfTurned hminZ hvisit
    by_cases hs : s.z < 0.0
    · rw [route_of_below count hp hs, route_of_below count hq (hbelow.mp hs)]
      rfl
    have ht : ¬ t.z < 0.0 := fun ht => hs (hbelow.mpr ht)
    by_cases hcross : crosses last? s = true
    · rw [route_of_crosses count hp hs hcross, route_of_crosses count hq ht (hcrosses ▸ hcross)]
    have hcross' : ¬ crosses other? t = true := hcrosses ▸ hcross
    by_cases hkept : (plan.placement (plan.visit s)).isInside = true
    · rw [route_of_inside count hp hs hcross hkept,
        route_of_inside count hq ht hcross' (hinside ▸ hkept), Route.after_ending,
        Route.after_ending]
      exact ih hvisit (.some hvisit.y)
    · rw [route_of_outside count hp hs hcross hkept,
        route_of_outside count hq ht hcross' (hinside ▸ hkept), Route.after_ending,
        Route.after_ending]

theorem leg_halfTurned (hminZ : 0.0 < plan.config.minAffineZ) (delta : α) (h : p.HalfTurned q) :
    (plan.leg p delta).ending.outcome = (plan.leg q delta).ending.outcome :=
  route_halfTurned hequation hminZ delta plan.config.maxSteps h .none

/-! ### Seeds -/

omit hequation in
theorem admits_halfTurned (hminZ : 0.0 < plan.config.minAffineZ) (h : p.HalfTurned q) :
    plan.admits p = plan.admits q :=
  plan.embedding.isInside_halfTurned hminZ h.normalize

end

/-- The seed is admitted and its forward trace comes back across `y = 0`. -/
def returns (plan : Plan α) (seed : Point α) : Bool :=
  plan.admits seed &&
    decide ((plan.leg seed.normalize plan.config.step).ending.outcome = .halfLoop)

omit [LawfulSign α] in
theorem isSome_half?_fate (plan : Plan α) (seed : Point α) :
    (plan.fate seed).half?.isSome = plan.returns seed := by
  rw [returns, fate, admits, trace_eq]
  cases plan.embedding.place plan.config.minAffineZ seed.normalize with
  | outOfPlane => rfl
  | onBorder first => rfl
  | inside first =>
    cases (plan.leg seed.normalize plan.config.step).ending.outcome <;> rfl

omit [LawfulSign α] in
theorem length_halfLoops (plan : Plan α) :
    plan.halfLoops.length = plan.curve.seeds.countP plan.returns := by
  rw [halfLoops, halves, List.length_filterMap_eq_countP, fates, List.countP_map]
  exact List.countP_congr fun seed _ => by rw [Function.comp_apply, isSome_half?_fate]

/-- The seed and the points that its forward trace reaches on the sphere are all inside. -/
def Holds (plan : Plan α) (seed : Point α) : Prop :=
  plan.admits seed = true ∧
    ∀ p ∈ (plan.within .projective).reached seed.normalize plan.config.step,
      (plan.embedding.place plan.config.minAffineZ p).isInside = true

omit [LawfulSign α] in
theorem returns_iff_holds (plan : Plan α) (seed : Point α) :
    plan.returns seed = true ↔
      (plan.within .projective).returns seed = true ∧ plan.Holds seed := by
  have hreached : (∀ p ∈ (plan.within .projective).reached seed.normalize plan.config.step,
      (plan.embedding.place plan.config.minAffineZ p).isInside = true) ↔
        ∀ visit ∈ ((plan.within .projective).leg seed.normalize plan.config.step).visits,
          (plan.placement visit).isInside = true := List.forall_mem_map
  have hsphere : (plan.within .projective).admits seed = true := rfl
  have hstep : (plan.within .projective).config.step = plan.config.step := rfl
  rw [Holds, hreached, returns, returns, hsphere, hstep,
    plan.leg_eq_clip .projective fun _ _ => rfl]
  simp only [Bool.and_eq_true, decide_eq_true_iff, Route.outcome_clip]
  tauto

theorem returns_halfTurned {plan : Plan α} {d : α} (hequation : plan.curve.equation = .edwards d)
    (hminZ : 0.0 < plan.config.minAffineZ) (h : p.HalfTurned q) :
    plan.returns p = plan.returns q := by
  rw [returns, returns, admits_halfTurned hminZ h,
    leg_halfTurned hequation hminZ plan.config.step h.normalize]

theorem halfTurned_sides : (⟨1.0, 0.0, 1.0⟩ : Point α).HalfTurned ⟨-1.0, 0.0, 1.0⟩ :=
  ⟨reflects_neg 1.0, reflects_zero true, reflects_self 1.0⟩

theorem halfTurned_ends : (⟨0.0, 1.0, 1.0⟩ : Point α).HalfTurned ⟨0.0, -1.0, 1.0⟩ :=
  ⟨reflects_zero true, reflects_neg 1.0, reflects_self 1.0⟩

/-- The seeds of an Edwards curve come in pairs of half turns. -/
theorem exists_opposite_seed {d : α} {curve : Curve α}
    (haccepted : Curve.ofEquation (.edwards d) = .ok curve) {seed : Point α}
    (hseed : seed ∈ curve.seeds) : ∃ other ∈ curve.seeds, seed.HalfTurned other := by
  obtain hseeds | hseeds := Curve.seeds_edwards haccepted
  · rw [hseeds] at hseed ⊢
    simp only [List.mem_cons, List.not_mem_nil, or_false] at hseed
    obtain rfl | rfl := hseed
    · exact ⟨_, by simp, halfTurned_sides.symm⟩
    · exact ⟨_, by simp, halfTurned_sides⟩
  · rw [hseeds] at hseed ⊢
    simp only [List.cons_append, List.nil_append, List.mem_cons, List.not_mem_nil, or_false]
      at hseed
    obtain rfl | rfl | rfl | rfl := hseed
    · exact ⟨_, by simp, halfTurned_sides.symm⟩
    · exact ⟨_, by simp, halfTurned_sides⟩
    · exact ⟨_, by simp, halfTurned_ends.symm⟩
    · exact ⟨_, by simp, halfTurned_ends⟩

/-- An even number of the seeds of an Edwards curve returns. -/
theorem even_returns {plan : Plan α} {d : α}
    (haccepted : Curve.ofEquation (.edwards d) = .ok plan.curve)
    (hminZ : 0.0 < plan.config.minAffineZ) : plan.curve.seeds.countP plan.returns % 2 = 0 := by
  have hequation : plan.curve.equation = .edwards d := Curve.equation_of_accepted haccepted
  have hsides : plan.returns ⟨1.0, 0.0, 1.0⟩ = plan.returns ⟨-1.0, 0.0, 1.0⟩ :=
    returns_halfTurned hequation hminZ halfTurned_sides
  have hends : plan.returns ⟨0.0, 1.0, 1.0⟩ = plan.returns ⟨0.0, -1.0, 1.0⟩ :=
    returns_halfTurned hequation hminZ halfTurned_ends
  obtain hseeds | hseeds := Curve.seeds_edwards haccepted
  · rw [hseeds]
    simp only [List.countP_cons, List.countP_nil, hsides]
    split <;> rfl
  · rw [hseeds]
    simp only [List.cons_append, List.nil_append, List.countP_cons, List.countP_nil, hsides, hends]
    split <;> split <;> rfl

/-- When half loops find their counterparts. -/
structure Matched (plan : Plan α) (t : Tessellation α) : Prop where
  /-- One is left if an odd number of seeds returns, and only then. -/
  odd_iff : t.diagnostics.any Diagnostic.isUnmatched = true ↔
    plan.curve.seeds.countP plan.returns % 2 = 1
  /-- On an Edwards curve both seeds of an oval are admitted or none is, and they end alike. -/
  opposite : ∀ d, plan.curve.equation = .edwards d → ∀ seed ∈ plan.curve.seeds,
    ∃ other ∈ plan.curve.seeds, seed.HalfTurned other ∧
      plan.admits seed = plan.admits other ∧ plan.returns seed = plan.returns other
  /-- There none is left. -/
  edwards : ∀ d, plan.curve.equation = .edwards d →
    t.diagnostics.any Diagnostic.isUnmatched = false
  /-- A window keeps the half loops of the sphere that it holds, on every curve. -/
  kept : ∀ seed, plan.returns seed = true ↔
    (plan.within .projective).returns seed = true ∧ plan.Holds seed
  /-- A window that holds all of them leaves one only if one is left on the sphere. -/
  held : (∀ seed ∈ plan.curve.seeds, (plan.within .projective).returns seed = true →
      plan.Holds seed) →
    t.diagnostics.any Diagnostic.isUnmatched =
      (plan.within .projective).tessellate.value.diagnostics.any Diagnostic.isUnmatched
  /-- Of the two halves of an oval one is left if the window holds it and not the other one. -/
  oval : ∀ first second,
    plan.curve.seeds.filter (plan.within .projective).returns = [first, second] →
      (t.diagnostics.any Diagnostic.isUnmatched = true ↔ ¬ (plan.Holds first ↔ plan.Holds second))

omit [LawfulSign α] in
theorem any_isUnmatched_tessellate (plan : Plan α) :
    plan.tessellate.value.diagnostics.any Diagnostic.isUnmatched = true ↔
      plan.curve.seeds.countP plan.returns % 2 = 1 := by
  have hlength : (plan.tessellate.value.diagnostics.toList.filter Diagnostic.isUnmatched).length =
      plan.curve.seeds.countP plan.returns % 2 := by
    rw [unmatched_tessellate, List.length_map, left?, length_unpaired?, length_halfLoops]
  rw [← Array.any_toList, List.any_eq_true, ← List.length_filter_pos_iff, hlength]
  omega

omit [LawfulSign α] in
theorem any_isUnmatched_of_held (plan : Plan α)
    (hheld : ∀ seed ∈ plan.curve.seeds, (plan.within .projective).returns seed = true →
      plan.Holds seed) :
    plan.tessellate.value.diagnostics.any Diagnostic.isUnmatched =
      (plan.within .projective).tessellate.value.diagnostics.any Diagnostic.isUnmatched := by
  have hcount : plan.curve.seeds.countP plan.returns =
      plan.curve.seeds.countP (plan.within .projective).returns := by
    refine List.countP_congr fun seed hseed => ?_
    rw [returns_iff_holds]
    exact and_iff_left_of_imp (hheld seed hseed)
  rw [Bool.eq_iff_iff, any_isUnmatched_tessellate, any_isUnmatched_tessellate, hcount]
  rfl

omit [LawfulSign α] in
theorem any_isUnmatched_of_oval (plan : Plan α) {first second : Point α}
    (hoval : plan.curve.seeds.filter (plan.within .projective).returns = [first, second]) :
    plan.tessellate.value.diagnostics.any Diagnostic.isUnmatched = true ↔
      ¬ (plan.Holds first ↔ plan.Holds second) := by
  -- only seeds that return on the sphere can return in the window
  have hcount : plan.curve.seeds.countP plan.returns = [first, second].countP plan.returns := by
    rw [← hoval, List.countP_filter]
    refine List.countP_congr fun seed _ => ?_
    rw [Bool.and_eq_true, returns_iff_holds]
    tauto
  have hreturns : ∀ seed ∈ [first, second], plan.returns seed = true ↔ plan.Holds seed := by
    intro seed hseed
    rw [← hoval] at hseed
    rw [returns_iff_holds]
    exact and_iff_right (List.mem_filter.mp hseed).2
  have hfirst := hreturns first (by simp)
  have hsecond := hreturns second (by simp)
  rw [any_isUnmatched_tessellate, hcount, ← hfirst, ← hsecond, List.countP_cons, List.countP_cons,
    List.countP_nil]
  cases plan.returns first <;> cases plan.returns second <;> simp

theorem tessellateWith_matched {equation : Equation α} {curve : Curve α}
    (haccepted : Curve.ofEquation equation = .ok curve) (embedding : Embedding α)
    {config : TraceConfig α} (hvalid : config.isValid = true) :
    ∃ t, curve.tessellateWith embedding config = .ok t ∧
      (Plan.mk curve embedding config).Matched t.value := by
  have hminZ : 0.0 < config.minAffineZ := TraceConfig.minAffineZ_pos hvalid
  have hodd := any_isUnmatched_tessellate (Plan.mk curve embedding config)
  have hcurve : curve.equation = equation := Curve.equation_of_accepted haccepted
  refine ⟨_, tessellateWith_eq curve embedding config hvalid, hodd, ?opposite, ?edwards,
    returns_iff_holds _, any_isUnmatched_of_held _, fun _ _ => any_isUnmatched_of_oval _⟩
  case opposite =>
    intro d hequation seed hseed
    obtain rfl : equation = .edwards d := hcurve.symm.trans hequation
    obtain ⟨other, hother, hturned⟩ := exists_opposite_seed haccepted hseed
    exact ⟨other, hother, hturned, admits_halfTurned hminZ hturned,
      returns_halfTurned hequation hminZ hturned⟩
  case edwards =>
    intro d hequation
    obtain rfl : equation = .edwards d := hcurve.symm.trans hequation
    have heven : curve.seeds.countP (Plan.mk curve embedding config).returns % 2 = 0 :=
      even_returns haccepted hminZ
    rw [← Bool.not_eq_true, hodd, heven]
    exact Nat.zero_ne_one

/-- The Edwards curve with `d = 2` in doubles, which has two seeds on either axis, and a Weierstrass
curve in a window that holds both halves of its oval. -/
theorem matched_edwards_and_oval :
    (let curve : Curve Float := ⟨.edwards 2.0,
        [⟨-1.0, 0.0, 1.0⟩, ⟨1.0, 0.0, 1.0⟩, ⟨0.0, -1.0, 1.0⟩, ⟨0.0, 1.0, 1.0⟩]⟩
     Curve.ofEquation (.edwards 2.0) = .ok curve ∧
       (TraceConfig.default : TraceConfig Float).isValid = true ∧
       ∃ t, curve.tessellateWith (.affine 4.0) .default = .ok t ∧
         (Plan.mk curve (.affine 4.0) .default).Matched t.value) ∧
    ∃ curve : Curve Float, Curve.ofEquation (.weierstrass (-1.75) (-0.75)) = .ok curve ∧
      let config : TraceConfig Float :=
        { TraceConfig.default with step := 0.5, vertexTolerance := 0.01 }
      let plan : Plan Float := ⟨curve, .affine 1.25, config⟩
      config.isValid = true ∧
        ∃ t, curve.tessellateWith (.affine 1.25) config = .ok t ∧ plan.Matched t.value ∧
          (∃ first second, curve.seeds.filter (plan.within .projective).returns = [first, second] ∧
            plan.Holds first ∧ plan.Holds second) ∧
          t.value.diagnostics.any Diagnostic.isUnmatched = false := by
  constructor
  · intro curve
    have hvalid : (TraceConfig.default : TraceConfig Float).isValid = true := by decide +kernel
    have hfinite : (Equation.edwards 2.0 : Equation Float).isFinite = true := by decide +kernel
    have hends : (1.0 : Float) ≤ 2.0 := by decide +kernel
    have hsmooth : curve.seeds.any (Curve.isSingularAt (.edwards 2.0)) = false := by decide +kernel
    have haccepted : Curve.ofEquation (.edwards 2.0) = .ok curve := by
      simp only [curve] at hsmooth ⊢
      simp [Curve.ofEquation, Curve.seedsOf, hfinite, hends, hsmooth]
    exact ⟨haccepted, hvalid, tessellateWith_matched haccepted _ hvalid⟩
  · obtain ⟨curve, haccepted, hcheck⟩ := Curve.exists_accepted_of_any
      (.weierstrass (-1.75 : Float) (-0.75))
      (fun curve =>
        let plan : Plan Float := ⟨curve, .affine 1.25,
          { TraceConfig.default with step := 0.5, vertexTolerance := 0.01 }⟩
        decide (curve.seeds.map plan.returns = [true, true, false]) &&
          !(curve.seeds.drop 2).any (plan.within .projective).returns)
      (by decide +kernel)
    refine ⟨curve, haccepted, ?_⟩
    intro config plan
    have hvalid : config.isValid = true := by decide +kernel
    obtain ⟨t, ht, (hmatched : plan.Matched t.value)⟩ :=
      tessellateWith_matched haccepted (.affine 1.25) hvalid
    obtain ⟨hreturns, hthird⟩ := Bool.and_eq_true_iff.mp hcheck
    have hreturns : curve.seeds.map plan.returns = [true, true, false] :=
      of_decide_eq_true hreturns
    have hlength := congrArg List.length hreturns
    rw [List.length_map] at hlength
    obtain ⟨first, second, third, hseeds⟩ := List.length_eq_three.mp hlength
    rw [hseeds] at hreturns hthird
    simp only [List.map_cons, List.map_nil, List.cons.injEq] at hreturns
    obtain ⟨hspherefirst, hfirst⟩ := (hmatched.kept first).mp hreturns.1
    obtain ⟨hspheresecond, hsecond⟩ := (hmatched.kept second).mp hreturns.2.1
    have hspherethird : (plan.within .projective).returns third = false := by simpa using hthird
    have hoval : curve.seeds.filter (plan.within .projective).returns = [first, second] := by
      rw [hseeds]
      simp [hspherefirst, hspheresecond, hspherethird]
    refine ⟨hvalid, t, ht, hmatched, ⟨first, second, hoval, hfirst, hsecond⟩, ?_⟩
    rw [← Bool.not_eq_true, hmatched.oval first second hoval]
    exact fun h => h (iff_of_true hfirst hsecond)

/-- The left seed of a small oval lies just outside of the window and the other one inside. The
half loop from the latter ends inside as well, and stays without its counterpart. On the sphere a
curve close to a node has a single seed, and its branch steps across the axis near the node. -/
theorem unmatched_half_loops :
    (∃ curve : Curve Float, Curve.ofEquation (.weierstrass (-0.750025) (-0.249975)) = .ok curve ∧
      Embedding.window (0.5045 : Float) = .ok (.affine 0.5045) ∧
      curve.seeds.map (Plan.mk curve (.affine 0.5045) .default).admits = [false, true, false] ∧
      (curve.tessellate (.affine 0.5045)).value.diagnostics.any Diagnostic.isUnmatched = true) ∧
    ∃ curve : Curve Float, Curve.ofEquation (.weierstrass (-3e-4) 2.02e-6) = .ok curve ∧
      curve.seeds.length = 1 ∧
      (curve.tessellate .projective).value.diagnostics.any Diagnostic.isUnmatched = true := by
  constructor
  · have hpositive : (!Scalar.isFinite (0.5045 : Float) || decide ((0.5045 : Float) ≤ 0.0)) =
        false := by decide +kernel
    have hwindow : Embedding.window (0.5045 : Float) = .ok (.affine 0.5045) := by
      rw [Embedding.window, hpositive]
      rfl
    obtain ⟨curve, haccepted, hcheck⟩ := Curve.exists_accepted_of_any
      (.weierstrass (-0.750025 : Float) (-0.249975))
      (fun curve =>
        decide (curve.seeds.map (Plan.mk curve (.affine 0.5045) .default).admits =
            [false, true, false]) &&
          (curve.tessellate (.affine 0.5045)).value.diagnostics.any Diagnostic.isUnmatched)
      (by decide +kernel)
    obtain ⟨hadmits, hunmatched⟩ := Bool.and_eq_true_iff.mp hcheck
    exact ⟨curve, haccepted, hwindow, of_decide_eq_true hadmits, hunmatched⟩
  · obtain ⟨curve, haccepted, hcheck⟩ := Curve.exists_accepted_of_any
      (.weierstrass (-3e-4 : Float) 2.02e-6)
      (fun curve =>
        decide (curve.seeds.length = 1) &&
          (curve.tessellate .projective).value.diagnostics.any Diagnostic.isUnmatched)
      (by decide +kernel)
    obtain ⟨hlength, hunmatched⟩ := Bool.and_eq_true_iff.mp hcheck
    exact ⟨curve, haccepted, of_decide_eq_true hlength, hunmatched⟩

end Plan

end EllipticPlot
