import EllipticPlot.Proofs.Binary64Difference
import EllipticPlot.Proofs.ProperPoints

/-!
# The sign of the discriminant

In doubles the discriminant of a Weierstrass curve and the `delta` of its cubic are one quantity
with two roundings: the one divides the linear coefficient by three, the other multiplies it by the
rounded third. The rounded third is too small, and rounding keeps the order, so there is one way
only in which the two differ in sign: the square of the constant lies between the two cubes.
-/

namespace EllipticPlot

open Binary64
open Float.Model (UnpackedFloat)
open Float.Model.UnpackedFloat

namespace Binary64

/-! ### The rounded third -/

/-- A third of a number is not larger when it is taken with the rounded third. -/
theorem size_third_mul_le {x : Float} (h : Scalar.isFinite x = true) :
    size (value (Scalar.third * x)) ≤ size (value (x / 3.0)) := by
  have hfinite : (value x).isFinite = true := h
  have hcanonical := canonical_value x
  have hthird := canonical_value Scalar.third
  rw [value_mul, value_div]
  apply size_stored_mono (canonical_mul hthird hcanonical) (canonical_div _ _)
  rw [value_third] at hthird ⊢
  rw [value_three]
  cases hx : value x with
  | zero s => exact le_rfl
  | finite s m e hm =>
    rw [hx] at hcanonical
    apply size_mul_le_div hthird hcanonical
    norm_num [dyadic]
  | _ =>
    rw [hx] at hfinite
    cases hfinite

theorem size_cube_third_le {x : Float} (h : Scalar.isFinite x = true) :
    size (value (Scalar.cube (Scalar.third * x))) ≤ size (value (Scalar.cube (x / 3.0))) :=
  size_cube_le (size_third_mul_le h)

/-! ### Positive cubes -/

theorem isPositive_third_mul {x : Float} (h : IsPositive (value x)) :
    IsPositive (value (Scalar.third * x)) := by
  rw [value_mul, value_third]
  have hcanonical : Canonical (.finite .positive 6004799503160661 (-54) (by norm_num)) :=
    value_third ▸ canonical_value Scalar.third
  apply isPositive_stored (canonical_mul hcanonical (canonical_value x))
  generalize value x = u at h
  cases h with
  | zero => exact .zero
  | infinity => exact .infinity
  | finite m e hm => exact isPositive_round _ _ _

theorem isPositive_div_three {x : Float} (h : IsPositive (value x)) :
    IsPositive (value (x / 3.0)) := by
  rw [value_div, value_three]
  apply isPositive_stored (canonical_div _ _)
  generalize value x = u at h
  cases h with
  | zero => exact .zero
  | infinity => exact .infinity
  | finite m e hm => exact isPositive_round _ _ _

theorem isPositive_cube {x : Float} (h : IsPositive (value x)) :
    IsPositive (value (Scalar.cube x)) := by
  have hcanonical := canonical_value x
  have hsquare := canonical_value (x * x)
  rw [Scalar.cube, value_mul]
  apply isPositive_stored (canonical_mul hsquare hcanonical)
  rw [value_mul] at hsquare ⊢
  generalize value x = u at *
  cases h with
  | zero =>
    rw [UnpackedFloat.mul, stored_zero]
    exact .zero
  | infinity =>
    rw [UnpackedFloat.mul, stored_infinity]
    exact .infinity
  | finite m e hm =>
    -- the square may be zero or infinite, but a number other than zero is left to multiply with
    have hpos := isPositive_stored (canonical_mul hcanonical hcanonical) (isPositive_round _ _ _)
    generalize stored (mul .binary64 _ _) = w at hpos ⊢
    cases hpos with
    | zero => exact .zero
    | infinity => exact .infinity
    | finite k f hk => exact isPositive_round _ _ _

theorem notBelow_cube {x : Float} (h : NotBelow (value x)) : NotBelow (value (Scalar.cube x)) := by
  obtain hpos | ⟨s, hs⟩ := h
  · exact .inl (isPositive_cube hpos)
  · have hzero := (beq_zero_iff x).mpr ⟨s, hs⟩
    have hfinite := isFinite_of_beq_zero hzero
    exact .inr ((beq_zero_iff _).mp (mul_beq_zero_left (mul_beq_zero_left hzero hfinite) hfinite))

theorem notBelow_cube_third {x : Float} (h : NotBelow (value x)) :
    NotBelow (value (Scalar.cube (Scalar.third * x))) := by
  apply notBelow_cube
  obtain hpos | ⟨s, hs⟩ := h
  · exact .inl (isPositive_third_mul hpos)
  · have hthird : Scalar.isFinite (Scalar.third : Float) = true := rfl
    exact .inr ((beq_zero_iff _).mp (mul_beq_zero_right hthird ((beq_zero_iff x).mpr ⟨s, hs⟩)))

theorem notBelow_cube_div {x : Float} (h : NotBelow (value x)) :
    NotBelow (value (Scalar.cube (x / 3.0))) := by
  apply notBelow_cube
  obtain hpos | ⟨s, hs⟩ := h
  · exact .inl (isPositive_div_three hpos)
  · rw [value_div, value_three, hs]
    exact .inr ⟨_, stored_zero _⟩

end Binary64

/-! ### Small coefficients -/

namespace Curve

/-- A seed next to the origin is not moved far by giving it unit length. -/
theorem atMost_normalize {x : Float} (hx : AtMost (-100) (value x)) :
    let p := (Point.mk x 0.0 1.0).normalize
    AtMost (-100) (value p.x) ∧ AtMost (-100) (value p.y) ∧ AtMost 0 (value p.z) := by
  obtain ⟨hlow, hone⟩ := constantBounds.one
  have hzero : AtMost (-100) (value 0.0) := trivial
  have hlength : AtLeast 0 (value (Point.mk x 0.0 1.0).norm) ∧
      IsPositive (value (Point.mk x 0.0 1.0).norm) := by
    have hsquare := isPositive_add (isPositive_mul_self (isFinite_of_atMost hx))
      (isPositive_mul_self (isFinite_of_atMost hzero))
    have hunit := isPositive_mul_self (isFinite_of_atMost hone)
    have hlarge : AtLeast (0 + 0) (value (1.0 * 1.0)) := atLeast_mul hlow hlow (by norm_num)
    exact ⟨atLeast_sqrt (atLeast_add hsquare hunit (by norm_num) (.inr hlarge))
      (isPositive_add hsquare hunit) (by norm_num), isPositive_sqrt (isPositive_add hsquare hunit)⟩
  have hreciprocal := atMost_div hone hlength.1 (by norm_num) (by norm_num)
  rw [Point.normalize, if_pos (pos_iff.mpr (above_of_atLeast hlength.2 hlength.1))]
  exact ⟨(atMost_mul hx hreciprocal (by norm_num) (by norm_num)).mono (by norm_num),
    (atMost_mul hzero hreciprocal (by norm_num) (by norm_num)).mono (by norm_num),
    (atMost_mul hone hreciprocal (by norm_num) (by norm_num)).mono (by norm_num)⟩

/-- Small coefficients leave nothing of the gradient next to the origin. -/
theorem atMost_gradient {a b : Float} {p : Point Float} (ha : AtMost (-300) (value a))
    (hb : AtMost (-300) (value b)) (hx : AtMost (-100) (value p.x))
    (hy : AtMost (-100) (value p.y)) (hz : AtMost 0 (value p.z)) :
    let g := (Equation.weierstrass a b).gradient p
    AtMost (-90) (value g.x) ∧ AtMost (-90) (value g.y) ∧ AtMost (-90) (value g.z) := by
  obtain ⟨htwo, hnegTwo⟩ := constantBounds.two
  have hthree := constantBounds.three
  have hxx := atMost_mul hx hx (by norm_num) (by norm_num)
  have hyy := atMost_mul hy hy (by norm_num) (by norm_num)
  have hzz := atMost_mul hz hz (by norm_num) (by norm_num)
  refine ⟨?_, ?_, ?_⟩
  · have hleft := atMost_mul hthree hxx (by norm_num) (by norm_num)
    have hright := atMost_mul ha hzz (by norm_num) (by norm_num)
    exact (atMost_add hleft (hright.mono (by norm_num)) (by norm_num) (by norm_num)).mono
      (by norm_num)
  · have hleft := atMost_mul hnegTwo hy (by norm_num) (by norm_num)
    exact (atMost_mul hleft hz (by norm_num) (by norm_num)).mono (by norm_num)
  · have hax := atMost_mul (atMost_mul htwo ha (by norm_num) (by norm_num)) hx (by norm_num)
      (by norm_num)
    have haxz := atMost_mul hax hz (by norm_num) (by norm_num)
    have hbzz := atMost_mul (atMost_mul hthree hb (by norm_num) (by norm_num)) hzz (by norm_num)
      (by norm_num)
    have hsum := atMost_add (haxz.mono (by norm_num)) hbzz (by norm_num) (by norm_num)
    exact (atMost_sub (hsum.mono (by norm_num)) hyy (by norm_num) (by norm_num)).mono
      (by norm_num)

theorem norm_lt_singularGradient {p : Point Float} (hx : AtMost (-90) (value p.x))
    (hy : AtMost (-90) (value p.y)) (hz : AtMost (-90) (value p.z)) :
    p.norm < singularGradient := by
  have hpos := Point.isPositive_norm (Point.isFinite_iff.mpr
    ⟨isFinite_of_atMost hx, isFinite_of_atMost hy, isFinite_of_atMost hz⟩)
  have hthreshold : 0.0 < (singularGradient : Float) := by decide +kernel
  have hlow : AtLeast (-34) (value singularGradient) := by decide +kernel
  exact lt_of_atMost hpos (isPositive_of_pos hthreshold)
    (Point.atMost_norm (by norm_num) (by norm_num) hx hy hz) hlow (by norm_num)

/-- Where both coefficients are small, a curve is singular at a seed next to the origin. -/
theorem isSingularAt_of_small {a b x : Float} (ha : AtMost (-300) (value a))
    (hb : AtMost (-300) (value b)) (hx : AtMost (-100) (value x)) :
    isSingularAt (.weierstrass a b) ⟨x, 0.0, 1.0⟩ = true := by
  obtain ⟨hpx, hpy, hpz⟩ := atMost_normalize hx
  obtain ⟨hgx, hgy, hgz⟩ := atMost_gradient ha hb hpx hpy hpz
  exact decide_eq_true (norm_lt_singularGradient hgx hgy hgz)

/-- A curve with small coefficients is refused where its `delta` underflows to zero, as both roots
are next to the origin. -/
theorem delta_ne_zero_of_small {a b : Float} {curve : Curve Float}
    (h : ofEquation (.weierstrass a b) = .ok curve) (ha : AtMost (-310) (value a))
    (hb : AtMost (-310) (value b)) : ((DepressedCubic.mk a b).delta == 0.0) = false := by
  obtain ⟨xs, hroots, hseeds⟩ := exists_roots_of_accepted h
  obtain ⟨-, hsmooth⟩ := seeds_of_accepted h
  rw [← Bool.not_eq_true]
  intro hdelta
  have hsmall : ∃ x ∈ xs, AtMost (-100) (value x) := by
    rw [DepressedCubic.eq_repeatedRoots hroots hdelta, DepressedCubic.repeatedRoots]
    split
    · exact ⟨0.0, List.mem_singleton_self _, trivial⟩
    · have hscaled := atMost_mul constantBounds.neg_four hb (by norm_num) (by norm_num)
      exact ⟨_, mem_ascending.mpr List.mem_cons_self,
        (hscaled.cbrt (by norm_num) (by norm_num)).mono (by norm_num)⟩
  obtain ⟨x, hx, hbound⟩ := hsmall
  have hsingular : curve.seeds.any (isSingularAt (.weierstrass a b)) = true := by
    rw [hseeds, List.any_map]
    exact List.any_eq_true.mpr ⟨x, hx,
      isSingularAt_of_small (ha.mono (by norm_num)) (hb.mono (by norm_num)) hbound⟩
  rw [hsmooth] at hsingular
  cases hsingular

theorem isPositive_square {x : Float} (h : Scalar.isFinite x = true) :
    IsPositive (value (Scalar.sq (0.5 * x))) := by
  have hhalf := atMost_mul constantBounds.half.2 (atMost_value h) (by norm_num) (by norm_num)
  exact isPositive_mul_self (isFinite_of_atMost hhalf)

theorem atMost_of_square {x : Float} (hfinite : Scalar.isFinite x = true)
    (h : ¬ Above (value (Scalar.sq (0.5 * x)))) : AtMost (-310) (value x) := by
  have hvalue : (value x).isFinite = true := hfinite
  refine (atMost_or_atLeast (-310) hvalue).resolve_right fun hlarge => h ?_
  have hhalf := atLeast_mul constantBounds.half.1 hlarge (by norm_num)
  exact above_of_atLeast (isPositive_square hfinite) (atLeast_mul hhalf hhalf (by norm_num))

theorem atMost_of_cube {x : Float} (hfinite : Scalar.isFinite x = true)
    (hx : NotBelow (value x)) (h : ¬ Above (value (Scalar.cube (Scalar.third * x)))) :
    AtMost (-310) (value x) := by
  have hvalue : (value x).isFinite = true := hfinite
  refine (atMost_or_atLeast (-310) hvalue).resolve_right fun hlarge => h ?_
  have hthird := atLeast_mul constantBounds.third hlarge (by norm_num)
  have hcube := atLeast_mul (atLeast_mul hthird hthird (by norm_num)) hthird (by norm_num)
  exact (notBelow_cube_third hx).above (size_pos_of_atLeast hcube)

/-- The square and the cube in the `delta` of a curve do not both underflow. -/
theorem above_of_accepted {a b : Float} {curve : Curve Float}
    (h : ofEquation (.weierstrass a b) = .ok curve) (ha : NotBelow (value a)) :
    Above (value (Scalar.sq (0.5 * b))) ∨ Above (value (Scalar.cube (Scalar.third * a))) := by
  obtain ⟨hfa, hfb⟩ := Bool.and_eq_true_iff.mp (isFinite_of_accepted h)
  by_contra hnot
  obtain ⟨hsquare, hcube⟩ := not_or.mp hnot
  obtain ⟨s, hs⟩ := NotBelow.exists_zero (.inl (isPositive_square hfb)) hsquare
  obtain ⟨t, ht⟩ := (notBelow_cube_third ha).exists_zero hcube
  have hdelta : ((DepressedCubic.mk a b).delta == 0.0) = true := by
    rw [beq_zero_iff, DepressedCubic.delta, value_add, hs, ht]
    cases s <;> cases t <;> exact ⟨_, rfl⟩
  have hnonzero :=
    delta_ne_zero_of_small h (atMost_of_cube hfa ha hcube) (atMost_of_square hfb hsquare)
  rw [hnonzero] at hdelta
  cases hdelta

/-! ### Signs and seeds -/

/-- The discriminant is a number other than zero, and its sign tells the number of seeds. -/
structure SignCountsSeeds (curve : Curve Float) (discriminant : Float) : Prop where
  negative : discriminant < 0.0 ↔ curve.seeds.length = 3
  positive : 0.0 < discriminant ↔ curve.seeds.length = 1
  nonzero : (discriminant == 0.0) = false
  number : discriminant.isNaN = false

variable {a b : Float} {curve : Curve Float} {discriminant : Float}

theorem signCountsSeeds_of_pos (hpos : 0.0 < discriminant) (h : curve.seeds.length = 1) :
    SignCountsSeeds curve discriminant := by
  obtain ⟨hzero, hneg, hnumber⟩ := signs_of_pos hpos
  exact ⟨iff_of_false hneg (by omega), iff_of_true hpos h, hzero, hnumber⟩

theorem signCountsSeeds_of_neg (hneg : discriminant < 0.0) (h : curve.seeds.length = 3) :
    SignCountsSeeds curve discriminant := by
  obtain ⟨hzero, hpos, hnumber⟩ := signs_of_neg hneg
  exact ⟨iff_of_true hneg h, iff_of_false hpos (by omega), hzero, hnumber⟩

/-- How many seeds there are is decided by `delta`. -/
theorem length_seeds (h : ofEquation (.weierstrass a b) = .ok curve) :
    curve.seeds.length = if (DepressedCubic.mk a b).delta == 0.0 then (if b == 0.0 then 1 else 2)
      else if 0.0 < (DepressedCubic.mk a b).delta then 1 else 3 := by
  obtain ⟨xs, hroots, hseeds⟩ := exists_roots_of_accepted h
  rw [hseeds, List.length_map, DepressedCubic.length_roots hroots]

theorem length_of_pos (h : ofEquation (.weierstrass a b) = .ok curve)
    (hdelta : 0.0 < (DepressedCubic.mk a b).delta) : curve.seeds.length = 1 := by
  rw [length_seeds h, (signs_of_pos hdelta).1, if_neg Bool.false_ne_true, if_pos hdelta]

/-- A curve whose linear coefficient is not negative has one seed. -/
theorem signs_of_nonneg (h : ofEquation (.weierstrass a b) = .ok curve) (ha : NotBelow (value a)) :
    curve.seeds.length = 1 ∧ 0.0 < Scalar.sq (0.5 * b) + Scalar.cube (a / 3.0) ∧
      ¬ Scalar.sq (0.5 * b) ≤ -Scalar.cube (a / 3.0) := by
  obtain ⟨hfa, hfb⟩ := Bool.and_eq_true_iff.mp (isFinite_of_accepted h)
  have hsquare := isPositive_square hfb
  have hcube := notBelow_cube_third ha
  have hcube' := notBelow_cube_div ha
  have habove := above_of_accepted h ha
  have habove' : Above (value (Scalar.sq (0.5 * b))) ∨ Above (value (Scalar.cube (a / 3.0))) :=
    habove.imp_right fun hthird => hcube'.above (hthird.2.trans_le (size_cube_third_le hfa))
  exact ⟨length_of_pos h (pos_iff.mpr (above_add hsquare hcube habove)),
    pos_iff.mpr (above_add hsquare hcube' habove'), not_le_neg hsquare hcube' habove'⟩

section Negative

variable {c : Float}

theorem delta_of_neg :
    (DepressedCubic.mk (-c) b).delta = Scalar.sq (0.5 * b) - Scalar.cube (Scalar.third * c) := by
  rw [DepressedCubic.delta, mul_neg_eq, cube_neg, add_neg_eq]

variable (h : ofEquation (.weierstrass (-c) b) = .ok curve) (hc : IsPositive (value c))

include h hc

theorem length_of_lt
    (hlt : size (value (Scalar.sq (0.5 * b))) < size (value (Scalar.cube (Scalar.third * c)))) :
    curve.seeds.length = 3 := by
  obtain ⟨-, hfb⟩ := Bool.and_eq_true_iff.mp (isFinite_of_accepted h)
  have hcube := isPositive_cube (isPositive_third_mul hc)
  obtain ⟨hzero, hpos, -⟩ := signs_of_neg (sub_neg_of_size_lt (isPositive_square hfb) hcube hlt)
  rw [length_seeds h, delta_of_neg, hzero, if_neg Bool.false_ne_true, if_neg hpos]

/-- Only where both overflow, a square that is not below the cube comes with three seeds. -/
theorem size_eq_top_of_length
    (hle : size (value (Scalar.cube (Scalar.third * c))) ≤ size (value (Scalar.sq (0.5 * b))))
    (hlength : curve.seeds.length = 3) : size (value (Scalar.cube (Scalar.third * c))) = ⊤ := by
  obtain ⟨-, hfb⟩ := Bool.and_eq_true_iff.mp (isFinite_of_accepted h)
  have hcube := isPositive_cube (isPositive_third_mul hc)
  have hsquare := isPositive_square hfb
  obtain hlt | heq := hle.lt_or_eq
  · have hpos := sub_pos_of_size_lt hsquare hcube hlt
    rw [← delta_of_neg] at hpos
    rw [length_of_pos h hpos] at hlength
    omega
  · obtain ⟨-, hzero⟩ | ⟨htop, -⟩ := sub_of_size_eq hsquare hcube heq.symm
    · rw [length_seeds h, delta_of_neg, if_pos hzero] at hlength
      split at hlength <;> omega
    · exact heq.trans htop

theorem signs_of_neg_linear :
    let square := Scalar.sq (0.5 * b)
    let low := Scalar.cube (Scalar.third * c)
    let high := Scalar.cube (c / 3.0)
    (0.0 < square - high → curve.seeds.length = 1) ∧
      (curve.seeds.length = 3 → square - high < 0.0 ∨ (square - high).isNaN = true) ∧
      (SignCountsSeeds curve (square - high) ↔ ¬ (low ≤ square ∧ square ≤ high)) := by
  intro square low high
  obtain ⟨hfc, hfb⟩ := Bool.and_eq_true_iff.mp (isFinite_of_accepted h)
  have hsquare : IsPositive (value square) := isPositive_square hfb
  have hlow : IsPositive (value low) := isPositive_cube (isPositive_third_mul hc)
  have hhigh : IsPositive (value high) := isPositive_cube (isPositive_div_three hc)
  have hfinite : Scalar.isFinite c = true := by
    have hneg : (value (-c)).isFinite = true := hfc
    rw [value_neg] at hneg
    exact (isFinite_turn true (value c)).symm.trans hneg
  have hcubes : size (value low) ≤ size (value high) := size_cube_third_le hfinite
  rw [le_iff_size_le hlow hsquare, le_iff_size_le hsquare hhigh]
  obtain hlt | hle := lt_or_ge (size (value square)) (size (value low))
  · -- below both cubes
    have hneg := sub_neg_of_size_lt hsquare hhigh (hlt.trans_le hcubes)
    have hlength := length_of_lt h hc hlt
    exact ⟨fun hpos => absurd hpos (signs_of_neg hneg).2.1, fun _ => .inl hneg,
      iff_of_true (signCountsSeeds_of_neg hneg hlength) fun hbetween => hlt.not_ge hbetween.1⟩
  obtain hgt | hge := lt_or_ge (size (value high)) (size (value square))
  · -- above both cubes
    have hpos := sub_pos_of_size_lt hsquare hhigh hgt
    have hdelta := sub_pos_of_size_lt hsquare hlow (hcubes.trans_lt hgt)
    rw [← delta_of_neg] at hdelta
    have hlength := length_of_pos h hdelta
    exact ⟨fun _ => hlength, fun hthree => by omega,
      iff_of_true (signCountsSeeds_of_pos hpos hlength) fun hbetween => hgt.not_ge hbetween.2⟩
  · -- between the cubes there are three seeds only where all of them overflow
    have hthree : curve.seeds.length = 3 →
        size (value square) = ⊤ ∧ size (value square) = size (value high) := by
      intro hlength
      have htop := size_eq_top_of_length h hc hle hlength
      have hsquareTop := top_le_iff.mp (htop.symm.trans_le hle)
      exact ⟨hsquareTop, le_antisymm hge (le_top.trans hsquareTop.ge)⟩
    have hbetween : ¬ ¬ (size (value low) ≤ size (value square) ∧
        size (value square) ≤ size (value high)) := not_not.mpr ⟨hle, hge⟩
    obtain hlt | heq := hge.lt_or_eq
    · have hneg := sub_neg_of_size_lt hsquare hhigh hlt
      exact ⟨fun hpos => absurd hpos (signs_of_neg hneg).2.1, fun _ => .inl hneg,
        iff_of_false (fun hsign => hlt.ne (hthree (hsign.negative.mp hneg)).2) hbetween⟩
    · obtain ⟨hfinite, hzero⟩ | ⟨-, hnan⟩ := sub_of_size_eq hsquare hhigh heq
      · refine ⟨fun hpos => ?_, fun hlength => absurd (hthree hlength).1 hfinite,
          iff_of_false (fun hsign => ?_) hbetween⟩
        · rw [(signs_of_pos hpos).1] at hzero
          cases hzero
        · rw [hsign.nonzero] at hzero
          cases hzero
      · have hnumber := isNaN_iff_value.mpr hnan
        refine ⟨fun hpos => ?_, fun _ => .inr hnumber, iff_of_false (fun hsign => ?_) hbetween⟩
        · rw [(signs_of_pos hpos).2.2] at hnumber
          cases hnumber
        · rw [hsign.number] at hnumber
          cases hnumber

end Negative

/-- A positive discriminant comes with one seed, and three seeds with a negative discriminant or
one that is no number; where the linear coefficient is not negative there is one seed. The sign
fails to tell the number of seeds exactly where the square of the halved constant lies between the
two cubes. -/
theorem signCountsSeeds_iff (h : ofEquation (.weierstrass a b) = .ok curve) :
    ∃ discriminant, curve.equation.discriminant? = some discriminant ∧
      (0.0 < discriminant → curve.seeds.length = 1) ∧
      (curve.seeds.length = 3 → discriminant < 0.0 ∨ discriminant.isNaN = true) ∧
      (0.0 ≤ a → SignCountsSeeds curve discriminant) ∧
      (SignCountsSeeds curve discriminant ↔
        ¬ (-Scalar.cube (Scalar.third * a) ≤ Scalar.sq (0.5 * b) ∧
          Scalar.sq (0.5 * b) ≤ -Scalar.cube (a / 3.0))) := by
  obtain ⟨hfa, -⟩ := Bool.and_eq_true_iff.mp (isFinite_of_accepted h)
  refine ⟨Scalar.sq (0.5 * b) + Scalar.cube (a / 3.0), ?_, ?_⟩
  · rw [equation_of_accepted h]
    rfl
  have hnonneg : NotBelow (value a) → SignCountsSeeds curve
      (Scalar.sq (0.5 * b) + Scalar.cube (a / 3.0)) := by
    intro ha
    obtain ⟨hlength, hpos, -⟩ := signs_of_nonneg h ha
    exact signCountsSeeds_of_pos hpos hlength
  obtain ha | ha := notBelow_or_neg hfa
  · obtain ⟨hlength, -, hnot⟩ := signs_of_nonneg h ha
    exact ⟨fun _ => hlength, fun hthree => by omega, fun _ => hnonneg ha,
      iff_of_true (hnonneg ha) fun hbetween => hnot hbetween.2⟩
  · obtain ⟨c, rfl⟩ : ∃ c, a = -c := ⟨-a, (neg_neg_float a).symm⟩
    rw [neg_neg_float] at ha
    obtain ⟨hone, hthree, hsign⟩ := signs_of_neg_linear h ha
    rw [neg_div_eq, mul_neg_eq, cube_neg, cube_neg, neg_neg_float, neg_neg_float, add_neg_eq]
    rw [neg_div_eq, cube_neg, add_neg_eq] at hnonneg
    exact ⟨hone, hthree, fun hle => hnonneg (notBelow_of_nonneg hle), hsign⟩

theorem exists_discriminant_of_any (equation : Equation Float) (check : Curve Float → Float → Bool)
    (h : ((ofEquation equation).toOption.any fun curve =>
      curve.equation.discriminant?.any (check curve)) = true) :
    ∃ curve, ofEquation equation = .ok curve ∧
      ∃ discriminant, curve.equation.discriminant? = some discriminant ∧
        check curve discriminant = true := by
  obtain ⟨curve, haccepted, hcheck⟩ := exists_accepted_of_any equation _ h
  obtain ⟨discriminant, hdiscriminant, hpassed⟩ := (Option.any_eq_true _ _).mp hcheck
  exact ⟨curve, haccepted, discriminant, hdiscriminant, hpassed⟩

/-- `z·y² = x³ - x·z²` has three seeds and a negative discriminant. -/
theorem signCountsSeeds_neg_one_zero :
    ∃ curve : Curve Float, ofEquation (.weierstrass (-1.0) 0.0) = .ok curve ∧
      curve.seeds.length = 3 ∧ ∃ discriminant, curve.equation.discriminant? = some discriminant ∧
        SignCountsSeeds curve discriminant ∧ discriminant < 0.0 := by
  obtain ⟨curve, haccepted, hseeds⟩ := exists_accepted_of_any (.weierstrass (-1.0 : Float) 0.0)
    (fun curve => curve.seeds.length == 3) (by decide +kernel)
  have hlength : curve.seeds.length = 3 := beq_iff_eq.mp hseeds
  obtain ⟨discriminant, hdiscriminant, -, -, -, hsign⟩ := signCountsSeeds_iff haccepted
  have hcounts := hsign.mpr (by decide +kernel)
  exact ⟨curve, haccepted, hlength, discriminant, hdiscriminant, hcounts,
    hcounts.negative.mpr hlength⟩

/-- Three accepted curves: with a negative discriminant and one seed, with the discriminant zero,
and with a discriminant that is no number and three seeds. -/
theorem not_signCountsSeeds :
    (∃ curve : Curve Float,
      ofEquation (.weierstrass (-6755426827579324.0) 2.137112108279101e23) = .ok curve ∧
        ∃ discriminant, curve.equation.discriminant? = some discriminant ∧
          discriminant < 0.0 ∧ curve.seeds.length = 1) ∧
      (∃ curve : Curve Float, ofEquation (.weierstrass (-3e12) 2e18) = .ok curve ∧
        ∃ discriminant, curve.equation.discriminant? = some discriminant ∧
          (discriminant == 0.0) = true) ∧
      ∃ curve : Curve Float, ofEquation (.weierstrass (-1e200) 1e200) = .ok curve ∧
        ∃ discriminant, curve.equation.discriminant? = some discriminant ∧
          discriminant.isNaN = true ∧ curve.seeds.length = 3 := by
  refine ⟨?_, ?_, ?_⟩
  · obtain ⟨curve, haccepted, discriminant, hdiscriminant, hcheck⟩ := exists_discriminant_of_any
      (.weierstrass (-6755426827579324.0) 2.137112108279101e23)
      (fun curve discriminant => decide (discriminant < 0.0 ∧ curve.seeds.length = 1))
      (by decide +kernel)
    exact ⟨curve, haccepted, discriminant, hdiscriminant, of_decide_eq_true hcheck⟩
  · exact exists_discriminant_of_any (.weierstrass (-3e12) 2e18)
      (fun _ discriminant => discriminant == 0.0) (by decide +kernel)
  · obtain ⟨curve, haccepted, discriminant, hdiscriminant, hcheck⟩ := exists_discriminant_of_any
      (.weierstrass (-1e200) 1e200)
      (fun curve discriminant => decide (discriminant.isNaN = true ∧ curve.seeds.length = 3))
      (by decide +kernel)
    exact ⟨curve, haccepted, discriminant, hdiscriminant, of_decide_eq_true hcheck⟩

end Curve

end EllipticPlot
