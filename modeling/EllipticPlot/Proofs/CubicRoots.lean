import EllipticPlot.Proofs.SmoothCurve
import Mathlib.Data.List.Sort

/-!
# Roots of depressed cubics

The three ways of solving a cubic give all its real roots and nothing else. Where all roots are
real, their elementary symmetric functions are compared with the coefficients; a single root leaves
a quadratic factor without zeros.
-/

namespace EllipticPlot

namespace DepressedCubic

variable {c : DepressedCubic ℝ}

/-! ### Sorting -/

theorem ascending_eq_insertionSort (xs : List ℝ) : ascending xs = xs.insertionSort (· ≤ ·) := by
  have hinsert : ∀ (x : ℝ) (ys : List ℝ), insertAscending x ys = ys.orderedInsert (· ≤ ·) x := by
    intro x ys
    induction ys with
    | nil => rfl
    | cons y ys ih =>
      rw [insertAscending, List.orderedInsert, ih]
  induction xs with
  | nil => rfl
  | cons x xs ih =>
    rw [List.insertionSort_cons, ← ih, ← hinsert]
    rfl

/-- Numbers that differ are sorted into a strictly ascending list. -/
theorem pairwise_ascending {xs : List ℝ} (hnodup : xs.Nodup) :
    (ascending xs).Pairwise (· < ·) := by
  rw [ascending_eq_insertionSort]
  have hle : (xs.insertionSort (· ≤ ·)).Pairwise (· ≤ ·) := List.pairwise_insertionSort _ xs
  have hne : (xs.insertionSort (· ≤ ·)).Pairwise (· ≠ ·) :=
    (List.perm_insertionSort (· ≤ ·) xs).nodup_iff.mpr hnodup
  exact hle.imp₂ (fun _ _ => lt_of_le_of_ne) hne

/-! ### Factors -/

def IsRoot (c : DepressedCubic ℝ) (x : ℝ) : Prop := x ^ 3 + c.linear * x + c.constant = 0

/-- A root leaves a quadratic factor. -/
theorem isRoot_iff_of_isRoot {r : ℝ} (hr : c.IsRoot r) (x : ℝ) :
    c.IsRoot x ↔ x = r ∨ x ^ 2 + r * x + (r ^ 2 + c.linear) = 0 := by
  have hfactor : x ^ 3 + c.linear * x + c.constant =
      (x - r) * (x ^ 2 + r * x + (r ^ 2 + c.linear)) := by
    rw [IsRoot] at hr
    linear_combination hr
  rw [IsRoot, hfactor, mul_eq_zero, sub_eq_zero]

/-- Three numbers with the symmetric functions of the coefficients are the roots. -/
theorem isRoot_iff_of_symmetric {r s t : ℝ} (hsum : r + s + t = 0)
    (hpairs : r * s + s * t + t * r = c.linear) (hproduct : r * s * t = -c.constant) (x : ℝ) :
    c.IsRoot x ↔ x = r ∨ x = s ∨ x = t := by
  have hfactor : x ^ 3 + c.linear * x + c.constant = (x - r) * ((x - s) * (x - t)) := by
    linear_combination x ^ 2 * hsum - x * hpairs + hproduct
  rw [IsRoot, hfactor, mul_eq_zero, mul_eq_zero, sub_eq_zero, sub_eq_zero, sub_eq_zero]

theorem delta_eq_add (c : DepressedCubic ℝ) :
    c.delta = (c.constant / 2) ^ 2 + (c.linear / 3) ^ 3 := by
  rw [delta_eq]
  ring

private theorem cube_injective {x y : ℝ} (h : x ^ 3 = y ^ 3) : x = y := by
  have hodd : Odd 3 := by decide
  exact hodd.pow_injective h

/-! ### A repeated root -/

theorem repeatedRoots_spec (hdelta : c.delta = 0) :
    c.repeatedRoots.Pairwise (· < ·) ∧ ∀ x, x ∈ c.repeatedRoots ↔ c.IsRoot x := by
  rw [delta_eq_add] at hdelta
  rw [repeatedRoots]
  by_cases hconstant : c.constant = 0
  · have hlinear : c.linear = 0 := by
      rw [hconstant] at hdelta
      have hcube : (c.linear / 3) ^ 3 = 0 := by linear_combination hdelta
      linarith [pow_eq_zero_iff three_ne_zero |>.1 hcube]
    rw [if_pos (by rw [beq_iff_eq, hconstant]; norm_num)]
    refine ⟨List.pairwise_singleton _ _, fun x => ?_⟩
    rw [List.mem_singleton, IsRoot, hlinear, hconstant]
    norm_num
  · rw [if_neg (by rw [beq_iff_eq]; norm_num [hconstant])]
    have hcube := cbrt_pow_three (-4.0 * c.constant)
    set simple : ℝ := Scalar.cbrt (-4.0 * c.constant)
    have hcube : simple ^ 3 = -4 * c.constant := by
      rw [hcube]
      norm_num
    have hsimple : simple ≠ 0 := by
      intro hzero
      rw [hzero] at hcube
      exact hconstant (by linarith)
    have hdouble : (-0.5 * simple : ℝ) = -simple / 2 := by
      norm_num
      ring
    -- the linear coefficient has the same cube as that of the cubic with these roots
    have hlinear : c.linear = -3 / 4 * simple ^ 2 := by
      apply cube_injective
      linear_combination 27 * hdelta + (27 / 64 * simple ^ 3 - 27 / 16 * c.constant) * hcube
    dsimp only
    rw [hdouble]
    constructor
    · apply pairwise_ascending
      have hne : simple ≠ -simple / 2 := by
        intro heq
        exact hsimple (by linarith)
      simpa using hne
    · intro x
      have hroots := isRoot_iff_of_symmetric (c := c) (r := simple) (s := -simple / 2)
        (t := -simple / 2) (by ring) (by rw [hlinear]; ring) (by linear_combination hcube / 4) x
      rw [mem_ascending, hroots]
      simp

/-! ### A single root -/

theorem singleRoot_spec (hdelta : 0 < c.delta) (x : ℝ) : c.IsRoot x ↔ x = c.singleRoot := by
  have hroot : Scalar.sqrt c.delta ^ 2 = c.delta := Real.sq_sqrt hdelta.le
  have hpos : 0 < Scalar.sqrt c.delta := Real.sqrt_pos.mpr hdelta
  rw [singleRoot]
  set d : ℝ := Scalar.sqrt c.delta
  have hu := cbrt_pow_three (-0.5 * c.constant + d)
  have hv := cbrt_pow_three (-0.5 * c.constant - d)
  set u : ℝ := Scalar.cbrt (-0.5 * c.constant + d)
  set v : ℝ := Scalar.cbrt (-0.5 * c.constant - d)
  norm_num at hu hv
  rw [delta_eq_add] at hroot
  have hlinear : c.linear = -3 * (u * v) := by
    apply cube_injective
    linear_combination -27 * hroot + 27 * v ^ 3 * hu + 27 * (-(1 / 2) * c.constant + d) * hv
  have hne : u ≠ v := by
    intro heq
    rw [heq] at hu
    linarith
  have hsum : c.IsRoot (u + v) := by
    rw [IsRoot, hlinear]
    linear_combination hu + hv
  rw [isRoot_iff_of_isRoot hsum, or_iff_left]
  -- the quadratic factor is a sum of squares
  have hfactor : x ^ 2 + (u + v) * x + ((u + v) ^ 2 + c.linear) =
      (x + (u + v) / 2) ^ 2 + 3 / 4 * (u - v) ^ 2 := by
    rw [hlinear]
    ring
  have hsq : 0 < (u - v) ^ 2 := by
    have := sub_ne_zero.mpr hne
    positivity
  rw [hfactor]
  positivity

/-! ### Three roots -/

/-- Three real roots have a common scale, which bounds the constant coefficient. -/
theorem exists_scale (hdelta : c.delta < 0) :
    ∃ m : ℝ, 0 < m ∧ c.linear = -3 * m ^ 2 ∧ |c.constant| < 2 * m ^ 3 := by
  rw [delta_eq_add] at hdelta
  have hneg : c.linear < 0 := by
    by_contra hnonneg
    have hcube : 0 ≤ (c.linear / 3) ^ 3 := by
      have := not_lt.mp hnonneg
      positivity
    linarith [sq_nonneg (c.constant / 2)]
  have hpos : 0 < √(-c.linear / 3) := Real.sqrt_pos.mpr (by linarith)
  have hsq : √(-c.linear / 3) ^ 2 = -c.linear / 3 := Real.sq_sqrt (by linarith)
  set m : ℝ := √(-c.linear / 3)
  have hlinear : c.linear = -3 * m ^ 2 := by linarith
  refine ⟨m, hpos, hlinear, abs_lt_of_sq_lt_sq ?_ (by positivity)⟩
  rw [hlinear] at hdelta
  linarith

theorem clamp_of_abs_le_one {x : ℝ} (h : |x| ≤ 1) : Scalar.clamp (-1.0) 1.0 x = x := by
  obtain ⟨hlow, hhigh⟩ := abs_le.mp h
  have hraised : ¬ x < (-1.0 : ℝ) := by
    norm_num
    exact hlow
  have hlowered : ¬ (1.0 : ℝ) < x := by
    norm_num
    exact hhigh
  rw [Scalar.clamp, if_neg hraised, if_neg hlowered]

/-- The trigonometric form: the linear coefficient gives the radius, the constant one the angle. -/
theorem threeRoots_eq {m θ : ℝ} (hm : 0 < m) (hlinear : c.linear = -3 * m ^ 2)
    (hconstant : |c.constant| < 2 * m ^ 3)
    (hθ : θ = Real.arccos (-c.constant / (2 * m ^ 3)) / 3) :
    c.threeRoots = [2 * m * Real.cos θ, -(2 * m) * Real.cos (θ + Real.pi / 3),
      -(2 * m) * Real.cos (θ - Real.pi / 3)] := by
  have hradius : Scalar.sqrt (-4.0 * Scalar.third * c.linear) = 2 * m := by
    have hsq : -4.0 * Scalar.third * c.linear = (2 * m) ^ 2 := by
      rw [hlinear, Scalar.third]
      norm_num
      ring
    rw [hsq]
    exact Real.sqrt_sq (by positivity)
  have hcube : Scalar.sqrt (Scalar.cube (-3.0 / c.linear)) = (m ^ 3)⁻¹ := by
    have hsq : Scalar.cube (-3.0 / c.linear) = ((m ^ 3)⁻¹) ^ 2 := by
      rw [hlinear, Scalar.cube]
      norm_num
      field_simp
    rw [hsq]
    exact Real.sqrt_sq (by positivity)
  have hcosine : -0.5 * c.constant * Scalar.sqrt (Scalar.cube (-3.0 / c.linear)) =
      -c.constant / (2 * m ^ 3) := by
    rw [hcube]
    norm_num
    field_simp
  have hbound : |-c.constant / (2 * m ^ 3)| ≤ 1 := by
    rw [abs_div, abs_neg, abs_of_pos (by positivity : 0 < 2 * m ^ 3)]
    exact div_le_one_of_le₀ hconstant.le (by positivity)
  have hangle : Scalar.third * Scalar.acos (-c.constant / (2 * m ^ 3)) = θ := by
    rw [hθ, Scalar.third]
    change (1.0 / 3.0 : ℝ) * Real.arccos _ = _
    norm_num
    ring
  have hturn : (Scalar.third * Scalar.pi : ℝ) = Real.pi / 3 := by
    rw [Scalar.third]
    change (1.0 / 3.0 : ℝ) * Real.pi = _
    norm_num
    ring
  rw [threeRoots, hradius, hcosine, clamp_of_abs_le_one hbound, hangle, hturn]
  rfl

/-- As cosines of `θ`, `2π/3 - θ` and `2π/3 + θ` the roots descend. -/
theorem nodup_cosines {m θ : ℝ} (hm : 0 < m) (hpos : 0 < θ) (hlt : θ < Real.pi / 3) :
    [2 * m * Real.cos θ, -(2 * m) * Real.cos (θ + Real.pi / 3),
      -(2 * m) * Real.cos (θ - Real.pi / 3)].Nodup := by
  have hsecond : -(2 * m) * Real.cos (θ + Real.pi / 3) =
      2 * m * Real.cos (2 * Real.pi / 3 - θ) := by
    have hturn : 2 * Real.pi / 3 - θ = Real.pi - (θ + Real.pi / 3) := by ring
    rw [hturn, Real.cos_pi_sub]
    ring
  have hthird : -(2 * m) * Real.cos (θ - Real.pi / 3) =
      2 * m * Real.cos (2 * Real.pi / 3 + θ) := by
    have hturn : 2 * Real.pi / 3 + θ = θ - Real.pi / 3 + Real.pi := by ring
    rw [hturn, Real.cos_add_pi]
    ring
  have hfirstSecond : Real.cos (2 * Real.pi / 3 - θ) < Real.cos θ :=
    Real.cos_lt_cos_of_nonneg_of_le_pi (by linarith) (by linarith) (by linarith)
  have hsecondThird : Real.cos (2 * Real.pi / 3 + θ) < Real.cos (2 * Real.pi / 3 - θ) :=
    Real.cos_lt_cos_of_nonneg_of_le_pi (by linarith) (by linarith) (by linarith)
  have hscale : ∀ {a b : ℝ}, a < b → 2 * m * a < 2 * m * b := by
    intro a b hab
    exact mul_lt_mul_of_pos_left hab (by positivity)
  rw [hsecond, hthird]
  simp only [List.nodup_cons, List.mem_cons, List.not_mem_nil, or_false, not_or,
    List.nodup_nil, not_false_eq_true, and_true]
  exact ⟨⟨(hscale hfirstSecond).ne', (hscale (hsecondThird.trans hfirstSecond)).ne'⟩,
    (hscale hsecondThird).ne'⟩

/-- By the triple angle the three cosines are the roots. -/
theorem isRoot_iff_cosines {m θ : ℝ} (hlinear : c.linear = -3 * m ^ 2)
    (hconstant : 2 * m ^ 3 * Real.cos (3 * θ) = -c.constant) (x : ℝ) :
    c.IsRoot x ↔ x = 2 * m * Real.cos θ ∨ x = -(2 * m) * Real.cos (θ + Real.pi / 3) ∨
      x = -(2 * m) * Real.cos (θ - Real.pi / 3) := by
  have hcircle := Real.sin_sq_add_cos_sq θ
  have hsqrt : √(3 : ℝ) ^ 2 = 3 := Real.sq_sqrt (by norm_num)
  rw [Real.cos_three_mul] at hconstant
  rw [Real.cos_add, Real.cos_sub, Real.cos_pi_div_three, Real.sin_pi_div_three]
  apply isRoot_iff_of_symmetric
  · ring
  · rw [hlinear]
    linear_combination -3 * m ^ 2 * hcircle - m ^ 2 * Real.sin θ ^ 2 * hsqrt
  · linear_combination hconstant - 6 * m ^ 3 * Real.cos θ * hcircle -
      2 * m ^ 3 * Real.cos θ * Real.sin θ ^ 2 * hsqrt

theorem threeRoots_spec (hdelta : c.delta < 0) :
    (ascending c.threeRoots).Pairwise (· < ·) ∧
      ∀ x, x ∈ ascending c.threeRoots ↔ c.IsRoot x := by
  obtain ⟨m, hm, hlinear, hconstant⟩ := exists_scale hdelta
  have hbound : |-c.constant / (2 * m ^ 3)| < 1 := by
    rw [abs_div, abs_neg, abs_of_pos (by positivity : 0 < 2 * m ^ 3),
      div_lt_one (by positivity)]
    exact hconstant
  obtain ⟨hlow, hhigh⟩ := abs_lt.mp hbound
  have hpos : 0 < Real.arccos (-c.constant / (2 * m ^ 3)) := Real.arccos_pos.mpr hhigh
  have hlt : Real.arccos (-c.constant / (2 * m ^ 3)) < Real.pi := Real.arccos_lt_pi.mpr hlow
  set θ : ℝ := Real.arccos (-c.constant / (2 * m ^ 3)) / 3 with hθ
  have hcosine : 2 * m ^ 3 * Real.cos (3 * θ) = -c.constant := by
    rw [hθ, mul_div_cancel₀ _ three_ne_zero, Real.cos_arccos hlow.le hhigh.le]
    field_simp
  rw [threeRoots_eq hm hlinear hconstant hθ]
  refine ⟨pairwise_ascending (nodup_cosines hm (by linarith) (by linarith)), fun x => ?_⟩
  rw [mem_ascending, isRoot_iff_cosines hlinear hcosine]
  simp

/-! ### All cases -/

theorem roots_of_delta_pos (hdelta : 0 < c.delta) : c.roots = .ok [c.singleRoot] := by
  have hne : ¬ (c.delta == 0.0) = true := by
    rw [beq_iff_eq]
    norm_num
    exact hdelta.ne'
  have hpos : (0.0 : ℝ) < c.delta := by
    norm_num
    exact hdelta
  rw [roots, if_neg (by simp [Scalar.isFinite]), if_neg hne, if_pos hpos]

theorem roots_of_delta_neg (hdelta : c.delta < 0) :
    c.roots = if |c.linear| < 1e-12 then .error .degenerateCubic
      else .ok (ascending c.threeRoots) := by
  have hne : ¬ (c.delta == 0.0) = true := by
    rw [beq_iff_eq]
    norm_num
    exact hdelta.ne
  have hpos : ¬ (0.0 : ℝ) < c.delta := by
    norm_num
    exact hdelta.le
  rw [roots, if_neg (by simp [Scalar.isFinite]), if_neg hne, if_neg hpos,
    if_pos (by simp [Scalar.isFinite] : c.threeRoots.all Scalar.isFinite = true)]
  rfl

/-- Roots that are listed at all are listed completely. -/
theorem roots_spec {xs : List ℝ} (h : c.roots = .ok xs) :
    xs.Pairwise (· < ·) ∧ ∀ x, x ∈ xs ↔ c.IsRoot x := by
  obtain hneg | hzero | hpos := lt_trichotomy c.delta 0
  · rw [roots_of_delta_neg hneg] at h
    split at h
    · exact nomatch h
    · obtain rfl := Except.ok.inj h
      exact threeRoots_spec hneg
  · rw [roots_of_delta_eq_zero hzero] at h
    obtain rfl := Except.ok.inj h
    exact repeatedRoots_spec hzero
  · rw [roots_of_delta_pos hpos] at h
    obtain rfl := Except.ok.inj h
    refine ⟨List.pairwise_singleton _ _, fun x => ?_⟩
    rw [List.mem_singleton, singleRoot_spec hpos]

/-- In exact arithmetic a cubic is refused only for three roots that are almost one, and otherwise
its real roots are listed, each once and in ascending order. -/
theorem roots_complete (p q : ℝ) :
    ((DepressedCubic.mk p q).roots = .error .degenerateCubic ↔
      (q / 2) ^ 2 + (p / 3) ^ 3 < 0 ∧ |p| < 1e-12) ∧
    (¬ ((q / 2) ^ 2 + (p / 3) ^ 3 < 0 ∧ |p| < 1e-12) →
      ∃ xs, (DepressedCubic.mk p q).roots = .ok xs ∧ xs.Pairwise (· < ·) ∧
        ∀ x, x ∈ xs ↔ x ^ 3 + p * x + q = 0) := by
  set c : DepressedCubic ℝ := ⟨p, q⟩
  have hdelta : (q / 2) ^ 2 + (p / 3) ^ 3 = c.delta := c.delta_eq_add.symm
  rw [hdelta]
  obtain hneg | hzero | hpos := lt_trichotomy c.delta 0
  · by_cases hsmall : |p| < 1e-12
    · rw [roots_of_delta_neg hneg, if_pos hsmall]
      exact ⟨iff_of_true rfl ⟨hneg, hsmall⟩, fun h => absurd ⟨hneg, hsmall⟩ h⟩
    · rw [roots_of_delta_neg hneg, if_neg hsmall]
      exact ⟨iff_of_false nofun fun h => hsmall h.2, fun _ => ⟨_, rfl, threeRoots_spec hneg⟩⟩
  · rw [roots_of_delta_eq_zero hzero]
    exact ⟨iff_of_false nofun fun h => h.1.ne hzero, fun _ => ⟨_, rfl, repeatedRoots_spec hzero⟩⟩
  · rw [roots_of_delta_pos hpos]
    refine ⟨iff_of_false nofun fun h => h.1.not_gt hpos, fun _ => ⟨_, rfl, ?_, fun x => ?_⟩⟩
    · exact List.pairwise_singleton _ _
    · rw [List.mem_singleton, ← singleRoot_spec hpos]
      rfl

end DepressedCubic

namespace Curve

/-- A smooth cubic with one root that is steep at it is accepted, with that root for a seed. -/
theorem accepted_of_single_root {a b r : ℝ} (hdelta : 0 < 4 * a ^ 3 + 27 * b ^ 2)
    (hroot : r ^ 3 + a * r + b = 0) (hgradient : r ^ 2 + 1 ≤ 3 * r ^ 2 + a) :
    ofEquation (.weierstrass a b) = .ok ⟨.weierstrass a b, [⟨r, 0.0, 1.0⟩]⟩ := by
  have hpos : 0 < (DepressedCubic.mk a b).delta := by
    rw [delta_eq]
    linarith
  have hsingle : r = (DepressedCubic.mk a b).singleRoot :=
    (DepressedCubic.singleRoot_spec hpos r).mp hroot
  rw [ofEquation, if_neg (by simp [Equation.isFinite, Scalar.isFinite]), seedsOf,
    DepressedCubic.roots_of_delta_pos hpos, ← hsingle]
  simp [Except.map, isSingularAt_eq_false hgradient]

end Curve

end EllipticPlot
