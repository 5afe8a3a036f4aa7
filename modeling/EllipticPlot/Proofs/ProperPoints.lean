import EllipticPlot.GroupLaw
import EllipticPlot.Picking
import EllipticPlot.Proofs.Acceptance
import EllipticPlot.Proofs.Binary64Operations
import EllipticPlot.Proofs.Candidates
import EllipticPlot.Proofs.Newton
import EllipticPlot.Proofs.Strides

/-!
# Sums and projections that denote points

A triple of doubles is brought to unit length by the reciprocal of its length. As long as the length
is a number, no triple but zero becomes zero in this way; where it overflows, the reciprocal is zero
and every triple does. Sums and projections are the zero vector for no other reason.
-/

namespace EllipticPlot

open Binary64
open Float.Model (UnpackedFloat)
open Float.Model.UnpackedFloat

namespace Point

/-! ### Lengths -/

theorem isFinite_iff {p : Point Float} : p.isFinite = true ↔
    Scalar.isFinite p.x = true ∧ Scalar.isFinite p.y = true ∧ Scalar.isFinite p.z = true := by
  rw [isFinite, Bool.and_eq_true, Bool.and_eq_true, and_assoc]

/-- A triple with a finite length is finite. -/
theorem isFinite_of_norm {p : Point Float} (h : Scalar.isFinite p.norm = true) :
    p.isFinite = true := by
  have hsum : Scalar.isFinite (p.x * p.x + p.y * p.y + p.z * p.z) = true :=
    isFinite_of_isFinite_sqrt h
  obtain ⟨hxy, hz⟩ := isFinite_of_isFinite_add hsum
  obtain ⟨hx, hy⟩ := isFinite_of_isFinite_add hxy
  exact isFinite_iff.mpr ⟨isFinite_of_isFinite_mul hx, isFinite_of_isFinite_mul hy,
    isFinite_of_isFinite_mul hz⟩

theorem isPositive_norm {p : Point Float} (h : p.isFinite = true) : IsPositive (value p.norm) := by
  obtain ⟨hx, hy, hz⟩ := isFinite_iff.mp h
  exact isPositive_sqrt (isPositive_add (isPositive_add (isPositive_mul_self hx)
    (isPositive_mul_self hy)) (isPositive_mul_self hz))

/-- The length of a finite triple that is no number is infinite. -/
theorem value_norm_of_overflow {p : Point Float} (hfinite : p.isFinite = true)
    (h : Scalar.isFinite p.norm = false) : value p.norm = .infinity .positive :=
  (isPositive_norm hfinite).eq_infinity h

/-- A length is bounded by the coordinates. -/
theorem atMost_norm {n : ℤ} {p : Point Float} (hlow : -500 ≤ n) (hhigh : n ≤ 500)
    (hx : AtMost n (value p.x)) (hy : AtMost n (value p.y)) (hz : AtMost n (value p.z)) :
    AtMost (n + 1) (value p.norm) := by
  have hxx := atMost_mul hx hx (by omega) (by omega)
  have hyy := atMost_mul hy hy (by omega) (by omega)
  have hzz := atMost_mul hz hz (by omega) (by omega)
  have hxy := atMost_add hxx hyy (by omega) (by omega)
  have hsum := atMost_add hxy (hzz.mono (by omega : n + n ≤ n + n + 1)) (by omega) (by omega)
  have hsquare : AtMost (n + 1 + (n + 1)) (value p.normSq) := hsum.mono (by omega)
  obtain hnan | hbound := atMost_sqrt hsquare (by omega) (by omega)
  · have hpositive := isPositive_norm (isFinite_iff.mpr
      ⟨isFinite_of_atMost hx, isFinite_of_atMost hy, isFinite_of_atMost hz⟩)
    have hvalue : value p.norm = .notANumber := hnan
    rw [hvalue] at hpositive
    cases hpositive
  · exact hbound

/-- Scaling by the reciprocal of a finite length does not reach zero. -/
theorem scale_reciprocal_ne_zero {p : Point Float} (hproper : (p == zero) = false)
    (hnorm : Scalar.isFinite p.norm = true) : (p.scale (1.0 / p.norm) == zero) = false := by
  rw [← Bool.not_eq_true]
  intro hzero
  obtain ⟨hx, hy, hz⟩ := (beq_zero_iff _).mp hzero
  obtain ⟨hfx, hfy, hfz⟩ := isFinite_iff.mp (isFinite_of_norm hnorm)
  -- the reciprocal is at least `2 ^ (-1024)`, so a coordinate that vanishes with it is small
  have hreciprocal := atLeast_div constantBounds.one.1 (atMost_value hnorm) (by norm_num)
  have hsmall : ∀ c : Float, Scalar.isFinite c = true → (c * (1.0 / p.norm) == 0.0) = true →
      AtMost (-50) (value c) := by
    intro c hc hvanish
    have hvalue : (value c).isFinite = true := hc
    obtain hbound | hlarge := atMost_or_atLeast (-50) hvalue
    · exact hbound
    · have hne := ne_zero_of_atLeast (atLeast_mul hlarge hreciprocal (by norm_num))
      rw [hne] at hvanish
      cases hvanish
  -- then the length is small and its reciprocal large, and no coordinate but zero vanishes
  have hlength := atMost_norm (by norm_num) (by norm_num) (hsmall p.x hfx hx) (hsmall p.y hfy hy)
    (hsmall p.z hfz hz)
  have hlarge := atLeast_div constantBounds.one.1 hlength (by norm_num)
  have hvanished : ∀ c : Float, Scalar.isFinite c = true → (c * (1.0 / p.norm) == 0.0) = true →
      (c == 0.0) = true := by
    intro c hc hvanish
    by_contra hne
    have hcoordinate := atLeast_value hc (eq_false_of_ne_true hne)
    rw [ne_zero_of_atLeast (atLeast_mul hcoordinate hlarge (by norm_num))] at hvanish
    cases hvanish
  have hall : (p == zero) = true :=
    (beq_zero_iff p).mpr ⟨hvanished p.x hfx hx, hvanished p.y hfy hy, hvanished p.z hfz hz⟩
  rw [hproper] at hall
  cases hall

/-- The length of a zero triple is not positive. -/
theorem not_pos_norm_of_zero {p : Point Float} (h : (p == zero) = true) : ¬ 0.0 < p.norm := by
  obtain ⟨hx, hy, hz⟩ := (beq_zero_iff p).mp h
  have hnull : Scalar.Null p.norm := null_norm (.inl hx) (.inl hy) (.inl hz)
  have hvalue := (null_iff p.norm).mp hnull
  rw [lt_iff, value_zero]
  obtain ⟨s, hs⟩ | hnan := hvalue
  · rw [hs]
    exact Bool.false_ne_true
  · rw [hnan]
    exact Bool.false_ne_true

theorem value_reciprocal_of_overflow {p : Point Float} (hfinite : p.isFinite = true)
    (h : Scalar.isFinite p.norm = false) : value (1.0 / p.norm) = .zero .positive := by
  rw [value_div, value_norm_of_overflow hfinite h, value_one]
  rfl

theorem normalize_of_overflow {p : Point Float} (hfinite : p.isFinite = true)
    (h : Scalar.isFinite p.norm = false) : (p.normalize == zero) = true := by
  obtain ⟨hx, hy, hz⟩ := isFinite_iff.mp hfinite
  have hnorm := value_norm_of_overflow hfinite h
  have hpos : 0.0 < p.norm := by
    rw [lt_iff, value_zero, hnorm]
    rfl
  have hreciprocal : (1.0 / p.norm == 0.0) = true :=
    (Binary64.beq_zero_iff _).mpr ⟨.positive, value_reciprocal_of_overflow hfinite h⟩
  rw [normalize, if_pos hpos]
  exact (beq_zero_iff _).mpr ⟨mul_beq_zero_right hx hreciprocal,
    mul_beq_zero_right hy hreciprocal, mul_beq_zero_right hz hreciprocal⟩

/-- A unit representative is zero only for zero and for finite triples whose length overflows. -/
theorem normalize_beq_zero_iff (p : Point Float) : (p.normalize == zero) = true ↔
    (p == zero) = true ∨ p.isFinite = true ∧ Scalar.isFinite p.norm = false := by
  constructor
  · intro h
    rw [normalize] at h
    split at h
    · cases hnorm : Scalar.isFinite p.norm with
      | true =>
        left
        by_contra hproper
        rw [scale_reciprocal_ne_zero (eq_false_of_ne_true hproper) hnorm] at h
        cases h
      | false =>
        -- a product that is zero has finite factors
        obtain ⟨hx, hy, hz⟩ := (beq_zero_iff _).mp h
        have hfinite : p.isFinite = true := isFinite_iff.mpr
          ⟨isFinite_of_isFinite_mul (isFinite_of_beq_zero hx),
            isFinite_of_isFinite_mul (isFinite_of_beq_zero hy),
            isFinite_of_isFinite_mul (isFinite_of_beq_zero hz)⟩
        exact .inr ⟨hfinite, rfl⟩
    · exact .inl h
  · rintro (hzero | ⟨hfinite, hnorm⟩)
    · rw [normalize, if_neg (not_pos_norm_of_zero hzero)]
      exact hzero
    · exact normalize_of_overflow hfinite hnorm

theorem quotient?_eq_some {x y r : Float} (h : Scalar.quotient? x y = some r) : r = x / y := by
  change (if (x / y).isFinite then some (x / y) else none) = some r at h
  split at h
  · exact (Option.some.inj h).symm
  · cases h

/-- A candidate that denotes a point is not zero: its length has a positive reciprocal. -/
theorem proper?_ne_zero {p r : Point Float} (h : p.proper? = some r) : (r == zero) = false := by
  rw [proper?] at h
  split at h
  · next hfinite =>
    rw [unit?] at h
    split at h
    · next reciprocal hquotient =>
      obtain rfl := quotient?_eq_some hquotient
      split at h
      · next hpos =>
        have hnorm : Scalar.isFinite p.norm = true := by
          by_contra hoverflow
          rw [lt_iff, value_zero,
            value_reciprocal_of_overflow hfinite (eq_false_of_ne_true hoverflow)] at hpos
          cases hpos
        have hproper : (p == zero) = false := by
          rw [← Bool.not_eq_true]
          intro hzero
          obtain ⟨hx, hy, hz⟩ := (beq_zero_iff p).mp hzero
          rw [Scalar.LawfulZero.quotient?_null (null_norm (.inl hx) (.inl hy) (.inl hz))]
            at hquotient
          cases hquotient
        rw [← Option.some.inj h]
        exact scale_reciprocal_ne_zero hproper hnorm
      · cases h
    · cases h
  · cases h

theorem upper_beq_zero (p : Point Float) : (p.upper == zero) = (p == zero) := by
  rw [upper]
  split
  · change (-p.x == 0.0 && -p.y == 0.0 && -p.z == 0.0) = (p.x == 0.0 && p.y == 0.0 && p.z == 0.0)
    rw [← Scalar.LawfulSign.beq_zero (Scalar.reflects_neg p.x),
      ← Scalar.LawfulSign.beq_zero (Scalar.reflects_neg p.y),
      ← Scalar.LawfulSign.beq_zero (Scalar.reflects_neg p.z)]
  · rfl

end Point

/-! ### Sums -/

namespace Weierstrass

theorem neutral_beq_zero : ((neutral : Point Float) == Point.zero) = false := rfl

theorem exists_proper_of_candidate {α : Type} [Scalar α] {a b : α} {p q n r : Point α}
    {chart : Chart} (h : candidate? a b p q n chart = some r) :
    ∃ t : Point α, t.proper? = some r := by
  cases chart with
  | z =>
    simp only [candidate?, sumInChartZ?, Option.bind_eq_bind, Option.bind_eq_some_iff] at h
    obtain ⟨_, _, _, _, _, _, _, _, h⟩ := h
    exact ⟨_, h⟩
  | y =>
    simp only [candidate?, sumInChartY?, Option.bind_eq_bind, Option.bind_eq_some_iff] at h
    obtain ⟨_, _, _, _, _, _, _, _, _, _, h⟩ := h
    split at h
    · simp only [Option.bind_eq_some_iff] at h
      obtain ⟨_, _, h⟩ := h
      exact ⟨_, h⟩
    · simp only [Option.bind_eq_some_iff] at h
      obtain ⟨_, _, h⟩ := h
      exact ⟨_, h⟩

theorem sumOnLine_ne_zero (a b threshold : Float) (p q n : Point Float) :
    (sumOnLine a b threshold p q n == Point.zero) = false := by
  rw [sumOnLine]
  cases hsum : Sum.closer? (.weierstrass a b)
      (candidate? a b p q n (preferredChart threshold n))
      (candidate? a b p q n (preferredChart threshold n).other) with
  | none => exact neutral_beq_zero
  | some r =>
    obtain hfirst | hsecond := Sum.closer?_eq_some hsum
    · obtain ⟨t, ht⟩ := exists_proper_of_candidate hfirst
      exact Point.proper?_ne_zero ht
    · obtain ⟨t, ht⟩ := exists_proper_of_candidate hsecond
      exact Point.proper?_ne_zero ht

end Weierstrass

namespace Equation

/-- The summand whose unit representative is the sum, where no formula gives one: beside a neutral
element, or on an Edwards curve where both formulas fail. -/
def handedOn? {α : Type} [Scalar α] (equation : Equation α) (p q : Point α) : Option (Point α) :=
  match equation with
  | .weierstrass _ _ =>
    if Weierstrass.isNeutral p then some q else if Weierstrass.isNeutral q then some p else none
  | .edwards d =>
    match Sum.closer? (.edwards d) (Edwards.dedicatedSum? p q) (Edwards.unifiedSum? d p q) with
    | some _ => none
    | none => some (if Scalar.abs p.z < Scalar.abs q.z then p else q)

/-- A sum is zero only as the unit representative of a summand that is handed on. -/
theorem add_beq_zero_iff (equation : Equation Float) (threshold : Float) (p q : Point Float) :
    ((equation.addWithThreshold threshold p q).point == Point.zero) = true ↔
      ∃ r, equation.handedOn? p q = some r ∧ (r.normalize == Point.zero) = true := by
  cases equation with
  | weierstrass a b =>
    rw [addWithThreshold, Weierstrass.sum, handedOn?]
    dsimp only
    split
    · simp
    · split
      · simp
      · simp [Weierstrass.sumOnLine_ne_zero]
  | edwards d =>
    rw [addWithThreshold, handedOn?]
    dsimp only
    rw [Edwards.sum, Point.upper_beq_zero]
    cases hsum : Sum.closer? (.edwards d) (Edwards.dedicatedSum? p q)
        (Edwards.unifiedSum? d p q) with
    | none =>
      rw [Option.getD_none, Edwards.absorbing]
      split <;> simp
    | some r =>
      have hproper : (r == Point.zero) = false := by
        obtain hfirst | hsecond := Sum.closer?_eq_some hsum
        · exact Point.proper?_ne_zero hfirst
        · exact Point.proper?_ne_zero hsecond
      simp [hproper]

theorem handedOn?_eq_some {α : Type} [Scalar α] {equation : Equation α} {p q r : Point α}
    (h : equation.handedOn? p q = some r) : r = p ∨ r = q := by
  cases equation with
  | weierstrass a b =>
    rw [handedOn?] at h
    split at h
    · exact .inr (Option.some.inj h).symm
    · split at h
      · exact .inl (Option.some.inj h).symm
      · cases h
  | edwards d =>
    rw [handedOn?] at h
    split at h
    · cases h
    · split at h
      · exact .inl (Option.some.inj h).symm
      · exact .inr (Option.some.inj h).symm

/-! ### Projections -/

/-- A projection is the unit representative of its last iterate. -/
theorem project_point {α : Type} [Scalar α] (equation : Equation α) (tolerance : α) {p : Point α}
    (hfinite : p.isFinite = true) (hproper : (p == Point.zero) = false) :
    let projection := (equation.project tolerance p).value
    projection.point = (equation.newtonStep^[projection.iterations] p).normalize := by
  have hproject : (equation.project tolerance p).value =
      equation.projectWithin projectionLimit tolerance p := rfl
  have hguard : ¬ (!p.isFinite || p == Point.zero) = true := by
    rw [hfinite, hproper]
    exact Bool.false_ne_true
  obtain ⟨k, -, hnewton⟩ := newton_stopsAt equation tolerance projectionLimit 0 p
  have hiterations : (equation.newton tolerance projectionLimit 0 p).iterations = k := by
    rw [hnewton]
    exact Nat.zero_add k
  rw [hproject, projectWithin, if_neg hguard]
  dsimp only
  rw [hiterations, hnewton]

/-- When the sum of two triples and the projection of the first are the zero vector. -/
structure ZeroOnlyByOverflow (equation : Equation Float) (tolerance : Float)
    (p q : Point Float) : Prop where
  add_iff : ((equation.add p q).point == Point.zero) = true ↔
    ∃ r, equation.handedOn? p q = some r ∧ Scalar.isFinite r.norm = false
  add_ne_zero : Scalar.isFinite p.norm = true → Scalar.isFinite q.norm = true →
    ((equation.add p q).point == Point.zero) = false
  project_iff : let projection := (equation.project tolerance p).value
    let last := equation.newtonStep^[projection.iterations] p
    (projection.point == Point.zero) = true ↔
      (last == Point.zero) = true ∨ last.isFinite = true ∧ Scalar.isFinite last.norm = false

/-- A sum or projection of finite triples that are not zero is zero only where a length overflows:
that of a summand which is handed on, or that of the last iterate. -/
theorem zeroOnlyByOverflow_of_finite (equation : Equation Float) (tolerance : Float)
    {p q : Point Float}
    (hp : p.isFinite = true) (hpzero : (p == Point.zero) = false)
    (hq : q.isFinite = true) (hqzero : (q == Point.zero) = false) :
    equation.ZeroOnlyByOverflow tolerance p q := by
  have hsummand : ∀ r, equation.handedOn? p q = some r →
      ((r.normalize == Point.zero) = true ↔ Scalar.isFinite r.norm = false) := by
    intro r hr
    rw [Point.normalize_beq_zero_iff]
    obtain rfl | rfl := handedOn?_eq_some hr
    · simp [hp, hpzero]
    · simp [hq, hqzero]
  have hadd : ((equation.add p q).point == Point.zero) = true ↔
      ∃ r, equation.handedOn? p q = some r ∧ Scalar.isFinite r.norm = false := by
    rw [add, add_beq_zero_iff]
    exact exists_congr fun r => and_congr_right (hsummand r)
  refine ⟨hadd, ?_, ?_⟩
  · intro hpnorm hqnorm
    rw [← Bool.not_eq_true, hadd]
    rintro ⟨r, hr, hoverflow⟩
    obtain rfl | rfl := handedOn?_eq_some hr
    · rw [hpnorm] at hoverflow
      cases hoverflow
    · rw [hqnorm] at hoverflow
      cases hoverflow
  · dsimp only
    rw [equation.project_point tolerance hp hpzero]
    exact Point.normalize_beq_zero_iff _

/-- Two points of `y² = x³ + 1` in doubles, one of them not brought to unit length. -/
theorem zeroOnlyByOverflow_zero_one :
    let p : Point Float := ⟨2.0, 3.0, 1.0⟩
    let q : Point Float := ⟨-1e100, 0.0, 1e100⟩
    p.isFinite = true ∧ (p == Point.zero) = false ∧ q.isFinite = true ∧
      (q == Point.zero) = false ∧
      (Equation.weierstrass 0.0 1.0).ZeroOnlyByOverflow (0.001 : Float) p q := by
  intro p q
  have hp : p.isFinite = true := by decide +kernel
  have hpzero : (p == Point.zero) = false := by decide +kernel
  have hq : q.isFinite = true := by decide +kernel
  have hqzero : (q == Point.zero) = false := by decide +kernel
  exact ⟨hp, hpzero, hq, hqzero, zeroOnlyByOverflow_of_finite _ _ hp hpzero hq hqzero⟩

/-- The length of `(0, 10²⁰⁰, 0)` overflows, and its unit representative becomes the zero vector:
the sum of two neutral elements is no point, nor is the projection of one. -/
theorem zero_of_long_neutral :
    ∃ curve : Curve Float, Curve.ofEquation (.weierstrass (-1.0) 1.0) = .ok curve ∧
      let long : Point Float := ⟨0.0, 1e200, 0.0⟩
      let projection := (curve.equation.project 0.001 long).value
      long.isFinite = true ∧ (long == Point.zero) = false ∧
        ((curve.equation.add Weierstrass.neutral long).point == Point.zero) = true ∧
        projection.converged = true ∧ (projection.point == Point.zero) = true := by
  obtain ⟨curve, haccepted, hcheck⟩ := Curve.exists_accepted_of_any
    (.weierstrass (-1.0 : Float) 1.0)
    (fun curve =>
      let long : Point Float := ⟨0.0, 1e200, 0.0⟩
      let projection := (curve.equation.project 0.001 long).value
      long.isFinite && !(long == Point.zero) &&
        ((curve.equation.add Weierstrass.neutral long).point == Point.zero) &&
        projection.converged && (projection.point == Point.zero))
    (by decide +kernel)
  simp only [Bool.and_eq_true, Bool.not_eq_true'] at hcheck
  obtain ⟨⟨⟨⟨hfinite, hproper⟩, hsum⟩, hconverged⟩, hzero⟩ := hcheck
  exact ⟨curve, haccepted, hfinite, hproper, hsum, hconverged, hzero⟩

end Equation

end EllipticPlot
