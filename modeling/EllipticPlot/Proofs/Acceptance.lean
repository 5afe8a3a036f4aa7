import EllipticPlot.Curve

/-!
# Accepted curves

What is known of a curve because it was not refused, for any arithmetic.
-/

namespace EllipticPlot

/-! ### Roots -/

namespace DepressedCubic

variable {α : Type} [Scalar α] {c : DepressedCubic α} {xs : List α}

theorem isFinite_of_roots (h : c.roots = .ok xs) :
    Scalar.isFinite c.linear = true ∧ Scalar.isFinite c.constant = true := by
  rw [roots] at h
  split at h
  · cases h
  · next hcoefficients =>
    simpa only [Bool.or_eq_true, Bool.not_eq_true', not_or, Bool.not_eq_false] using hcoefficients

/-- The three ways in which a cubic is solved. -/
theorem roots_cases (h : c.roots = .ok xs) :
    (c.delta == 0.0) = true ∧ xs = c.repeatedRoots ∨
      0.0 < c.delta ∧ xs = [c.singleRoot] ∨
      ¬ 0.0 < c.delta ∧ c.threeRoots.all Scalar.isFinite = true ∧
        xs = ascending c.threeRoots := by
  rw [roots] at h
  split at h
  · cases h
  · split at h
    · next hzero => exact .inl ⟨hzero, (Except.ok.inj h).symm⟩
    · split at h
      · next hpos => exact .inr (.inl ⟨hpos, (Except.ok.inj h).symm⟩)
      · next hpos =>
        split at h
        · cases h
        · split at h
          · next hall => exact .inr (.inr ⟨hpos, hall, (Except.ok.inj h).symm⟩)
          · cases h

theorem eq_repeatedRoots (h : c.roots = .ok xs) (hzero : (c.delta == 0.0) = true) :
    xs = c.repeatedRoots := by
  rw [roots] at h
  split at h
  · cases h
  · exact (Except.ok.inj h).symm

end DepressedCubic

theorem mem_insertAscending {α : Type} [Scalar α] {x y : α} {ys : List α} :
    x ∈ DepressedCubic.insertAscending y ys ↔ x = y ∨ x ∈ ys := by
  induction ys with
  | nil => simp [DepressedCubic.insertAscending]
  | cons z zs ih =>
    rw [DepressedCubic.insertAscending]
    split
    · exact List.mem_cons
    · rw [List.mem_cons, ih, List.mem_cons, or_left_comm]

theorem mem_ascending {α : Type} [Scalar α] {x : α} {xs : List α} :
    x ∈ DepressedCubic.ascending xs ↔ x ∈ xs := by
  induction xs with
  | nil => rfl
  | cons y ys ih =>
    rw [DepressedCubic.ascending, List.foldr_cons, mem_insertAscending, List.mem_cons]
    exact or_congr_right ih

theorem length_insertAscending {α : Type} [Scalar α] (x : α) (ys : List α) :
    (DepressedCubic.insertAscending x ys).length = ys.length + 1 := by
  induction ys with
  | nil => rfl
  | cons y ys ih =>
    rw [DepressedCubic.insertAscending]
    split
    · rfl
    · rw [List.length_cons, ih, List.length_cons]

theorem length_ascending {α : Type} [Scalar α] (xs : List α) :
    (DepressedCubic.ascending xs).length = xs.length := by
  induction xs with
  | nil => rfl
  | cons x xs ih =>
    rw [DepressedCubic.ascending, List.foldr_cons, length_insertAscending, List.length_cons]
    exact congrArg (· + 1) ih

/-- The sign of `delta` tells how many roots there are. -/
theorem DepressedCubic.length_roots {α : Type} [Scalar α] {c : DepressedCubic α} {xs : List α}
    (h : c.roots = .ok xs) :
    xs.length = if c.delta == 0.0 then (if c.constant == 0.0 then 1 else 2)
      else if 0.0 < c.delta then 1 else 3 := by
  rw [roots] at h
  split at h
  · cases h
  · split at h
    · next hzero =>
      obtain rfl := Except.ok.inj h
      rw [if_pos hzero, repeatedRoots]
      split
      · rfl
      · exact length_ascending _
    · next hzero =>
      rw [if_neg hzero]
      split at h
      · next hpos =>
        obtain rfl := Except.ok.inj h
        rw [if_pos hpos]
        rfl
      · next hpos =>
        rw [if_neg hpos]
        split at h
        · cases h
        · split at h
          · obtain rfl := Except.ok.inj h
            exact length_ascending _
          · cases h

/-! ### Seeds -/

namespace Curve

variable {α : Type} [Scalar α] {equation : Equation α} {curve : Curve α}

theorem equation_of_accepted (h : ofEquation equation = .ok curve) : curve.equation = equation := by
  rw [ofEquation] at h
  split at h
  · exact nomatch h
  · split at h
    · exact nomatch h
    · split at h
      · exact nomatch h
      · rw [← Except.ok.inj h]

theorem isFinite_of_accepted (h : ofEquation equation = .ok curve) : equation.isFinite = true := by
  rw [ofEquation] at h
  split at h
  · exact nomatch h
  · next hfinite => simpa using hfinite

theorem seeds_of_accepted (h : ofEquation equation = .ok curve) :
    seedsOf equation = .ok curve.seeds ∧ curve.seeds.any (isSingularAt equation) = false := by
  rw [ofEquation] at h
  split at h
  · exact nomatch h
  · split at h
    · exact nomatch h
    · next seeds hseeds =>
      split at h
      · exact nomatch h
      · next hsmooth =>
        obtain rfl := Except.ok.inj h
        exact ⟨hseeds, eq_false_of_ne_true hsmooth⟩

/-- A check that passes on the result of an equation shows that the equation is accepted. -/
theorem exists_accepted_of_any (equation : Equation α) (check : Curve α → Bool)
    (h : (ofEquation equation).toOption.any check = true) :
    ∃ curve, ofEquation equation = .ok curve ∧ check curve = true := by
  cases hresult : ofEquation equation with
  | error e => simp [hresult, Except.toOption] at h
  | ok curve =>
    rw [hresult] at h
    exact ⟨curve, rfl, h⟩

/-- The seeds of a Weierstrass curve are at the roots of its cubic. -/
theorem exists_roots_of_accepted {a b : α} (h : ofEquation (.weierstrass a b) = .ok curve) :
    ∃ xs, (DepressedCubic.mk a b).roots = .ok xs ∧ curve.seeds = xs.map fun x => ⟨x, 0.0, 1.0⟩ := by
  obtain ⟨hseeds, -⟩ := seeds_of_accepted h
  rw [seedsOf] at hseeds
  cases hroots : (DepressedCubic.mk a b).roots with
  | error e => simp [hroots, Except.map] at hseeds
  | ok xs =>
    simp only [hroots, Except.map, Except.ok.injEq] at hseeds
    exact ⟨xs, rfl, hseeds.symm⟩

theorem seeds_edwards {d : α} (h : ofEquation (.edwards d) = .ok curve) :
    curve.seeds = [⟨-1.0, 0.0, 1.0⟩, ⟨1.0, 0.0, 1.0⟩] ∨
      curve.seeds = [⟨-1.0, 0.0, 1.0⟩, ⟨1.0, 0.0, 1.0⟩] ++ [⟨0.0, -1.0, 1.0⟩, ⟨0.0, 1.0, 1.0⟩] := by
  obtain ⟨hseeds, -⟩ := seeds_of_accepted h
  simp only [seedsOf, Except.ok.injEq] at hseeds
  rw [← hseeds]
  split
  · exact .inr rfl
  · exact .inl rfl

theorem cases_of_mem_seeds_edwards {d : α} (h : ofEquation (.edwards d) = .ok curve)
    {seed : Point α} (hmem : seed ∈ curve.seeds) :
    seed = ⟨-1.0, 0.0, 1.0⟩ ∨ seed = ⟨1.0, 0.0, 1.0⟩ ∨ seed = ⟨0.0, -1.0, 1.0⟩ ∨
      seed = ⟨0.0, 1.0, 1.0⟩ := by
  rcases seeds_edwards h with hseeds | hseeds
  · rw [hseeds, List.mem_cons, List.mem_singleton] at hmem
    exact hmem.imp_right .inl
  · rw [hseeds] at hmem
    simpa using hmem

/-- A seed lies on the axis `y = 0`, or that of an Edwards curve on `x = 0`. -/
theorem axis_of_mem_seeds (h : ofEquation equation = .ok curve) {seed : Point α}
    (hmem : seed ∈ curve.seeds) :
    seed.y = 0.0 ∨ (∃ d, equation = .edwards d) ∧ seed.x = 0.0 := by
  cases equation with
  | weierstrass a b =>
    obtain ⟨xs, -, hseeds⟩ := exists_roots_of_accepted h
    rw [hseeds] at hmem
    obtain ⟨x, -, rfl⟩ := List.mem_map.mp hmem
    exact .inl rfl
  | edwards d =>
    rcases cases_of_mem_seeds_edwards h hmem with rfl | rfl | rfl | rfl
    · exact .inl rfl
    · exact .inl rfl
    · exact .inr ⟨⟨d, rfl⟩, rfl⟩
    · exact .inr ⟨⟨d, rfl⟩, rfl⟩

/-- The seeds lie in the plane `z = 1`. -/
theorem z_of_mem_seeds (h : ofEquation equation = .ok curve) {seed : Point α}
    (hmem : seed ∈ curve.seeds) : seed.z = 1.0 := by
  cases equation with
  | weierstrass a b =>
    obtain ⟨xs, -, hseeds⟩ := exists_roots_of_accepted h
    rw [hseeds] at hmem
    obtain ⟨x, -, rfl⟩ := List.mem_map.mp hmem
    rfl
  | edwards d =>
    rcases cases_of_mem_seeds_edwards h hmem with rfl | rfl | rfl | rfl <;> rfl

end Curve

end EllipticPlot
