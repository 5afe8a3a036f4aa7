import EllipticPlot.GroupLaw
import EllipticPlot.Proofs.Candidates
import EllipticPlot.Proofs.Order

/-!
# The order of the charts

The threshold of an addition decides which chart is tried first, and with it which candidates are
looked at. It does not decide how good the sum is: as long as the residuals that are looked at are
numbers, a sum off the curve is as close to it as any candidate, for every threshold. The summands
need not lie on the curve.
-/

namespace EllipticPlot

open Scalar (IsNumber LawfulComparison)

variable {α : Type} [Scalar α]

/-- The size of the residual, by which candidates are compared. -/
def Equation.offset (equation : Equation α) (p : Point α) : α := Scalar.abs (equation.residual p)

namespace Sum

/-- The candidates that a choice looks at: the second one only if the first is not accepted. -/
inductive Consulted (equation : Equation α) (first second : Option (Point α)) :
    Point α → Prop
  | first {r : Point α} : first = some r → Consulted equation first second r
  | second {s : Point α} : second = some s →
      (∀ r, first = some r → ¬ equation.offset r < acceptedResidual) →
      Consulted equation first second s

variable {equation : Equation α} {first second : Option (Point α)} {r c : Point α}

theorem Consulted.mem (h : Consulted equation first second c) :
    first = some c ∨ second = some c := by
  cases h with
  | first h => exact .inl h
  | second h _ => exact .inr h

theorem closer?_of_beyond {s : Point α} (h : ¬ equation.offset r < acceptedResidual) :
    closer? equation (some r) (some s) =
      if equation.offset s < equation.offset r then some s else some r := if_neg h

theorem closer?_alone : closer? equation (some r) none = some r := by
  rw [closer?]
  split <;> rfl

theorem not_accepted_first (h : closer? equation first second = some r)
    (hoff : ¬ equation.offset r < acceptedResidual) :
    ∀ f, first = some f → ¬ equation.offset f < acceptedResidual := by
  rintro f rfl haccepted
  rw [closer?_of_accepted haccepted] at h
  obtain rfl := Option.some.inj h
  exact hoff haccepted

/-- A choice off the curve has looked at every candidate. -/
theorem consulted_of_mem (h : closer? equation first second = some r)
    (hoff : ¬ equation.offset r < acceptedResidual) (hc : first = some c ∨ second = some c) :
    Consulted equation first second c := by
  obtain hfirst | hsecond := hc
  · exact .first hfirst
  · exact .second hsecond (not_accepted_first h hoff)

section

variable [LawfulComparison α]

theorem offset_le_of_mem (h : closer? equation first second = some r)
    (hoff : ¬ equation.offset r < acceptedResidual)
    (hnumber : ∀ c, first = some c ∨ second = some c → IsNumber (equation.offset c))
    (hc : first = some c ∨ second = some c) : equation.offset r ≤ equation.offset c := by
  cases first with
  | none =>
    -- the second candidate is taken without a look at its residual
    obtain hnone | hsecond := hc
    · cases hnone
    · obtain rfl := Option.some.inj (h.symm.trans hsecond)
      exact (hnumber r (.inr hsecond)).le_self
  | some f =>
    have hf := not_accepted_first h hoff f rfl
    cases second with
    | none =>
      rw [closer?_alone] at h
      obtain rfl := Option.some.inj (h.symm.trans (hc.resolve_right nofun))
      exact (hnumber r hc).le_self
    | some s =>
      rw [closer?_of_beyond hf] at h
      split at h
      · next hless =>
        obtain rfl := Option.some.inj h
        obtain hfirst | hsecond := hc
        · obtain rfl := Option.some.inj hfirst
          exact LawfulComparison.le_of_lt hless
        · obtain rfl := Option.some.inj hsecond
          exact (hnumber s (.inr rfl)).le_self
      · next hless =>
        obtain rfl := Option.some.inj h
        obtain hfirst | hsecond := hc
        · obtain rfl := Option.some.inj hfirst
          exact (hnumber f (.inl rfl)).le_self
        · obtain rfl := Option.some.inj hsecond
          exact LawfulComparison.le_of_not_lt (hnumber f (.inl rfl)) (hnumber s (.inr rfl)) hless

/-- In the other order the choice may be another, but it is no better and no worse. -/
theorem closer?_swap (h : closer? equation first second = some r)
    (hoff : acceptedResidual ≤ equation.offset r)
    (hnumber : ∀ c, Consulted equation first second c → IsNumber (equation.offset c)) :
    ∃ s, closer? equation second first = some s ∧
      (equation.offset s == equation.offset r) = true := by
  have hr : ¬ equation.offset r < acceptedResidual := LawfulComparison.not_lt_of_le hoff
  have hall : ∀ c, first = some c ∨ second = some c → IsNumber (equation.offset c) :=
    fun c hc => hnumber c (consulted_of_mem h hr hc)
  have hmem := closer?_eq_some h
  cases hother : closer? equation second first with
  | none =>
    obtain ⟨rfl, rfl⟩ := closer?_eq_none hother
    cases h
  | some s =>
    have hle := offset_le_of_mem h hr hall (closer?_eq_some hother).symm
    have hs : ¬ equation.offset s < acceptedResidual := by
      intro haccepted
      exact LawfulComparison.not_lt_of_le hle
        (LawfulComparison.toLawfulOrder.lt_of_lt_of_le haccepted hoff)
    have hge := offset_le_of_mem hother hs (fun c hc => hall c hc.symm) hmem.symm
    exact ⟨s, rfl, LawfulComparison.beq_of_le_of_le hge hle⟩

end

end Sum

namespace Weierstrass

variable {a b threshold threshold' : α} {p q c : Point α}

/-- The candidates for the sum of `p` and `q` that are looked at with a threshold. -/
def Consulted (a b threshold : α) (p q : Point α) (c : Point α) : Prop :=
  let n := line a b p q
  let chart := preferredChart threshold n
  isNeutral p = false ∧ isNeutral q = false ∧
    Sum.Consulted (.weierstrass a b) (candidate? a b p q n chart)
      (candidate? a b p q n chart.other) c

theorem Chart.eq_or_other (chart preferred : Chart) :
    chart = preferred ∨ chart = preferred.other := by
  cases chart <;> cases preferred
  · exact .inl rfl
  · exact .inr rfl
  · exact .inr rfl
  · exact .inl rfl

theorem Chart.other_other (chart : Chart) : chart.other.other = chart := by
  cases chart <;> rfl

theorem Consulted.exists_chart (h : Consulted a b threshold p q c) :
    ∃ chart, candidate? a b p q (line a b p q) chart = some c := by
  obtain hfirst | hsecond := h.2.2.mem
  · exact ⟨_, hfirst⟩
  · exact ⟨_, hsecond⟩

/-- What the charts give for the sum, the preferred one first. -/
def chosen? (a b threshold : α) (p q : Point α) : Option (Point α) :=
  let n := line a b p q
  let chart := preferredChart threshold n
  Sum.closer? (.weierstrass a b) (candidate? a b p q n chart) (candidate? a b p q n chart.other)

theorem point_sum (hp : isNeutral p = false) (hq : isNeutral q = false) :
    (sum a b threshold p q).point = (chosen? a b threshold p q).getD neutral := by
  simp only [sum, hp, hq, sumOnLine, chosen?, Bool.false_eq_true, if_false]

theorem point_sum_of_neutral (h : isNeutral p = true ∨ isNeutral q = true) :
    (sum a b threshold p q).point = (sum a b threshold' p q).point := by
  obtain hp | hq := h
  · simp only [sum, hp, if_true]
  · simp only [sum, hq, if_true]

theorem chosen?_eq_none (h : chosen? a b threshold p q = none) (chart : Chart) :
    candidate? a b p q (line a b p q) chart = none := by
  obtain ⟨hfirst, hsecond⟩ := Sum.closer?_eq_none h
  obtain rfl | rfl := chart.eq_or_other (preferredChart threshold (line a b p q))
  · exact hfirst
  · exact hsecond

variable [LawfulComparison α]

theorem chosen?_best {r : Point α} (hp : isNeutral p = false) (hq : isNeutral q = false)
    (hnumber : ∀ c, Consulted a b threshold p q c →
      IsNumber ((Equation.weierstrass a b).offset c))
    (h : chosen? a b threshold p q = some r)
    (hoff : ¬ (Equation.weierstrass a b).offset r < Sum.acceptedResidual) {chart : Chart}
    (hc : candidate? a b p q (line a b p q) chart = some c) :
    (Equation.weierstrass a b).offset r ≤ (Equation.weierstrass a b).offset c := by
  refine Sum.offset_le_of_mem h hoff ?_ ?_
  · exact fun c hc => hnumber c ⟨hp, hq, Sum.consulted_of_mem h hoff hc⟩
  · obtain rfl | rfl := chart.eq_or_other (preferredChart threshold (line a b p q))
    · exact .inl hc
    · exact .inr hc

theorem chosen?_threshold {r : Point α} (hp : isNeutral p = false) (hq : isNeutral q = false)
    (hnumber : ∀ c, Consulted a b threshold p q c →
      IsNumber ((Equation.weierstrass a b).offset c))
    (h : chosen? a b threshold p q = some r)
    (hoff : Sum.acceptedResidual ≤ (Equation.weierstrass a b).offset r) :
    ∃ s, chosen? a b threshold' p q = some s ∧
      ((Equation.weierstrass a b).offset s == (Equation.weierstrass a b).offset r) = true := by
  obtain hsame | hother := (preferredChart threshold' (line a b p q)).eq_or_other
    (preferredChart threshold (line a b p q))
  · refine ⟨r, ?_, LawfulComparison.isNumber_of_le hoff⟩
    rw [← h, chosen?, chosen?, hsame]
  · obtain ⟨s, hs, heq⟩ := Sum.closer?_swap h hoff fun c hc => hnumber c ⟨hp, hq, hc⟩
    refine ⟨s, ?_, heq⟩
    rw [← hs, chosen?, hother, Chart.other_other]

/-- A sum off the curve is as far from it with every threshold, and no candidate is closer. -/
theorem addWithThreshold_accuracy (a b threshold threshold' : α) (p q : Point α)
    (hnumber : ∀ c, Consulted a b threshold p q c →
      IsNumber ((Equation.weierstrass a b).offset c)) :
    let equation := Equation.weierstrass a b
    let r := (equation.addWithThreshold threshold p q).point
    let r' := (equation.addWithThreshold threshold' p q).point
    (Sum.acceptedResidual ≤ equation.offset r →
        (equation.offset r' == equation.offset r) = true) ∧
      (isNeutral p = false → isNeutral q = false →
        ∀ chart c, candidate? a b p q (line a b p q) chart = some c →
          equation.offset r < Sum.acceptedResidual ∨
            equation.offset r ≤ equation.offset c) := by
  intro equation r r'
  constructor
  · intro hoff
    have hequal : r' = r → (equation.offset r' == equation.offset r) = true := by
      intro h
      rw [h]
      exact LawfulComparison.isNumber_of_le hoff
    by_cases hneutral : isNeutral p = true ∨ isNeutral q = true
    · exact hequal (point_sum_of_neutral hneutral)
    · simp only [not_or, Bool.not_eq_true] at hneutral
      obtain ⟨hp, hq⟩ := hneutral
      have hr : r = (chosen? a b threshold p q).getD neutral := point_sum hp hq
      have hr' : r' = (chosen? a b threshold' p q).getD neutral := point_sum hp hq
      cases hchosen : chosen? a b threshold p q with
      | none =>
        have hnone : chosen? a b threshold' p q = none := by
          rw [chosen?, chosen?_eq_none hchosen, chosen?_eq_none hchosen]
          rfl
        apply hequal
        rw [hr, hr', hchosen, hnone]
      | some s =>
        rw [hchosen, Option.getD_some] at hr
        rw [hr] at hoff ⊢
        obtain ⟨s', hs', heq⟩ := chosen?_threshold hp hq hnumber hchosen hoff
        rw [hr', hs', Option.getD_some]
        exact heq
  · intro hp hq chart c hc
    have hr : r = (chosen? a b threshold p q).getD neutral := point_sum hp hq
    cases hchosen : chosen? a b threshold p q with
    | none => exact nomatch (chosen?_eq_none hchosen chart).symm.trans hc
    | some s =>
      rw [hchosen, Option.getD_some] at hr
      rw [hr]
      by_cases haccepted : equation.offset s < Sum.acceptedResidual
      · exact .inl haccepted
      · exact .inr (chosen?_best hp hq hnumber hchosen haccepted hc)

/-- Two points off the curve `y² = x³ + 1` in doubles, with either chart first. -/
theorem addWithThreshold_accuracy_off_curve :
    let equation : Equation Float := .weierstrass 0.0 1.0
    let p : Point Float := ⟨1.0, 1.0, 1.0⟩
    let q : Point Float := ⟨2.0, 2.0, 1.0⟩
    let r := (equation.addWithThreshold 0.1 p q).point
    let r' := (equation.addWithThreshold 10.0 p q).point
    (∀ c, Consulted 0.0 1.0 0.1 p q c → IsNumber (equation.offset c)) ∧
      isNeutral p = false ∧ isNeutral q = false ∧ Sum.acceptedResidual ≤ equation.offset r ∧
      (equation.offset r' == equation.offset r) = true ∧
      ∀ chart c, candidate? 0.0 1.0 p q (line 0.0 1.0 p q) chart = some c →
        equation.offset r < Sum.acceptedResidual ∨ equation.offset r ≤ equation.offset c := by
  intro equation p q r r'
  have hcharts : ∀ chart, (candidate? 0.0 1.0 p q (line 0.0 1.0 p q) chart).all
      (fun c => equation.offset c == equation.offset c) = true := by
    intro chart
    cases chart <;> decide +kernel
  have hnumber : ∀ c, Consulted 0.0 1.0 0.1 p q c → IsNumber (equation.offset c) := by
    intro c hc
    obtain ⟨chart, hchart⟩ := hc.exists_chart
    have hall := hcharts chart
    rw [hchart] at hall
    exact hall
  have hp : isNeutral p = false := by decide +kernel
  have hq : isNeutral q = false := by decide +kernel
  have hoff : Sum.acceptedResidual ≤ equation.offset r := by decide +kernel
  obtain ⟨hequal, hbest⟩ := addWithThreshold_accuracy 0.0 1.0 0.1 10.0 p q hnumber
  exact ⟨hnumber, hp, hq, hoff, hequal hoff, hbest hp hq⟩

end Weierstrass

end EllipticPlot
