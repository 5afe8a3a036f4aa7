import EllipticPlot.Decimal.Layout
import EllipticPlot.Proofs.ShortestDecimal

/-!
# The text of a number

Where the point goes and how many zeros are filled in, the text of a decimal stands for the decimal.
So positive finite doubles are written differently, each with nothing but digits and a point.
-/

namespace EllipticPlot

/-! ### Texts with a point -/

/-- A character of a written number. -/
def isNumeral (c : Char) : Bool := c.isDigit || c == '.'

/-- The number that digits with at most one point stand for. -/
def readDecimal (text : List Char) : ℚ :=
  let whole := text.takeWhile (· != '.')
  let fraction := (text.dropWhile (· != '.')).tail
  Nat.ofDigitChars 10 (whole ++ fraction) 0 * 10 ^ (-fraction.length : ℤ)

section Digits

variable {digits : List Char} (h : ∀ c ∈ digits, c.isDigit = true)

include h

theorem ne_point_of_isDigit : ∀ c ∈ digits, (c != '.') = true := by
  intro c hc
  rw [bne_iff_ne]
  rintro rfl
  exact absurd (h _ hc) (by decide)

theorem readDecimal_digits : readDecimal digits = Nat.ofDigitChars 10 digits 0 := by
  have hpoint := ne_point_of_isDigit h
  rw [readDecimal, List.takeWhile_eq_self_iff.mpr hpoint, List.dropWhile_eq_nil_iff.mpr hpoint]
  simp

theorem readDecimal_point (fraction : List Char) :
    readDecimal (digits ++ '.' :: fraction) =
      Nat.ofDigitChars 10 (digits ++ fraction) 0 * 10 ^ (-fraction.length : ℤ) := by
  have hpoint := ne_point_of_isDigit h
  rw [readDecimal, List.takeWhile_append_of_pos hpoint, List.dropWhile_append_of_pos hpoint]
  simp

end Digits

namespace Decimal

/-! ### Layout -/

theorem isDigit_zero : ∀ c ∈ ['0'], c.isDigit = true := by simp

theorem isDigit_append_zeros {digits : List Char} (h : ∀ c ∈ digits, c.isDigit = true) (n : ℕ) :
    ∀ c ∈ digits ++ List.replicate n '0', c.isDigit = true := by
  intro c hc
  obtain hmem | hmem := List.mem_append.mp hc
  · exact h c hmem
  · rw [List.eq_of_mem_replicate hmem]
    rfl

/-- Wherever the point is set, and whatever zeros that takes, the digits keep their value. -/
theorem readDecimal_pointAfter {digits : List Char} (h : ∀ c ∈ digits, c.isDigit = true)
    (before : ℤ) :
    readDecimal (pointAfter before digits) =
      Nat.ofDigitChars 10 digits 0 * 10 ^ (before - digits.length) := by
  rw [pointAfter]
  split
  · next hbefore =>
    have hread := readDecimal_point isDigit_zero (List.replicate (-before).toNat '0' ++ digits)
    have hvalue : Nat.ofDigitChars 10
        (['0'] ++ (List.replicate (-before).toNat '0' ++ digits)) 0 =
        Nat.ofDigitChars 10 digits 0 := by
      rw [Nat.ofDigitChars_append, Nat.ofDigitChars_append, ← List.replicate_one,
        Nat.ofDigitChars_replicate_zero, Nat.ofDigitChars_replicate_zero, mul_zero, mul_zero]
    rw [hvalue, List.length_append, List.length_replicate] at hread
    refine hread.trans ?_
    congr 2
    omega
  · split
    · next hbefore hlength =>
      rw [readDecimal_digits (isDigit_append_zeros h _), Nat.ofDigitChars_append,
        Nat.ofDigitChars_replicate_zero, Nat.cast_mul, mul_comm, Nat.cast_pow, Nat.cast_ofNat,
        ← zpow_natCast]
      congr 2
      omega
    · next hbefore hlength =>
      rw [readDecimal_point fun c hc => h c (List.mem_of_mem_take hc), List.take_append_drop,
        List.length_drop]
      congr 2
      omega

theorem isDigit_digits (d : Decimal) : ∀ c ∈ d.digits, c.isDigit = true := fun _ hc =>
  Nat.isDigit_of_mem_toDigits (by norm_num) le_rfl hc

theorem readDecimal_positional (d : Decimal) : readDecimal d.positional.toList = d.toRat := by
  rw [positional, toRat]
  split
  · next hzero =>
    rw [hzero, Nat.cast_zero, zero_mul]
    exact (readDecimal_digits isDigit_zero).trans Nat.cast_zero
  · rw [String.toList_ofList, readDecimal_pointAfter d.isDigit_digits, digits,
      Nat.ofDigitChars_ten_toDigits]
    congr 2
    omega

theorem isNumeral_pointAfter {digits : List Char} (h : ∀ c ∈ digits, c.isDigit = true)
    (before : ℤ) : ∀ c ∈ pointAfter before digits, isNumeral c = true := by
  have hdigit : ∀ {c : Char}, c.isDigit = true → isNumeral c = true := by
    intro c hc
    rw [isNumeral, hc, Bool.true_or]
  intro c hc
  rw [pointAfter] at hc
  split at hc
  · obtain hzeros | hmem := List.mem_append.mp hc
    · obtain rfl | rfl | ⟨-, rfl⟩ := by
        simpa only [List.mem_cons, List.mem_replicate] using hzeros
      · rfl
      · rfl
      · rfl
    · exact hdigit (h c hmem)
  · split at hc
    · exact hdigit (isDigit_append_zeros h _ c hc)
    · obtain hmem | hmem := List.mem_append.mp hc
      · exact hdigit (h c (List.mem_of_mem_take hmem))
      · obtain rfl | hmem := List.mem_cons.mp hmem
        · rfl
        · exact hdigit (h c (List.mem_of_mem_drop hmem))

theorem pointAfter_ne_nil {digits : List Char} (h : digits ≠ []) (before : ℤ) :
    pointAfter before digits ≠ [] := by
  rw [pointAfter]
  split
  · exact nofun
  · split <;> simp [h]

theorem isNumeral_positional (d : Decimal) : ∀ c ∈ d.positional.toList, isNumeral c = true := by
  rw [positional]
  split
  · simp [isNumeral]
  · rw [String.toList_ofList]
    exact isNumeral_pointAfter d.isDigit_digits _

theorem positional_ne_empty (d : Decimal) : d.positional ≠ "" := by
  rw [positional]
  split
  · decide
  · rw [ne_eq, ← String.toList_inj, String.toList_ofList]
    exact pointAfter_ne_nil Nat.toDigits_ne_nil _

end Decimal

/-! ### Doubles -/

namespace Binary64

open Float.Model (UnpackedFloat)
open Float.Model.UnpackedFloat

/-- A magnitude is written as its shortest decimal, without a sign. -/
theorem IsMagnitude.exists_positional {x : Float} (h : IsMagnitude x) :
    ∃ m e hm, value x = .finite .positive m e hm ∧
      numberText.positional x = (Decimal.shortest m e).positional := by
  have hfinite : (value x).isFinite = true := h.finite
  have hnumber := (signs_of_pos h.pos).2.2
  cases hx : value x with
  | zero s => exact absurd hx ((pos_iff.mp h.pos).not_zero s)
  | finite s m e hm =>
    obtain rfl : s = .positive := by
      have hpos := isPositive_of_pos h.pos
      rw [hx] at hpos
      cases hpos
      rfl
    have hmagnitude : magnitude? x = some (m, e) := by
      rw [value] at hx
      rw [magnitude?, hx]
    refine ⟨m, e, hm, rfl, ?_⟩
    change text Decimal.positional x = _
    rw [text, hnumber, signBit_of_finite hx, hmagnitude]
    rfl
  | _ =>
    rw [hx] at hfinite
    cases hfinite

/-- What is needed of the text of a number: magnitudes are written with digits and points, and no
two of them alike. Titles write no other numbers. -/
structure Numerals (write : Float → String) : Prop where
  nonempty : ∀ {x : Float}, IsMagnitude x → write x ≠ ""
  numeral : ∀ {x : Float}, IsMagnitude x → ∀ c ∈ (write x).toList, isNumeral c = true
  injective : ∀ {x y : Float}, IsMagnitude x → IsMagnitude y → write x = write y → x = y

theorem numerals_positional : Numerals numberText.positional where
  nonempty h := by
    obtain ⟨m, e, hm, -, htext⟩ := h.exists_positional
    rw [htext]
    exact Decimal.positional_ne_empty _
  numeral h := by
    obtain ⟨m, e, hm, -, htext⟩ := h.exists_positional
    rw [htext]
    exact Decimal.isNumeral_positional _
  injective h h' heq := by
    obtain ⟨m, e, hm, hx, htext⟩ := h.exists_positional
    obtain ⟨k, f, hk, hy, htext'⟩ := h'.exists_positional
    refine eq_of_shortest_eq hx hy ?_
    rw [← Decimal.readDecimal_positional, ← htext, heq, htext', Decimal.readDecimal_positional]

end Binary64

end EllipticPlot
