import EllipticPlot.Equation.Title
import EllipticPlot.Proofs.Acceptance
import EllipticPlot.Proofs.DecimalText

/-!
# Titles that can be read back

The title of an equation tells its family and its parameters. A term opens with its sign; then come
the digits of its factor, if it has one, and then a letter of its monomial, so what is left out of
one title cannot be made up for in another.
-/

namespace EllipticPlot

open Binary64

/-- Text that cannot continue a number. -/
def EndsNumber (text : List Char) : Prop := text.takeWhile isNumeral = []

/-- The text begins with `c`, which is no part of a number. -/
def Opens (c : Char) (text : String) : Prop :=
  isNumeral c = false ∧ ∃ rest, text.toList = c :: rest

theorem Opens.endsNumber {c : Char} {text : String} (h : Opens c text) (rest : List Char) :
    EndsNumber (text.toList ++ rest) := by
  obtain ⟨hc, r, hr⟩ := h
  rw [EndsNumber, hr, List.cons_append, List.takeWhile_cons_of_neg (Bool.eq_false_iff.mp hc)]

theorem takeWhile_append_of_endsNumber {number rest : List Char}
    (hnumber : ∀ c ∈ number, isNumeral c = true) (hrest : EndsNumber rest) :
    (number ++ rest).takeWhile isNumeral = number := by
  rw [List.takeWhile_append_of_pos hnumber, hrest, List.append_nil]

theorem number_append_inj {m n r s : List Char} (hm : ∀ c ∈ m, isNumeral c = true)
    (hn : ∀ c ∈ n, isNumeral c = true) (hr : EndsNumber r) (hs : EndsNumber s)
    (h : m ++ r = n ++ s) : m = n ∧ r = s := by
  have heq : m = n := by
    rw [← takeWhile_append_of_endsNumber hm hr, h, takeWhile_append_of_endsNumber hn hs]
  exact ⟨heq, List.append_cancel_left (heq ▸ h)⟩

namespace TitleStyle

/-- A style in which neither the sign of a product nor the base of a power is lost. -/
structure Readable (style : TitleStyle) : Prop where
  times : ∀ {rest : List Char}, EndsNumber (style.times.toList ++ rest)
  power : ∀ base exponent : String, ∃ rest : String, style.power base exponent = base ++ rest

theorem readable_plain : plain.Readable where
  times := rfl
  power _ _ := ⟨_, String.append_assoc⟩

theorem readable_markup : markup.Readable where
  times := rfl
  power base exponent :=
    ⟨"<sup>" ++ exponent ++ "</sup>", by simp only [markup, String.append_assoc]⟩

/-! ### Terms -/

/-- The factor of a term and the sign of its product, if they are written at all. -/
def coefficient (style : TitleStyle) (write : Float → String) (magnitude : Float) : List Char :=
  if magnitude == 1.0 then [] else (write magnitude).toList ++ style.times.toList

def operator (factor : Float) : Char := if factor < 0.0 then '-' else '+'

theorem operator_inj {f g : Float} : operator f = operator g ↔ (f < 0.0 ↔ g < 0.0) := by
  rw [operator, operator]
  split <;> split <;> simp_all

variable {style : TitleStyle} {write : Float → String}

theorem term_of_zero {factor : Float} (h : (factor == 0.0) = true) (monomial : String) :
    style.term write factor monomial = "" := if_pos h

theorem toList_term {factor : Float} (h : (factor == 0.0) = false) (monomial : String) :
    (style.term write factor monomial).toList =
      ' ' :: operator factor :: ' ' ::
        (style.coefficient write (Scalar.abs factor) ++ monomial.toList) := by
  rw [term, if_neg (Bool.eq_false_iff.mp h), operator, coefficient]
  dsimp only [product]
  split <;> split <;> simp

/-- Factors that are alike are written alike. -/
theorem term_congr {f g : Float} (h : Scalar.Alike f g) (monomial : String) :
    style.term write f monomial = style.term write g monomial := by
  obtain rfl | ⟨hf, hg⟩ := h
  · rfl
  · rw [term_of_zero hf, term_of_zero hg]

section Reading

variable (hstyle : style.Readable) (hwrite : Numerals write)

include hstyle hwrite

/-- Neither an omitted factor nor a written one reads as another. -/
theorem coefficient_append_inj {x y : Float} (hx : IsMagnitude x) (hy : IsMagnitude y)
    {r s : List Char} (hr : EndsNumber r) (hs : EndsNumber s)
    (h : style.coefficient write x ++ r = style.coefficient write y ++ s) : x = y ∧ r = s := by
  have hnil : ∀ c ∈ ([] : List Char), isNumeral c = true := nofun
  have hne : ∀ {z : Float}, IsMagnitude z → (write z).toList ≠ [] := fun hz => by
    rw [ne_eq, String.toList_eq_nil_iff]
    exact hwrite.nonempty hz
  rw [coefficient, coefficient] at h
  split at h <;> split at h
  case isTrue.isTrue hxone hyone =>
    have hxeq := eq_of_beq hxone (signs_of_pos hx.pos).1
    have hyeq := eq_of_beq hyone (signs_of_pos hy.pos).1
    exact ⟨hxeq.trans hyeq.symm, h⟩
  case isTrue.isFalse =>
    rw [List.append_assoc] at h
    exact absurd (number_append_inj hnil (hwrite.numeral hy) hr hstyle.times h).1.symm (hne hy)
  case isFalse.isTrue =>
    rw [List.append_assoc] at h
    exact absurd (number_append_inj (hwrite.numeral hx) hnil hstyle.times hs h).1 (hne hx)
  case isFalse.isFalse =>
    rw [List.append_assoc, List.append_assoc] at h
    obtain ⟨htext, hrest⟩ :=
      number_append_inj (hwrite.numeral hx) (hwrite.numeral hy) hstyle.times hstyle.times h
    exact ⟨hwrite.injective hx hy (String.toList_inj.mp htext), List.append_cancel_left hrest⟩

theorem term_append_inj {f g : Float} (hf : Scalar.isFinite f = true) (hfne : (f == 0.0) = false)
    (hg : Scalar.isFinite g = true) (hgne : (g == 0.0) = false) {m n : String} {r s : List Char}
    (hm : EndsNumber (m.toList ++ r)) (hn : EndsNumber (n.toList ++ s))
    (h : (style.term write f m).toList ++ r = (style.term write g n).toList ++ s) :
    f = g ∧ m.toList ++ r = n.toList ++ s := by
  rw [toList_term hfne, toList_term hgne, List.cons_append, List.cons_append, List.cons_append,
    List.cons_append, List.cons_append, List.cons_append, List.append_assoc,
    List.append_assoc] at h
  obtain ⟨-, hoperator, -, hrest⟩ := by simpa only [List.cons.injEq] using h
  obtain ⟨habs, htail⟩ := coefficient_append_inj hstyle hwrite (isMagnitude_abs hf hfne)
    (isMagnitude_abs hg hgne) hm hn hrest
  exact ⟨eq_of_abs_eq hf hfne hg hgne habs (operator_inj.mp hoperator), htail⟩

/-- A term is not mistaken for one with another monomial. -/
theorem term_ne_term_append {f g : Float} (hf : Scalar.isFinite f = true)
    (hg : Scalar.isFinite g = true) (hgne : (g == 0.0) = false) {c d : Char} {m n : String}
    (hm : Opens c m) (hn : Opens d n) (hne : c ≠ d) (s : List Char) :
    (style.term write f m).toList ≠ (style.term write g n).toList ++ s := by
  intro h
  cases hzero : f == 0.0 with
  | true =>
    rw [term_of_zero hzero, toList_term hgne] at h
    exact nomatch h
  | false =>
    rw [← List.append_nil (style.term write f m).toList] at h
    have htail := (term_append_inj hstyle hwrite hf hzero hg hgne (hm.endsNumber _)
      (hn.endsNumber _) h).2
    obtain ⟨-, r, hr⟩ := hm
    obtain ⟨-, t, ht⟩ := hn
    rw [hr, ht, List.cons_append, List.cons_append] at htail
    exact hne (List.cons.inj htail).1

theorem alike_of_term_eq {f g : Float} (hf : Scalar.isFinite f = true)
    (hg : Scalar.isFinite g = true) {c : Char} {m : String} (hm : Opens c m)
    (h : style.term write f m = style.term write g m) : Scalar.Alike f g := by
  cases hfzero : f == 0.0 <;> cases hgzero : g == 0.0
  case true.true => exact .inr ⟨hfzero, hgzero⟩
  case true.false =>
    rw [term_of_zero hfzero, ← String.toList_inj, toList_term hgzero] at h
    exact nomatch h
  case false.true =>
    rw [term_of_zero hgzero, ← String.toList_inj, toList_term hfzero] at h
    exact nomatch h
  case false.false =>
    exact .inl (term_append_inj hstyle hwrite hf hfzero hg hgzero (hm.endsNumber [])
      (hm.endsNumber []) (congrArg (·.toList ++ []) h)).1

/-- Two terms are told apart from two others by the letters of their monomials. -/
theorem alike_of_terms_eq {a a' b b' : Float} (ha : Scalar.isFinite a = true)
    (ha' : Scalar.isFinite a' = true) (hb : Scalar.isFinite b = true)
    (hb' : Scalar.isFinite b' = true) {c d : Char} {m n : String} (hm : Opens c m) (hn : Opens d n)
    (hne : d ≠ c)
    (h : style.term write a m ++ style.term write b n =
      style.term write a' m ++ style.term write b' n) :
    Scalar.Alike a a' ∧ Scalar.Alike b b' := by
  rw [← String.toList_inj, String.toList_append, String.toList_append] at h
  cases hzero : a == 0.0 <;> cases hzero' : a' == 0.0
  case true.true =>
    rw [term_of_zero hzero, term_of_zero hzero'] at h
    exact ⟨.inr ⟨hzero, hzero'⟩,
      alike_of_term_eq hstyle hwrite hb hb' hn (String.toList_inj.mp h)⟩
  case true.false =>
    rw [term_of_zero hzero] at h
    exact absurd h (term_ne_term_append hstyle hwrite hb ha' hzero' hn hm hne _)
  case false.true =>
    rw [term_of_zero hzero'] at h
    exact absurd h.symm (term_ne_term_append hstyle hwrite hb' ha hzero hn hm hne _)
  case false.false =>
    obtain ⟨heq, htail⟩ := term_append_inj hstyle hwrite ha hzero ha' hzero' (hm.endsNumber _)
      (hm.endsNumber _) h
    refine ⟨.inl heq, alike_of_term_eq hstyle hwrite hb hb' hn ?_⟩
    exact String.toList_inj.mp (List.append_cancel_left htail)

end Reading

/-! ### Monomials -/

theorem opens_product {c : Char} {left : String} (h : Opens c left) (right : String) :
    Opens c (style.product left right) := by
  obtain ⟨hc, r, hr⟩ := h
  exact ⟨hc, _, by rw [product, String.toList_append, String.toList_append, hr]; rfl⟩

theorem Readable.opens_power (hstyle : style.Readable) {c : Char} {base : String}
    (h : Opens c base) (exponent : String) : Opens c (style.power base exponent) := by
  obtain ⟨rest, hrest⟩ := hstyle.power base exponent
  obtain ⟨hc, r, hr⟩ := h
  exact ⟨hc, _, by rw [hrest, String.toList_append, hr]; rfl⟩

end TitleStyle

/-! ### Titles -/

namespace Equation

open TitleStyle

variable {style : TitleStyle} {write : Float → String}

/-- The families are told apart by the first character. -/
theorem title_weierstrass_ne_edwards (a b d : Float) :
    (weierstrass a b).title style write ≠ (edwards d).title style write := by
  rw [ne_eq, ← String.toList_inj, title, title, heading, heading, product, product, product]
  simp only [String.toList_append, List.append_assoc]
  intro h
  split at h
  · have hhead : some 'W' = some 'E' := congrArg List.head? h
    exact absurd hhead (by decide)
  · have hhead : some 'Z' = some '(' := congrArg List.head? h
    exact absurd hhead (by decide)

section Reading

variable (hstyle : style.Readable) (hwrite : Numerals write)

include hstyle hwrite

theorem title_weierstrass_inj {a a' b b' : Float} (h : (weierstrass a b).isFinite = true)
    (h' : (weierstrass a' b').isFinite = true)
    (htitle : (weierstrass a b).title style write = (weierstrass a' b').title style write) :
    Scalar.Alike a a' ∧ Scalar.Alike b b' := by
  obtain ⟨ha, hb⟩ := Bool.and_eq_true_iff.mp h
  obtain ⟨ha', hb'⟩ := Bool.and_eq_true_iff.mp h'
  have hx : Opens 'X' "X" := ⟨rfl, _, rfl⟩
  have hz : Opens 'Z' "Z" := ⟨rfl, _, rfl⟩
  simp only [title, String.append_assoc, String.append_right_inj] at htitle
  exact alike_of_terms_eq hstyle hwrite ha ha' hb hb' (opens_product hx _)
    (hstyle.opens_power hz _) (by decide) htitle

theorem title_edwards_inj {d d' : Float} (h : (edwards d).isFinite = true)
    (h' : (edwards d').isFinite = true)
    (htitle : (edwards d).title style write = (edwards d').title style write) :
    Scalar.Alike d d' := by
  have hx : Opens 'X' "X" := ⟨rfl, _, rfl⟩
  rw [title, title, String.append_right_inj] at htitle
  exact alike_of_term_eq hstyle hwrite h h' (opens_product (hstyle.opens_power hx _) _) htitle

/-- Equations have one title if they are equal as numbers compare, and only then. -/
theorem title_eq_iff {equation other : Equation Float} (h : equation.isFinite = true)
    (h' : other.isFinite = true) :
    equation.title style write = other.title style write ↔ (equation == other) = true := by
  cases equation with
  | weierstrass a b =>
    cases other with
    | weierstrass a' b' =>
      obtain ⟨ha, hb⟩ := Bool.and_eq_true_iff.mp h
      change _ ↔ (a == a' && b == b') = true
      rw [Bool.and_eq_true, beq_iff_alike ha, beq_iff_alike hb]
      refine ⟨title_weierstrass_inj hstyle hwrite h h', ?_⟩
      rintro ⟨haa, hbb⟩
      rw [title, title, term_congr haa, term_congr hbb]
    | edwards d => exact iff_of_false (title_weierstrass_ne_edwards a b d) Bool.false_ne_true
  | edwards d =>
    cases other with
    | weierstrass a b =>
      exact iff_of_false (title_weierstrass_ne_edwards a b d).symm Bool.false_ne_true
    | edwards d' =>
      change _ ↔ (d == d') = true
      rw [beq_iff_alike h]
      refine ⟨title_edwards_inj hstyle hwrite h h', ?_⟩
      intro hdd
      rw [title, title, term_congr hdd]

end Reading

end Equation

namespace Curve

/-- The equation of an accepted curve can be told from its title, plain or with markup. -/
theorem title_determines_equation {write : Float → String} (hwrite : Numerals write)
    {equation other : Equation Float} {curve curve' : Curve Float}
    (h : ofEquation equation = .ok curve) (h' : ofEquation other = .ok curve') :
    (curve.equation.title .plain write = curve'.equation.title .plain write ↔
        (curve.equation == curve'.equation) = true) ∧
      (curve.equation.title .markup write = curve'.equation.title .markup write ↔
        (curve.equation == curve'.equation) = true) := by
  have hfinite := isFinite_of_accepted h
  have hfinite' := isFinite_of_accepted h'
  rw [equation_of_accepted h, equation_of_accepted h']
  exact ⟨Equation.title_eq_iff TitleStyle.readable_plain hwrite hfinite hfinite',
    Equation.title_eq_iff TitleStyle.readable_markup hwrite hfinite hfinite'⟩

/-- A zero has no sign in `X^3 - X*Z^2`, and that is not `X^3 - Z^3`. -/
theorem title_determines_neg_one :
    ∃ curve signed other : Curve Float,
      ofEquation (.weierstrass (-1.0) 0.0) = .ok curve ∧
      ofEquation (.weierstrass (-1.0) (-0.0)) = .ok signed ∧
      ofEquation (.weierstrass 0.0 (-1.0)) = .ok other ∧
      curve.equation.title .plain numberText.positional =
        signed.equation.title .plain numberText.positional ∧
      curve.equation.title .markup numberText.positional ≠
        other.equation.title .markup numberText.positional := by
  obtain ⟨curve, h, -⟩ := exists_accepted_of_any (.weierstrass (-1.0 : Float) 0.0)
    (fun _ => true) (by decide +kernel)
  obtain ⟨signed, hsigned, -⟩ := exists_accepted_of_any (.weierstrass (-1.0 : Float) (-0.0))
    (fun _ => true) (by decide +kernel)
  obtain ⟨other, hother, -⟩ := exists_accepted_of_any (.weierstrass (0.0 : Float) (-1.0))
    (fun _ => true) (by decide +kernel)
  refine ⟨curve, signed, other, h, hsigned, hother, ?_, ?_⟩
  · refine (title_determines_equation numerals_positional h hsigned).1.mpr ?_
    rw [equation_of_accepted h, equation_of_accepted hsigned]
    decide +kernel
  · refine mt (title_determines_equation numerals_positional h hother).2.mp ?_
    rw [equation_of_accepted h, equation_of_accepted hother]
    decide +kernel

end Curve

end EllipticPlot
