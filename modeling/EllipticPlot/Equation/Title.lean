import EllipticPlot.Equation

/-!
# Titles

Equations as text, plain and with markup. Terms with a zero factor and factors of one are left
out, and the sign of a factor is written as the operator before its term.
-/

namespace EllipticPlot

/-- How a title writes products and powers, and whether it names the family first. -/
structure TitleStyle where
  times : String
  power : String → String → String
  namesFamily : Bool

namespace TitleStyle

def plain : TitleStyle where
  times := "*"
  power base exponent := base ++ "^" ++ exponent
  namesFamily := false

def markup : TitleStyle where
  times := "&middot;"
  power base exponent := base ++ "<sup>" ++ exponent ++ "</sup>"
  namesFamily := true

/-- The family's name, where the style asks for it. -/
def heading (style : TitleStyle) (family : String) : String :=
  if style.namesFamily then family ++ " Curve " else ""

def product (style : TitleStyle) (left right : String) : String := left ++ style.times ++ right

variable {α : Type} [Scalar α]

/-- A further term: its operator, its factor unless that is one, and its monomial. -/
def term (style : TitleStyle) (write : α → String) (factor : α) (monomial : String) : String :=
  if factor == 0.0 then ""
  else
    let operator := if factor < 0.0 then " - " else " + "
    let magnitude := Scalar.abs factor
    operator ++ if magnitude == 1.0 then monomial else style.product (write magnitude) monomial

end TitleStyle

/-- The equation as text, its parameters written by `write`. -/
def Equation.title {α : Type} [Scalar α] (style : TitleStyle) (write : α → String) :
    Equation α → String
  | .weierstrass a b =>
    style.heading "Weierstrass" ++
      (style.product "Z" (style.power "Y" "2") ++ " = " ++ style.power "X" "3") ++
      style.term write a (style.product "X" (style.power "Z" "2")) ++
      style.term write b (style.power "Z" "3")
  | .edwards d =>
    style.heading "Edwards" ++
      (style.product ("(" ++ style.power "X" "2" ++ " + " ++ style.power "Y" "2" ++ ")")
        (style.power "Z" "2") ++ " = " ++ style.power "Z" "4") ++
      style.term write d (style.product (style.power "X" "2") (style.power "Y" "2"))

end EllipticPlot
