import Trinomial.Failure
import Trinomial.Term

/-! # Fractions of operands

The reading of a term yields a fraction of operands. Numbers multiply and exponents add, above and below
the bar each from left to right; the term is the quotient of the products and the difference of the
sums.
-/
set_option autoImplicit false

namespace Trinomial

/-- A factor of a term: a number or a power of the unknown. -/
inductive Operand where
  | literal (value : Float)
  | unknownPower (exponent : Float)
deriving DecidableEq

namespace Operand

def literal? : Operand → Option Float
  | literal v => some v
  | unknownPower _ => none

def exponent? : Operand → Option Float
  | literal _ => none
  | unknownPower e => some e

/-- The product of the numbers, from `1.0` on. -/
def product (os : List Operand) : Float := (os.filterMap literal?).foldl (· * ·) 1.0

/-- The sum of the exponents, from `0.0` on. -/
def degree (os : List Operand) : Float := (os.filterMap exponent?).foldl (· + ·) 0.0

end Operand

/-- The operands of a term above and below the bar. -/
structure Fraction where
  above : List Operand
  below : List Operand
deriving DecidableEq

namespace Fraction

def consAbove (o : Operand) (f : Fraction) : Fraction := { f with above := o :: f.above }

def consBelow (o : Operand) (f : Fraction) : Fraction := { f with below := o :: f.below }

/-- The term that a fraction comes to; a negligible product below the bar is refused. -/
def reduce (f : Fraction) : Except Failure Term :=
  if Number.isNegligible (Operand.product f.below) then
    .error (.zeroDivision (.denominator (Operand.product f.below)))
  else
    .ok ⟨Operand.product f.above / Operand.product f.below,
      .ofExponent (Operand.degree f.above - Operand.degree f.below)⟩

end Fraction
end Trinomial
