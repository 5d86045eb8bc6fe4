import Trinomial.Journal
import Trinomial.SquareRoot

/-! # Powers

A power is computed from products, squares and square roots: an exponent from 10 on is halved, one
from 1 on is lowered by 1, and below 1 the power is the square root of the one with twice the
exponent. The tolerance is halved and doubled along with the exponent and ends the last recursion. A
negative base needs an integral exponent, whose parity gives the sign.
-/
set_option autoImplicit false

namespace Trinomial.Number

def square (x : Float) : Float := x * x

def powerSign (base exponent : Float) : Float :=
  if base < 0.0 && isOdd exponent then -1.0 else 1.0

/-- The power, computed with at most `depth` nested calls; there is no answer where they do not
suffice. -/
def powerWithin : (depth : Nat) → (base exponent epsilon : Float) → Option (Traced Float)
  | 0, _, _, _ => none
  | depth + 1, base, exponent, epsilon =>
    if !exponent.isFinite then some (.fail (.outsideDomain (.exponentNotFinite exponent)))
    else if base < 0.0 && !isIntegral exponent then
      some (.fail (.outsideDomain (.imaginaryPower base exponent)))
    else
      let sign := powerSign base exponent
      let size := if base < 0.0 then -base else base
      if isNegligible size then
        if exponent < 0.0 then some (.fail (.zeroDivision (.powerOfZero exponent)))
        else some (pure (if isNegligible exponent then 1.0 else 0.0))
      else if isNegligible exponent then some (pure 1.0)
      else if exponent < 0.0 then
        (powerWithin depth size (-exponent) epsilon).map fun power => do
          return sign / (← power)
      else if exponent ≥ 10.0 then
        (powerWithin depth size (exponent / 2.0) (epsilon / 2.0)).map fun power => do
          return sign * square (← power)
      else if exponent ≥ 1.0 then
        (powerWithin depth size (exponent - 1.0) epsilon).map fun power => do
          return sign * size * (← power)
      else if epsilon ≥ 1.0 then
        some do
          Traced.note (.fractionalPower size exponent epsilon)
          return sign * (← Traced.ofResult (squareRoot size))
      else
        (powerWithin depth size (exponent * 2.0) (epsilon * 2.0)).map fun power => do
          Traced.note (.fractionalPower size exponent epsilon)
          return sign * (← Traced.ofResult (squareRoot (← power)))

/-- More nested calls than any power takes. -/
def powerDepth : Nat := 4096

def power (base exponent : Float) : Traced Float :=
  (powerWithin powerDepth base exponent tolerance).getD
    (.fail (.outsideDomain (.exponentNotFinite exponent)))

end Trinomial.Number
