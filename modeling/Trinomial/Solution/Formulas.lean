import Trinomial.Journal
import Trinomial.SquareRoot

/-! # Solving `a * X^2 + b * X + c = 0`

The degree is that of the highest coefficient that is not negligible. A negligible discriminant counts
as zero. Real roots never are `-0.0`. The formulas divide by what they are given for a division, which is that
of numbers.
-/
set_option autoImplicit false

namespace Trinomial

namespace Solution

/-- Turns `-0.0` into `0.0` and changes nothing else. -/
def withoutNegativeZero (x : Float) : Float := x + 0.0

/-- The solution of `c = 0`. -/
def constant (c : Float) : Solution :=
  if Number.isNegligible c then ⟨.identity, none, [.everything]⟩
  else ⟨.contradiction, none, [.nothing]⟩

def discriminantOf (a b c : Float) : Float := b * b - 4.0 * a * c

section Formulas
variable (a b c : Float) (div : Float → Float → Float := (· / ·))

/-- The solution of `b * X + c = 0`. -/
def linear : Solution := ⟨.linear, none, [.real (withoutNegativeZero (div (-c) b))]⟩

def vertex : Float := div (-b) (2.0 * a)

/-- The solution of `a * X^2 + b * X + c = 0`. -/
def quadratic : Except Failure Solution :=
  let d := discriminantOf a b c
  if Number.isNegligible d then
    let x := withoutNegativeZero (vertex a b div)
    .ok ⟨.doubleRoot, some d, [.real x, .real x]⟩
  else if d > 0.0 then
    (Number.squareRoot d).map fun r =>
      ⟨.twoReals, some d, [.real (withoutNegativeZero (div (-b + r) (2.0 * a))),
        .real (withoutNegativeZero (div (-b - r) (2.0 * a)))]⟩
  else
    (Number.squareRoot (-d)).map fun r =>
      let z : ComplexNumber :=
        ⟨ComplexNumber.unsignedIfNegligible (vertex a b div), div r (2.0 * a)⟩
      ⟨.conjugatePair, some d, [.complex z, .complex z.conj]⟩

/-- The solution for three coefficients, its roots as the formulas give them. -/
def ofCoefficients : Except Failure Solution :=
  if !Number.isNegligible a then quadratic a b c div
  else if !Number.isNegligible b then .ok (linear b c div)
  else .ok (constant c)

end Formulas

def sorted (s : Solution) : Solution := { s with roots := Root.sort s.roots }

end Solution

def Table.solve (t : Table) : Traced Solution := do
  let found ← Traced.ofResult (Solution.ofCoefficients t.a t.b t.c)
  Traced.note (.solved t.a t.b t.c found.outcome found.sorted.roots)
  return found.sorted

end Trinomial
