import Trinomial.Table

/-! # Forms of an equation

The canonical form writes all three coefficients out in plain notation and can be read again. The
reduced form is for the eye: it leaves out what is negligible and coefficients that are one, and turns
all signs when the first one is negative.
-/
set_option autoImplicit false

namespace Trinomial.Table

/-! ## Canonical form -/

def signed (v : Float) : String :=
  if v < 0.0 then "- " ++ Number.plainText (-v) else "+ " ++ Number.plainText v.abs

/-- `2 * X^2 - 3 * X^1 + 1 = 0`. -/
def canonicalForm (table : Table) : String :=
  Number.plainText table.a ++ " * X^2 " ++ signed table.b ++ " * X^1 " ++ signed table.c ++ " = 0"

/-! ## Reduced form -/

/-- A coefficient before the unknown; one is not written. -/
def factorText (v : Float) : String :=
  if Number.near Number.tolerance v 1.0 then "" else Number.displayText v ++ " * "

/-- `3.0 * X^2`, `X`, `5.0`. -/
def shownText (degree : Nat) (v : Float) : String :=
  match degree with
  | 2 => factorText v ++ "X^2"
  | 1 => factorText v ++ "X"
  | _ => Number.displayText v

/-- The terms that count, from the highest degree down. -/
def shownTerms (table : Table) : List (Nat × Float) :=
  [(2, table.a), (1, table.b), (0, table.c)].filter fun p => !Number.isNegligible p.2

/-- What the coefficients are multiplied by so that the first one is not negative. -/
def turn : List (Nat × Float) → Float
  | (_, v) :: _ => if v < 0.0 then -1.0 else 1.0
  | [] => 1.0

def nextText (degree : Nat) (v : Float) : String :=
  if v < 0.0 then " - " ++ shownText degree (-v) else " + " ++ shownText degree v

def reducedSide (terms : List (Nat × Float)) : String :=
  match terms with
  | [] => "0.0"
  | (degree, v) :: rest =>
    shownText degree (v * turn terms) ++
      String.join (rest.map fun p => nextText p.1 (p.2 * turn terms))

/-- `X^2 - 3.0 * X + 2.0 = 0.0`. -/
def reducedForm (table : Table) : String := reducedSide table.shownTerms ++ " = 0.0"

end Trinomial.Table
