import Trinomial.Number.Text

/-! # Degrees

The degree of a term is any number while terms are gathered; only 0, 1 and 2 are solved. A term whose
infinite exponents cancel has no degree.
-/
set_option autoImplicit false

namespace Trinomial

inductive Degree where
  | number (x : Float)
  /-- What is left of infinity less infinity. -/
  | indeterminate
deriving DecidableEq

namespace Degree

/-- The degree that a sum of exponents comes to. -/
def ofExponent (x : Float) : Degree := if x.isNaN then indeterminate else number x

def value : Degree → Float
  | number x => x
  | indeterminate => 0.0 / 0.0

/-- Equal as numbers: `0.0` and `-0.0` are one degree, and what is not a number equals nothing. -/
def same (d e : Degree) : Bool := d.value == e.value

/-- `d` stands before `e`: by size, an indeterminate degree before all numbers. -/
def before : Degree → Degree → Bool
  | indeterminate, indeterminate => false
  | indeterminate, number _ => true
  | number _, indeterminate => false
  | number x, number y => decide (Number.rank x < Number.rank y)

def isSupported (d : Degree) : Bool := d.value == 0.0 || d.value == 1.0 || d.value == 2.0

def preciseText (d : Degree) : String := Number.preciseText d.value

def plainText (d : Degree) : String := Number.plainText d.value

end Degree
end Trinomial
