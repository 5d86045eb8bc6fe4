import Trinomial.Number.Text
import Trinomial.Number.Tolerance

/-! # Complex numbers

A pair of numbers with the ring operations written out part by part, and its text `a + b * i`.
-/
set_option autoImplicit false

namespace Trinomial

/-- The complex number `re + im * i`. -/
structure ComplexNumber where
  re : Float
  im : Float
deriving DecidableEq

namespace ComplexNumber

/-! ## Ring operations -/

def ofReal (x : Float) : ComplexNumber := ⟨x, 0.0⟩

def zero : ComplexNumber := ⟨0.0, 0.0⟩

def one : ComplexNumber := ⟨1.0, 0.0⟩

def add (z w : ComplexNumber) : ComplexNumber := ⟨z.re + w.re, z.im + w.im⟩

def sub (z w : ComplexNumber) : ComplexNumber := ⟨z.re - w.re, z.im - w.im⟩

def mul (z w : ComplexNumber) : ComplexNumber :=
  ⟨z.re * w.re - z.im * w.im, z.re * w.im + w.re * z.im⟩

def neg (z : ComplexNumber) : ComplexNumber := ⟨-z.re, -z.im⟩

instance : Add ComplexNumber := ⟨add⟩

instance : Sub ComplexNumber := ⟨sub⟩

instance : Mul ComplexNumber := ⟨mul⟩

instance : Neg ComplexNumber := ⟨neg⟩

def conj (z : ComplexNumber) : ComplexNumber := ⟨z.re, -z.im⟩

def normSq (z : ComplexNumber) : Float := z.re * z.re + z.im * z.im

/-- Both parts are zero, of either sign. -/
def isZero (z : ComplexNumber) : Bool := z.re == 0.0 && z.im == 0.0

def floor (z : ComplexNumber) : ComplexNumber := ⟨Number.floor z.re, Number.floor z.im⟩

/-! ## Text -/

/-- A number whose sign is dropped when it is negligible. -/
def unsignedIfNegligible (x : Float) : Float := if Number.isNegligible x then x.abs else x

/-- `a + b * i` or `a - b * i`: the sign of the imaginary part stands between the parts. -/
def text (z : ComplexNumber) : String :=
  Number.displayText (unsignedIfNegligible z.re) ++
    (if z.im < 0.0 then " - " ++ Number.displayText (-z.im) else " + " ++ Number.displayText z.im) ++
    " * i"

end ComplexNumber
end Trinomial
