import Trinomial.SquareRoot

/-! # Division of complex numbers

Modulus, quotient and remainder. The remainder of a division rounds both parts of the quotient down.
-/
set_option autoImplicit false

namespace Trinomial.ComplexNumber

def modulus (z : ComplexNumber) : Except Failure Float := Number.squareRoot z.normSq

/-- The quotient; a divisor of negligible square is refused. -/
def div (z w : ComplexNumber) : Except Failure ComplexNumber :=
  if Number.isNegligible w.normSq then .error (.zeroDivision (.complex w))
  else .ok ⟨(z.re * w.re + z.im * w.im) / w.normSq, (z.im * w.re - z.re * w.im) / w.normSq⟩

/-- What is left of `z` after `w` times the rounded quotient. -/
def rem (z w : ComplexNumber) : Except Failure ComplexNumber :=
  (div z w).map fun q => z - w * q.floor

end Trinomial.ComplexNumber
