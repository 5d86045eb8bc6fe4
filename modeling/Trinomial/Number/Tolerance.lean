import Trinomial.Number.Magnitude

/-! # Equality up to a tolerance

Two numbers are near when their difference is below the tolerance. All tests for zero go through
`isNegligible`; what is not a number is near nothing, and an infinity is not near itself.
-/
set_option autoImplicit false

namespace Trinomial.Number

/-- The tolerance of every comparison with zero. -/
def tolerance : Float := 1e-11

def near (epsilon a b : Float) : Bool := decide ((b - a).abs < epsilon)

def isNegligible (x : Float) : Bool := near tolerance x 0.0

end Trinomial.Number
