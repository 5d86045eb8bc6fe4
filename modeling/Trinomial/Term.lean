import Trinomial.Degree
import Trinomial.Number.Tolerance

/-! # Terms

A term is a coefficient and a degree. Sides of equations are lists of terms, and so are tables.
-/
set_option autoImplicit false

namespace Trinomial

/-- The term `coefficient * X ^ degree`. -/
structure Term where
  coefficient : Float
  degree : Degree
deriving DecidableEq

namespace Term

def scale (t : Term) (s : Float) : Term := { t with coefficient := t.coefficient * s }

/-- Equal degrees and equal coefficients, both as numbers. -/
def same (t u : Term) : Bool := t.degree.same u.degree && t.coefficient == u.coefficient

def counts (t : Term) : Bool := !Number.isNegligible t.coefficient

end Term
end Trinomial
