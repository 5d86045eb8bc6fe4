import Trinomial.Failure

/-! # Square root by Newton's iteration

From half the radicand, each step takes the mean of the estimate and of its cofactor, until two
estimates are near. Far from the root a step halves the estimate, so the number of steps is bounded by
the exponent range.
-/
set_option autoImplicit false

namespace Trinomial.Number

def rootSteps : Nat := 2048

/-- One step: the mean of the estimate and its cofactor. -/
def newtonStep (x p : Float) : Float := (p + x / p) / 2.0

/-- The first estimate that is near the one before it. -/
def newton (x : Float) : (steps : Nat) → (estimate : Float) → Option Float
  | 0, _ => none
  | steps + 1, p =>
    if (newtonStep x p - p).abs < tolerance then some (newtonStep x p)
    else newton x steps (newtonStep x p)

/-- The square root; a negligible radicand of either sign has root zero. -/
def squareRoot (x : Float) : Except Failure Float :=
  if isNegligible x then .ok 0.0
  else if x < 0.0 then .error (.outsideDomain (.rootOfNegative x))
  else match newton x rootSteps (x / 2.0) with
    | some r => .ok r
    | none => .error (.noConvergence x rootSteps)

end Trinomial.Number
