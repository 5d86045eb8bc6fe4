import Trinomial.Complex.Basic

/-! # Roots

What an equation has for solution, the text of each, and the order in which they are listed: real
numbers ascending, then complex numbers by their text, then the two answers that are no number.
-/
set_option autoImplicit false

namespace Trinomial

/-- One solution, or the answer that takes its place. -/
inductive Root where
  | real (x : Float)
  | complex (z : ComplexNumber)
  | everything
  | nothing
deriving DecidableEq

namespace Root

/-- The place of each kind in a list of roots. -/
def kindRank : Root → Nat
  | real _ => 0
  | complex _ => 1
  | everything => 2
  | nothing => 3

def text : Root → String
  | real x => Number.displayText x
  | complex z => z.text
  | everything => "any"
  | nothing => "no"

def order : Root → Root → Ordering
  | real x, real y => Number.totalOrder x y
  | complex z, complex w => compare z.text w.text
  | r, s => compare r.kindRank s.kindRank

def real? : Root → Option Float
  | real x => some x
  | _ => none

/-- Roots in their order; equal ones keep theirs. -/
def sort (rs : List Root) : List Root := rs.mergeSort fun r s => (r.order s).isLE

def listText (rs : List Root) : String := ", ".intercalate (rs.map text)

def logText : Root → String
  | real x => "Reelle(" ++ Number.preciseText x ++ ")"
  | complex z =>
    "Complexe(Complexe \x7b re: " ++ Number.preciseText z.re ++ ", im: " ++
      Number.preciseText z.im ++ " \x7d)"
  | everything => "Toute"
  | nothing => "Aucune"

def listLogText (rs : List Root) : String := "[" ++ ", ".intercalate (rs.map logText) ++ "]"

end Root
end Trinomial
