import Trinomial.Form
import Trinomial.Side
import Trinomial.Solution.Formulas
import Trinomial.Token.Scan

/-! # Equations

From a text to its solution: tokens, the two sides, the table of all degrees, validation, the solver.
Every stage is kept as text in the working.
-/
set_option autoImplicit false

namespace Trinomial

namespace Equation

/-- The table of all degrees: the left side counts as it is, the right side with the opposite sign. -/
def rawTable (ts : List Token) : Traced Table := do
  let (left, right) ← Traced.ofResult (Token.splitSides ts)
  let table ← (SideReading.read 1.0 left).addTo {}
  (SideReading.read (-1.0) right).addTo table

def table (s : String) : Traced Table := do
  let ts ← Traced.ofResult (Token.scanText s)
  let raw ← rawTable ts
  Traced.ofResult raw.validate

structure Working where
  tokens : String
  rawTable : String
  canonical : String
  reduced : String
  degree : String
  discriminant : String
  outcome : String
  roots : String
  note : String
deriving DecidableEq

def stages : String :=
  "Pipeline: jetons → '=' → membres → table brute → degrés \x7b0,1,2\x7d → solveur → racines triées."

def discriminantText : Option Float → String
  | some d => Number.preciseText d
  | none => "—"

def working (ts : List Token) (raw table : Table) (s : Solution) : Working where
  tokens := Token.listText ts
  rawTable := raw.text
  canonical := table.canonicalForm
  reduced := table.reducedForm
  degree := toString table.degree
  discriminant := discriminantText s.discriminant
  outcome := s.outcome.description
  roots := Root.listText s.roots
  note := stages

def solve (s : String) : Traced (Solution × Working) := do
  let ts ← Traced.ofResult (Token.scanText s)
  let raw ← rawTable ts
  let table ← Traced.ofResult raw.validate
  Traced.note (.validated table)
  let solution ← table.solve
  return (solution, working ts raw table solution)

end Equation
end Trinomial
