import Trinomial.Failure
import Trinomial.Term

/-! # Coefficient tables

A table holds one term per degree, in ascending order of the degrees. Terms are added one by one; a
degree that occurs again keeps its place and the sign of its zero. Validation drops the negligible terms
of other degrees than 0, 1 and 2 and refuses what is left of them.
-/
set_option autoImplicit false

namespace Trinomial

structure Table where
  terms : List Term := []
deriving DecidableEq

namespace Table

/-! ## Adding terms -/

/-- Adds the coefficient of `t` to the first term of its degree. -/
def increase (t : Term) : List Term → List Term
  | [] => []
  | u :: us =>
    if u.degree.same t.degree then { u with coefficient := u.coefficient + t.coefficient } :: us
    else u :: increase t us

/-- Puts `t` after all terms that stand before it. -/
def place (t : Term) : List Term → List Term
  | [] => [t]
  | u :: us => if u.degree.before t.degree then u :: place t us else t :: u :: us

def add (table : Table) (t : Term) : Table :=
  if table.terms.any fun u => u.degree.same t.degree then ⟨increase t table.terms⟩
  else ⟨place t table.terms⟩

def addAll (table : Table) (ts : List Term) : Table := ts.foldl add table

def ofList (ts : List Term) : Table := addAll {} ts

/-! ## Reading -/

/-- The coefficient of a degree; it is zero where nothing was added. -/
def coefficient (table : Table) (d : Degree) : Float :=
  ((table.terms.find? fun t => t.degree.same d).map Term.coefficient).getD 0.0

def a (table : Table) : Float := table.coefficient (.number 2.0)

def b (table : Table) : Float := table.coefficient (.number 1.0)

def c (table : Table) : Float := table.coefficient (.number 0.0)

/-- The degree of the highest of the three coefficients that is not negligible. -/
def degree (table : Table) : Nat :=
  if !Number.isNegligible table.a then 2 else if !Number.isNegligible table.b then 1 else 0

/-- Equal term by term, as numbers. -/
def same (table other : Table) : Bool :=
  table.terms.length == other.terms.length &&
    (table.terms.zip other.terms).all fun p => p.1.same p.2

/-! ## Validation -/

/-- The terms of supported degree and those whose coefficient counts. -/
def significant (table : Table) : List Term :=
  table.terms.filter fun t => t.degree.isSupported || t.counts

/-- Drops the negligible terms of unsupported degree, and refuses the first one that counts. -/
def validate (table : Table) : Except Failure Table :=
  match table.significant.find? fun t => !t.degree.isSupported with
  | some t => .error (.unsupportedDegree t.degree)
  | none => .ok ⟨table.significant⟩

/-! ## Text -/

def termText (t : Term) : String :=
  "X^" ++ t.degree.preciseText ++ " : " ++ Number.preciseText t.coefficient

/-- The terms in order, or `(vide)`. -/
def text (table : Table) : String :=
  if table.terms.isEmpty then "(vide)" else " ; ".intercalate (table.terms.map termText)

end Table
end Trinomial
