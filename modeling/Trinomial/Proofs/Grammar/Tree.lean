import Trinomial.Equation

/-! # Derivation trees

The grammar of equations, one type of trees for each rule, with the tokens that a tree derives.

    equation → side '=' side
    side     → term (('+' | '-') term)*
    term     → factor ('*' factor)*
    factor   → tower ('/' tower)*
    tower    → atom ('^' tower)?
    atom     → ('+' | '-')? number | X

Two things are left to `Admissible`: a tower has a bounded number of atoms, and the unknown stands
only at its base. The value of a tree is defined here without any reading of tokens.
-/
set_option autoImplicit false

namespace Trinomial.Grammar

/-! ## Trees and their tokens -/

inductive Sign where
  | plus
  | minus
deriving DecidableEq

inductive AtomTree where
  | number (sign : Option Sign) (value : Float) (spelling : String)
  | unknown
deriving DecidableEq

inductive TowerTree where
  | atom (a : AtomTree)
  | power (base : AtomTree) (exponent : TowerTree)
deriving DecidableEq

structure FactorTree where
  first : TowerTree
  divisors : List TowerTree

structure TermTree where
  first : FactorTree
  others : List FactorTree

structure SideTree where
  first : TermTree
  others : List (Sign × TermTree)

structure EquationTree where
  left : SideTree
  right : SideTree

def Sign.token : Sign → Token
  | plus => .plus
  | minus => .minus

def AtomTree.tokens : AtomTree → List Token
  | number none v spelling => [.number v spelling]
  | number (some s) v spelling => [s.token, .number v spelling]
  | unknown => [.unknown]

def TowerTree.tokens : TowerTree → List Token
  | atom a => a.tokens
  | power base exponent => base.tokens ++ .caret :: exponent.tokens

def divisorTokens (ts : List TowerTree) : List Token := ts.flatMap fun t => .divide :: t.tokens

def FactorTree.tokens (f : FactorTree) : List Token := f.first.tokens ++ divisorTokens f.divisors

def factorTokens (fs : List FactorTree) : List Token := fs.flatMap fun f => .times :: f.tokens

def TermTree.tokens (t : TermTree) : List Token := t.first.tokens ++ factorTokens t.others

def termTokens (ts : List (Sign × TermTree)) : List Token :=
  ts.flatMap fun p => p.1.token :: p.2.tokens

def SideTree.tokens (s : SideTree) : List Token := s.first.tokens ++ termTokens s.others

def EquationTree.tokens (e : EquationTree) : List Token :=
  e.left.tokens ++ .equals :: e.right.tokens

/-! ## Admissible trees -/

/-- The atoms of a tower, from the base up. -/
def TowerTree.atoms : TowerTree → List AtomTree
  | atom a => [a]
  | power base exponent => base :: exponent.atoms

/-- At most `towerLimit` atoms, and the unknown at most at the base. -/
def TowerTree.Admissible (t : TowerTree) : Prop :=
  t.atoms.length ≤ towerLimit ∧ .unknown ∉ t.atoms.tail

instance (t : TowerTree) : Decidable t.Admissible := inferInstanceAs (Decidable (_ ∧ _))

def FactorTree.towers (f : FactorTree) : List TowerTree := f.first :: f.divisors

def TermTree.towers (t : TermTree) : List TowerTree :=
  t.first.towers ++ t.others.flatMap FactorTree.towers

def SideTree.towers (s : SideTree) : List TowerTree :=
  s.first.towers ++ s.others.flatMap fun p => p.2.towers

def SideTree.Admissible (s : SideTree) : Prop := ∀ t ∈ s.towers, t.Admissible

instance (s : SideTree) : Decidable s.Admissible := inferInstanceAs (Decidable (∀ t ∈ _, _))

def EquationTree.Admissible (e : EquationTree) : Prop := e.left.Admissible ∧ e.right.Admissible

instance (e : EquationTree) : Decidable e.Admissible := inferInstanceAs (Decidable (_ ∧ _))

/-- The tokens that the grammar derives as a side. -/
def IsSide (ts : List Token) : Prop := ∃ s : SideTree, s.Admissible ∧ s.tokens = ts

/-- The tokens that the grammar derives as an equation. -/
def IsEquation (ts : List Token) : Prop :=
  ∃ left right, IsSide left ∧ IsSide right ∧ ts = left ++ .equals :: right

/-! ## Values -/

def Sign.apply : Sign → Float → Float
  | plus, v => v
  | minus, v => -v

/-- The number that an atom is; the unknown is none. -/
def AtomTree.value : AtomTree → Except Failure Float
  | number none v _ => .ok v
  | number (some s) v _ => .ok (s.apply v)
  | unknown => .error (.malformed .unknownInExponent)

/-- The number that a tower comes to, computed from the top down to the base. -/
def TowerTree.value : TowerTree → Except Failure Float
  | atom a => a.value
  | power base exponent => do
    let e ← exponent.value
    let v ← base.value
    (Number.power v e).result

/-- A tower as a factor: the unknown takes the exponent as it is, anything else is a number. -/
def TowerTree.operand : TowerTree → Except Failure Operand
  | atom .unknown => .ok (.unknownPower 1.0)
  | power .unknown exponent => exponent.value.map .unknownPower
  | t => t.value.map .literal

def FactorTree.fraction (f : FactorTree) : Except Failure Fraction := do
  let above ← f.first.operand
  let below ← f.divisors.mapM TowerTree.operand
  return ⟨[above], below⟩

def concat (fs : List Fraction) : Fraction := ⟨fs.flatMap Fraction.above, fs.flatMap Fraction.below⟩

/-- The quotient of the products of the numbers, and the difference of the sums of the exponents. -/
def TermTree.value (t : TermTree) : Except Failure Term := do
  let f ← ((t.first :: t.others).mapM FactorTree.fraction).map concat
  let m := Operand.product f.below
  if Number.isNegligible m then .error (.zeroDivision (.denominator m))
  else .ok ⟨Operand.product f.above / m, .ofExponent (Operand.degree f.above - Operand.degree f.below)⟩

/-- The terms of a side that counts with `sign`: only the sign straight before a term turns it. -/
def SideTree.signedTerms (s : SideTree) (sign : Float) : List (Float × TermTree) :=
  (sign, s.first) :: s.others.map fun p => (p.1.apply sign, p.2)

def addSigned (table : Table) (p : Float × TermTree) : Except Failure Table :=
  p.2.value.map fun t => table.add (t.scale p.1)

/-- The table of an equation: its terms added from left to right, up to the first failure. -/
def EquationTree.value (e : EquationTree) : Except Failure Table :=
  (e.left.signedTerms 1.0 ++ e.right.signedTerms (-1.0)).foldlM addSigned {}

end Trinomial.Grammar
