import Trinomial.Number.Text

/-! # Reading decimals

A decimal `digits(.digits)?` is read exactly and rounded once, to nearest with ties to even. A signed
number may in addition carry an exponent.
-/
set_option autoImplicit false

namespace Trinomial

def Decimal.ofChars (whole fraction : List Char) : Decimal :=
  ⟨Nat.ofDigitChars 10 (whole ++ fraction) 0, -(fraction.length : Int)⟩

namespace Number

/-- The number nearest to a decimal, ties to even; beyond the range it is infinite. -/
def ofDecimal (d : Decimal) : Float :=
  Float.ofScientific d.digits (decide (d.exponent < 0)) d.exponent.natAbs

/-- The value of the spelling `digits(.digits)?`. -/
def ofSpelling (spelling : List Char) : Float :=
  ofDecimal (Decimal.ofChars (spelling.takeWhile Char.isDigit)
    ((spelling.dropWhile Char.isDigit).drop 1))

def isDigits (cs : List Char) : Bool := !cs.isEmpty && cs.all Char.isDigit

/-- An exponent: digits, possibly signed. -/
def readExponent? : List Char → Option Int
  | '-' :: cs => if isDigits cs then some (-(Nat.ofDigitChars 10 cs 0 : Int)) else none
  | '+' :: cs => if isDigits cs then some (Nat.ofDigitChars 10 cs 0) else none
  | cs => if isDigits cs then some (Nat.ofDigitChars 10 cs 0) else none

/-- An unsigned number `digits(.digits)?(e[+-]?digits)?`, `inf` or `NaN`. -/
def readUnsigned? (cs : List Char) : Option Float :=
  if cs = ['i', 'n', 'f'] then some (1.0 / 0.0)
  else if cs = ['N', 'a', 'N'] then some (0.0 / 0.0)
  else
    let mantissa := cs.takeWhile (· != 'e')
    let whole := mantissa.takeWhile (· != '.')
    let fraction := (mantissa.dropWhile (· != '.')).drop 1
    let exponent? := match cs.dropWhile (· != 'e') with
      | [] => some 0
      | _ :: es => readExponent? es
    if isDigits whole && (whole.length == mantissa.length || isDigits fraction) then
      exponent?.map fun e =>
        let d := Decimal.ofChars whole fraction
        ofDecimal ⟨d.digits, d.exponent + e⟩
    else none

/-- A signed number as `preciseText`, `displayText`, `plainText` and `scientificText` write it. -/
def read? : List Char → Option Float
  | '-' :: cs => (readUnsigned? cs).map fun x => -x
  | cs => readUnsigned? cs

end Number
end Trinomial
