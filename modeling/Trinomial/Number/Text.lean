import Trinomial.Number.Decimal

/-! # Numbers as text

One layout function and the four styles in which numbers are shown. All of them print the shortest
digits; they differ in where positional notation ends and in how the exponent is written.
-/
set_option autoImplicit false

namespace Trinomial

structure NumberStyle where
  /-- The decimal exponents of the first digit that are written positionally. -/
  positional : Int → Bool
  /-- An integral number in positional notation ends in `.0`. -/
  pointed : Bool
  /-- A non-negative exponent carries a `+`. -/
  signedExponent : Bool
  /-- The exponent has at least this many digits. -/
  exponentWidth : Nat

namespace NumberStyle

/-- Positional from `1e-4` up to below `1e16`, with at least one digit after the point. -/
def precise : NumberStyle := ⟨fun e => decide (-4 ≤ e) && decide (e < 16), true, false, 1⟩

/-- As `precise`, but the exponent is signed and has at least two digits: `-5e-06`, `1e+16`. -/
def displayed : NumberStyle := { precise with signedExponent := true, exponentWidth := 2 }

/-- Positional for every size, and no point on integers. -/
def plain : NumberStyle := ⟨fun _ => true, false, false, 1⟩

/-- Scientific for every size: `3.2e-10`, `1.28e0`. -/
def scientific : NumberStyle := ⟨fun _ => false, false, false, 1⟩

end NumberStyle

namespace Decimal

/-- The digits, most significant first; zero has one. -/
def digitChars (d : Decimal) : List Char := Nat.toDigits 10 d.digits

def leading (d : Decimal) : Int := d.exponent + d.digitChars.length - 1

/-- Digits with the point at its place, zeros filled in where needed. -/
def positionalChars (d : Decimal) (pointed : Bool) : List Char :=
  let ds := d.digitChars
  if 0 ≤ d.exponent then
    ds ++ List.replicate d.exponent.toNat '0' ++ (if pointed then ['.', '0'] else [])
  else
    let places := (-d.exponent).toNat
    if places < ds.length then
      ds.take (ds.length - places) ++ '.' :: ds.drop (ds.length - places)
    else '0' :: '.' :: (List.replicate (places - ds.length) '0' ++ ds)

def exponentChars (style : NumberStyle) (e : Int) : List Char :=
  let ds := Nat.toDigits 10 e.natAbs
  (if e < 0 then ['-'] else if style.signedExponent then ['+'] else []) ++
    List.replicate (style.exponentWidth - ds.length) '0' ++ ds

/-- One digit before the point, and no point when it is the only one. -/
def scientificChars (d : Decimal) (style : NumberStyle) : List Char :=
  (match d.digitChars with
    | [] => []
    | [c] => [c]
    | c :: cs => c :: '.' :: cs) ++ 'e' :: exponentChars style d.leading

def chars (d : Decimal) (style : NumberStyle) : List Char :=
  if style.positional d.leading then d.positionalChars style.pointed else d.scientificChars style

end Decimal

namespace Number

/-- The text of a number in a style. What is not a number has no sign. -/
def chars (style : NumberStyle) (x : Float) : List Char :=
  if x.isNaN then ['N', 'a', 'N']
  else (if isNegative x then ['-'] else []) ++
    (if x.isInf then ['i', 'n', 'f'] else (magnitude x).shortest.chars style)

/-- `2.0`, `0.0001`, `1e-5`, `1.5e16`. -/
def preciseText (x : Float) : String := String.ofList (chars .precise x)

/-- `2.0`, `0.0001`, `1e-05`, `1.5e+16`. -/
def displayText (x : Float) : String := String.ofList (chars .displayed x)

/-- `2`, `0.0001`, `0.00001`, `15000000000000000`. -/
def plainText (x : Float) : String := String.ofList (chars .plain x)

/-- `2e0`, `1e-4`, `1e-5`, `1.5e16`. -/
def scientificText (x : Float) : String := String.ofList (chars .scientific x)

end Number
end Trinomial
