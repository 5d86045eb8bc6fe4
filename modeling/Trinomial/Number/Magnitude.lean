/-! # Binary64 numbers, taken apart

A finite number is a sign and a magnitude `significand * 2 ^ scale`. Everything here reads the bit
pattern: the sign, the magnitude, the total order of the patterns, the integral part and its parity.
-/
set_option autoImplicit false

namespace Trinomial

/-- The size of a finite number, `significand * 2 ^ scale`. -/
structure Magnitude where
  significand : Nat
  scale : Int
  /-- The gap to the next smaller number is half the gap to the next larger one. -/
  narrowBelow : Bool
deriving Repr, DecidableEq

namespace Number

/-! ## Fields -/

/-- The sign bit. It is set for `-0.0`, and never for what is not a number. -/
def isNegative (x : Float) : Bool := x.toBits >>> 63 == 1

def exponentField (x : Float) : Nat := ((x.toBits >>> 52) &&& 0x7FF).toNat

def fractionField (x : Float) : Nat := (x.toBits &&& 0xFFFFFFFFFFFFF).toNat

/-- The magnitude of a finite number: subnormal numbers have no hidden bit. -/
def magnitude (x : Float) : Magnitude :=
  if exponentField x = 0 then ⟨fractionField x, -1074, false⟩
  else ⟨0x10000000000000 + fractionField x, (exponentField x : Int) - 1075,
    fractionField x == 0 && decide (1 < exponentField x)⟩

def withSign (negative : Bool) (size : Float) : Float := if negative then -size else size

/-! ## Order of the bit patterns -/

/-- The place of a number on the line of all bit patterns: `-0.0` just before `0.0`, the infinities
outside all finite numbers, and what is not a number last. -/
def rank (x : Float) : Int :=
  if x.toBits < 0x8000000000000000 then x.toBits.toNat else 0x7FFFFFFFFFFFFFFF - (x.toBits.toNat : Int)

/-- A total order that refines `<`; it tells `-0.0` from `0.0`. -/
def totalOrder (x y : Float) : Ordering := compare (rank x) (rank y)

/-! ## Integral part -/

/-- The integral part, rounded toward zero; the sign is kept, also on a zero result. -/
def truncate (x : Float) : Float :=
  if 0 ≤ (magnitude x).scale then x
  else withSign (isNegative x)
    ((magnitude x).significand >>> (-(magnitude x).scale).toNat).toUInt64.toFloat

def isIntegral (x : Float) : Bool := truncate x == x

def isOdd (x : Float) : Bool :=
  decide ((magnitude x).scale ≤ 0) &&
    ((magnitude x).significand >>> (-(magnitude x).scale).toNat) % 2 == 1

/-- The largest integer that is not above `x`. -/
def floor (x : Float) : Float :=
  if x < 0.0 && truncate x != x then truncate x - 1.0 else truncate x

end Number
end Trinomial
