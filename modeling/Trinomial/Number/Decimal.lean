import Trinomial.Number.Magnitude

/-! # Shortest decimals

The reals that round to a given number form an interval. `Magnitude.shortest` is the decimal of
fewest digits inside it, and of those the one nearest to the number; of two equally near ones it is
the larger.

The search walks down the decimal grids from one that lies above the number: on each grid only the
two neighbours of the number can lie in the interval, so the first grid with a hit is the coarsest.
-/
set_option autoImplicit false

namespace Trinomial

/-- The number `digits * 10 ^ exponent`. -/
structure Decimal where
  digits : Nat
  exponent : Int
deriving Repr, DecidableEq

namespace Magnitude

/-! ## The rounding interval

On the grid `10 ^ grid` the number is the fraction `gridNum / gridDen`, and one unit in its last place
is `gridUnit / gridDen`.
-/

/-- One unit in the last place, over `gridDen`. -/
def gridUnit (x : Magnitude) (grid : Int) : Nat :=
  Nat.pow 2 x.scale.toNat * Nat.pow 10 (-grid).toNat

/-- The number itself, over `gridDen`. -/
def gridNum (x : Magnitude) (grid : Int) : Nat := x.significand * x.gridUnit grid

def gridDen (x : Magnitude) (grid : Int) : Nat :=
  Nat.pow 2 (-x.scale).toNat * Nat.pow 10 grid.toNat

/-- The decimal lies among the reals that round to `x`: at most half a unit above and half a unit
below, a quarter where the gap below is narrow. The ends belong to an even significand. -/
def covers (x : Magnitude) (d : Decimal) : Bool :=
  let unit := x.gridUnit d.exponent
  let low := 4 * x.gridNum d.exponent - (if x.narrowBelow then 1 else 2) * unit
  let high := 4 * x.gridNum d.exponent + 2 * unit
  let point := 4 * d.digits * x.gridDen d.exponent
  if x.significand % 2 = 0 then decide (low ≤ point) && decide (point ≤ high)
  else decide (low < point) && decide (point < high)

/-! ## The search -/

/-- The decimal on one grid that lies in the interval and is nearest to `x`, if there is one. -/
def onGrid (x : Magnitude) (grid : Int) : Option Decimal :=
  let below : Decimal := ⟨x.gridNum grid / x.gridDen grid, grid⟩
  let above : Decimal := ⟨below.digits + 1, grid⟩
  match x.covers below, x.covers above with
  | true, true =>
    if 2 * x.gridNum grid < (2 * below.digits + 1) * x.gridDen grid then some below else some above
  | true, false => some below
  | false, true => some above
  | false, false => none

def exact (x : Magnitude) : Decimal :=
  if 0 ≤ x.scale then ⟨x.significand * Nat.pow 2 x.scale.toNat, 0⟩
  else ⟨x.significand * Nat.pow 5 (-x.scale).toNat, x.scale⟩

/-- The first hit on the `count` grids from `grid` down. -/
def search (x : Magnitude) : (count : Nat) → (grid : Int) → Decimal
  | 0, _ => x.exact
  | count + 1, grid => (x.onGrid grid).getD (x.search count (grid - 1))

/-- A grid whose step is not below the number, because `2 ^ 3 < 10` and `10 ^ 3 < 2 ^ 10`. -/
def topGrid (x : Magnitude) : Int :=
  let bits : Int := x.significand.log2 + 1 + x.scale
  if 0 ≤ bits then bits / 3 + 1 else -(3 * (-bits / 10))

/-- The fewest digits that read back as `x`, nearest to it. Sixty grids reach well below a quarter
of a unit in the last place. -/
def shortest (x : Magnitude) : Decimal :=
  if x.significand = 0 then ⟨0, 0⟩ else x.search 60 x.topGrid

end Magnitude
end Trinomial
