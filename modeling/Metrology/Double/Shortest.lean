import Metrology.Double.Nearest
import Metrology.Text.FixedPoint

/-!
# The shortest decimal text of a double

A double prints with the fewest decimal digits that read back as the same
double. Of several such numbers the nearest to the double is taken, and the
larger of two that are equally near. The text never has an exponent.

The numbers that read back are those in an interval around the double: it ends
half-way to either neighbour, and its ends belong to it when the mantissa is even.
On the grid of the multiples of `10 ^ p` only the two points next to the double
have to be tested, so `shortest` walks from coarse grids to fine ones and stops
at the first that has a point in the interval.
-/
namespace Metrology.Double

/-- A decimal number `digits * 10 ^ exponent`. -/
structure Scaled where
  digits : Nat
  exponent : Int
  deriving DecidableEq, Repr

/-- The numbers that read back as one double, in units of `2 ^ exponent`: from
`low` to `high`, which belong to it when `closed`, around the double itself. -/
structure Interval where
  low : Nat
  middle : Nat
  high : Nat
  exponent : Int
  closed : Bool
  deriving DecidableEq, Repr

/-- The interval of a double. Below a power of two the neighbour is only half
as far away as above. -/
def Parts.interval (p : Parts) : Interval where
  low :=
    if p.mantissa = hiddenBit ∧ minExponent < p.exponent then 4 * p.mantissa - 1
    else 4 * p.mantissa - 2
  middle := 4 * p.mantissa
  high := 4 * p.mantissa + 2
  exponent := p.exponent - 2
  closed := p.mantissa % 2 == 0

/-- The point of the grid `10 ^ p` that lies in the interval, the nearer of two;
of two equally near the larger. -/
def Interval.gridPoint? (i : Interval) (p : Int) : Option Nat :=
  let grid := Nat.pow 10 p.toNat <<< (-i.exponent).toNat
  let unit := Nat.pow 10 (-p).toNat <<< i.exponent.toNat
  let below := i.middle * unit / grid
  let above := below + 1
  let reaches (a b : Nat) : Bool := if i.closed then a ≤ b else a < b
  let hitBelow := reaches (i.low * unit) (below * grid)
  let hitAbove := reaches (above * grid) (i.high * unit)
  if hitBelow && hitAbove then
    if i.middle * unit - below * grid < above * grid - i.middle * unit then some below
    else some above
  else if hitBelow then some below
  else if hitAbove then some above
  else none

/-- The exponent `k` with `10 ^ k ≤ m * 2 ^ q < 10 ^ (k + 1)`. Every positive
double is above `10 ^ -340`. -/
def Parts.floorLog10 (p : Parts) : Int :=
  let scaled := (p.mantissa * Nat.pow 10 340) <<< p.exponent.toNat >>> (-p.exponent).toNat
  (Nat.toDigits 10 scaled).length - 341

/-- The fewest digits that read back as the double. Seventeen always do, and a
point above the double may be the next power of ten. -/
def Parts.shortest (p : Parts) : Scaled :=
  let top := p.floorLog10 + 1
  let grids := (List.range 19).map fun (k : Nat) => top - k
  (grids.findSome? fun g => (p.interval.gridPoint? g).map fun n => ⟨n, g⟩).getD
    ⟨p.mantissa, p.exponent⟩

/-- The number written without an exponent. -/
def Scaled.text (s : Scaled) : String :=
  Text.fixedPoint (s.digits * Nat.pow 10 s.exponent.toNat) (-s.exponent).toNat

/-- The text of a double. -/
def text (x : Float) : String :=
  if x.isNaN then "NaN"
  else
    let p := parts x
    Text.minusIf (isNegative x) ++
      if x.isInf then "inf"
      else if p.mantissa = 0 then "0"
      else p.shortest.text

end Metrology.Double
