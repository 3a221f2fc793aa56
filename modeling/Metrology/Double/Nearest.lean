/-!
# The double nearest to a rational number

A finite double is `m * 2 ^ q` with `m < 2 ^ 53` and `-1074 ≤ q ≤ 971`. `toRat?`
reads the value off the bits and `nearest` goes back: it picks the closest
double, of two equally close ones the one with an even `m`, and infinity beyond
the largest. Both are computed in exact integer arithmetic, so a value is rounded
once and only once.
-/
namespace Metrology.Double

/-- The parts of a double's magnitude: `mantissa * 2 ^ exponent`. -/
structure Parts where
  mantissa : Nat
  exponent : Int
  deriving DecidableEq, Repr

/-- The exponent of the smallest positive double, `2 ^ -1074`. -/
def minExponent : Int := -1074

/-- The width of the field that holds a mantissa without its leading one. -/
def fieldWidth : Nat := 52

/-- The leading one of a mantissa, `2 ^ 52`. -/
def hiddenBit : Nat := 1 <<< fieldWidth

/-- The sign bit, `2 ^ 63`. -/
def signBit : Nat := 1 <<< 63

/-- Whether the sign bit is set. -/
def isNegative (x : Float) : Bool := signBit ≤ x.toBits.toNat

/-- The magnitude of a finite double. -/
def parts (x : Float) : Parts :=
  let bits := x.toBits.toNat % signBit
  let biased : Nat := bits / hiddenBit
  if biased = 0 then ⟨bits, minExponent⟩
  else ⟨bits % hiddenBit + hiddenBit, minExponent + (biased : Int) - 1⟩

/-- The exact value of a finite double. -/
def toRat? (x : Float) : Option Rat :=
  if x.isFinite then
    let p := parts x
    let magnitude : Rat :=
      mkRat (p.mantissa <<< p.exponent.toNat : Nat) (1 <<< (-p.exponent).toNat)
    some (if isNegative x then -magnitude else magnitude)
  else none

/-- `n / d` rounded to an integer, a half going to the even neighbour. -/
def roundHalfEven (n d : Nat) : Nat :=
  let floor := n / d
  let twice := 2 * (n % d)
  if twice < d then floor
  else if d < twice then floor + 1
  else floor + floor % 2

/-- The largest `k` with `2 ^ k ≤ n / d`, for positive `n` and `d`. -/
def floorLog2 (n d : Nat) : Int :=
  let k : Int := (n.log2 : Int) - d.log2
  if n <<< (-k).toNat < d <<< k.toNat then k - 1 else k

/-- The bits of positive infinity; the bits of every finite magnitude are below. -/
def infinityBits : Nat := 0x7FF <<< fieldWidth

/-- The bits of the double nearest to `n / d`. A mantissa that rounds up to
`2 ^ 53` carries into the exponent field, as it should. -/
def magnitudeBits (n d : Nat) : Nat :=
  if n = 0 then 0
  else
    let q := max (floorLog2 n d - fieldWidth) minExponent
    let m := roundHalfEven (n <<< (-q).toNat) (d <<< q.toNat)
    min ((q - minExponent).toNat * hiddenBit + m) infinityBits

/-- The double nearest to a rational number. -/
def nearest (r : Rat) : Float :=
  let sign := if r.num < 0 then signBit else 0
  Float.ofBits (UInt64.ofNat (sign + magnitudeBits r.num.natAbs r.den))

/-- The double nearest to Euler's number. -/
def euler : Float := Float.ofBits 0x4005BF0A8B145769

/-- The value of a double that is an integer above one and below `2 ^ 53`. -/
def integer? (x : Float) : Option Nat := do
  let r ← toRat? x
  if r.den = 1 ∧ 1 < r.num ∧ r.num < 2 * hiddenBit then some r.num.toNat else none

end Metrology.Double
