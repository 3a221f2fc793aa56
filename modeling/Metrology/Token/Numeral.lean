import Metrology.Text.FixedPoint

/-!
# Number literals

A literal has digits before and after a decimal point and an optional exponent,
as in `2.54`, `.5` and `1e-3`. Digits are ASCII digits. The literal keeps its
spelling, and `value?` is the rational number that it stands for. Literals that
need more than 400 zeros to be written out are refused.
-/
namespace Metrology

inductive Sign where
  | plus | minus
  deriving DecidableEq, Repr

namespace Sign

def ofChar? : Char → Option Sign
  | '+' => some plus
  | '-' => some minus
  | _ => none

def toChar : Sign → Char
  | plus => '+'
  | minus => '-'

/-- The number with this sign in front of it. -/
def apply {α : Type} [Neg α] : Sign → α → α
  | plus, x => x
  | minus, x => -x

end Sign

/-- The value of a run of digits; the empty run is zero. -/
def digitsValue (digits : List Char) : Nat := Nat.ofDigitChars 10 digits 0

/-- The exponent of a literal: a marker `e` or `E`, a sign and digits. -/
structure Exponent where
  marker : Char
  sign : Option Sign
  digits : List Char
  deriving DecidableEq, Repr

namespace Exponent

def text (e : Exponent) : List Char :=
  e.marker :: (e.sign.map Sign.toChar).toList ++ e.digits

def value (e : Exponent) : Int :=
  (e.sign.getD .plus).apply (digitsValue e.digits : Int)

end Exponent

/-- A number literal. It has a point when it has digits after it. -/
structure Numeral where
  whole : List Char
  fraction : List Char
  exponent : Option Exponent
  deriving DecidableEq, Repr

namespace Numeral

def text (n : Numeral) : List Char :=
  n.whole ++ (if n.fraction.isEmpty then [] else '.' :: n.fraction) ++
    (n.exponent.map Exponent.text).getD []

/-- Whether the literal consists of digits alone. -/
def isInteger (n : Numeral) : Bool :=
  n.fraction.isEmpty && n.exponent.isNone

/-- The digits without the point, as an integer. -/
def digits (n : Numeral) : Nat := digitsValue (n.whole ++ n.fraction)

/-- The largest number of zeros that a literal may abbreviate. -/
def maxShift : Nat := 400

/-- Whether the exponent is an integer of 64 bits. -/
def exponentInRange (x : Int) : Bool :=
  -9223372036854775808 ≤ x && x ≤ 9223372036854775807

/-- The number `digits * 10 ^ (exponent - length of the fraction)`; `none` when
the exponent is out of range. -/
def value? (n : Numeral) : Option Rat :=
  let exponent := (n.exponent.map Exponent.value).getD 0
  let shift := exponent - (n.fraction.length : Int)
  if exponentInRange exponent && shift.natAbs ≤ maxShift then
    some (mkRat (n.digits * Nat.pow 10 shift.toNat) (Nat.pow 10 (-shift).toNat))
  else none

end Numeral

end Metrology
