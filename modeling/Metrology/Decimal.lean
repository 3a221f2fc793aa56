import Metrology.Converter.Error

/-!
# Decimal numbers

A `Decimal` is an integer of at most 96 bits in units of `10 ^ -scale`, with at
most 28 places. The scale is part of the number: `1.50` and `1.5` have the same
value and are written differently. Every decimal is a rational number; the way
back is `ofRat`, which drops no digit and uses the smallest scale.
-/
namespace Metrology

/-- The bound on the magnitude of a mantissa, `2 ^ 96`. -/
def Decimal.mantissaBound : Nat := 1 <<< 96

/-- The most places a decimal may have. -/
def Decimal.maxScale : Nat := 28

/-- The number `mantissa * 10 ^ -scale`. -/
structure Decimal where
  mantissa : Int
  scale : Nat
  mantissa_lt : mantissa.natAbs < Decimal.mantissaBound
  scale_le : scale ≤ Decimal.maxScale
  deriving DecidableEq, Repr

namespace Decimal

/-- The decimal with these parts, if they are in range. -/
def ofParts? (mantissa : Int) (scale : Nat) : Option Decimal :=
  if h : mantissa.natAbs < mantissaBound ∧ scale ≤ maxScale then
    some ⟨mantissa, scale, h.1, h.2⟩
  else none

def toRat (d : Decimal) : Rat := mkRat d.mantissa (Nat.pow 10 d.scale)

/-- The decimal of the same value with the smallest scale. -/
def ofRat (value : Rat) : Except ConversionError Decimal :=
  match Rational.places? value.den with
  | none => .error (.inexact (.endless value))
  | some scale =>
    if h : scale ≤ maxScale then
      if bound : (Rational.scaled value scale).natAbs < mantissaBound then
        .ok ⟨Rational.scaled value scale, scale, bound, h⟩
      else .error .overflow
    else .error (.inexact (.places value scale))

/-- The number with exactly `scale` places. -/
def text (d : Decimal) : String :=
  Text.minusIf (d.mantissa < 0) ++ Text.fixedPoint d.mantissa.natAbs d.scale

/-- The decimal that a sign, digits and a point between digits spell. -/
def ofText? (text : String) : Option Decimal :=
  let read (sign : Int) (digits : List Char) : Option Decimal :=
    let whole := digits.takeWhile Char.isDigit
    match digits.dropWhile Char.isDigit with
    | [] =>
      if whole.isEmpty then none else ofParts? (sign * Nat.ofDigitChars 10 whole 0) 0
    | '.' :: fraction =>
      if whole.isEmpty || fraction.isEmpty || !fraction.all Char.isDigit then none
      else ofParts? (sign * Nat.ofDigitChars 10 (whole ++ fraction) 0) fraction.length
    | _ => none
  match text.toList with
  | '-' :: digits => read (-1) digits
  | digits => read 1 digits

end Decimal

end Metrology
