import Metrology.Converter.Composition
import Metrology.Decimal
import Metrology.Double.Integer

/-!
# Applying converters

A converter is applied to a double with the rounding of double arithmetic, step by
step, or to a rational number without any. Steps that multiply by a double or take
logarithms have no exact form, and a chain is exact when all its steps are.
-/
namespace Metrology.Ratio

/-- The value of the ratio as a quotient of doubles. -/
def toFloat (r : Ratio) : Float :=
  Double.ofInt r.dividend / Double.ofInt r.divisor

def apply (r : Ratio) (x : Float) : Float :=
  x * Double.ofInt r.dividend / Double.ofInt r.divisor

def applyExact (r : Ratio) (x : Rat) : Rat := x * r.toRat

end Metrology.Ratio

namespace Metrology.Converter

def apply : Converter → Float → Float
  | identity, x => x
  | add offset, x => x + Double.nearest offset
  | multiply factor, x => x * factor
  | ratio r, x => r.apply x
  | log base, x => x.log / base.log
  | exp base, x => base.pow x
  | pair outer inner, x => outer.apply (inner.apply x)

def applyExact : Converter → Rat → Except ConversionError Rat
  | identity, x => .ok x
  | add offset, x => .ok (x + offset)
  | ratio r, x => .ok (r.applyExact x)
  | pair outer inner, x => inner.applyExact x >>= outer.applyExact
  | multiply factor, _ => .error (.inexact (.step (multiply factor)))
  | log base, _ => .error (.inexact (.step (log base)))
  | exp base, _ => .error (.inexact (.step (exp base)))

def applyDecimal (c : Converter) (x : Decimal) : Except ConversionError Decimal :=
  c.applyExact x.toRat >>= Decimal.ofRat

end Metrology.Converter
