import Metrology.Converter.Basic

/-!
# What can go wrong with a converter

Three kinds of failure: the converter that was asked for does not exist, the
result of a conversion cannot be written down exactly, or a number grows too
large. Each cause is a constructor; `message` words it.
-/
namespace Metrology

namespace Converter

/-- Why a converter does not exist. -/
inductive Defect where
  | terms (defect : Ratio.Defect)
  | zeroOffset
  | factor (factor : Float)
  | unitFactor
  | base (base : Float)
  | noPower (converter : Converter)
  deriving DecidableEq, Repr

def Defect.message : Defect → String
  | terms defect => defect.message
  | zeroOffset => "zero offset would result in the identity converter"
  | factor x => "invalid factor " ++ Double.text x
  | unitFactor => "factor of one would result in the identity converter"
  | base x => "logarithm base " ++ Double.text x ++ " is undefined"
  | noPower c => c.text ++ " has no integer power"

end Converter

/-- Why a result is not exact. -/
inductive Inexactness where
  | step (converter : Converter)
  | endless (value : Rat)
  | places (value : Rat) (count : Nat)
  deriving DecidableEq, Repr

def Inexactness.message : Inexactness → String
  | step c => c.text ++ " has no exact form"
  | endless value => Rational.text value ++ " has no finite decimal expansion"
  | places value count =>
    Rational.text value ++ " needs " ++ toString count ++ " fractional digits"

inductive ConversionError where
  | invalid (defect : Converter.Defect)
  | inexact (cause : Inexactness)
  | overflow
  deriving DecidableEq, Repr

def ConversionError.message : ConversionError → String
  | invalid defect => "invalid converter: " ++ defect.message
  | inexact cause => "conversion is not exact: " ++ cause.message
  | overflow => "numeric overflow"

end Metrology
