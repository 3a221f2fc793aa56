import Metrology.Converter.Evaluation
import Metrology.Catalog.Text

/-!
# Quantities

A quantity is a decimal number of units. It converts exactly or not at all.
-/
namespace Metrology

structure Quantity where
  value : Decimal
  unit : MeasureUnit

namespace Quantity

/-- The value after a conversion that loses nothing. -/
def convertValue (value : Decimal) (converter : Converter) : Except Error Decimal :=
  (converter.applyDecimal value).mapError Error.conversion

/-- The same quantity in another unit. -/
def convertTo (q : Quantity) (target : MeasureUnit) : Except Error Quantity := do
  let converter ← q.unit.converterTo target
  return ⟨← convertValue q.value converter, target⟩

/-- The same quantity in its system unit. -/
def normalize (q : Quantity) : Except Error Quantity := do
  let converter ← q.unit.systemConverter
  let value ← convertValue q.value converter
  return ⟨value, ← q.unit.systemUnit⟩

/-- The number, and the unit unless its text is empty. -/
def text (q : Quantity) : String :=
  let unit := Catalog.format q.unit
  if unit.isEmpty then q.value.text else q.value.text ++ " " ++ unit

end Quantity

/-- The value in one unit expressed in another, both given as texts. -/
def convertDecimal (value : Decimal) (source target : String) : Except Error Decimal := do
  let source ← Catalog.parse source
  let target ← Catalog.parse target
  return (← Quantity.convertTo ⟨value, source⟩ target).value

end Metrology
