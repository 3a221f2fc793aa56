import Metrology.Expression.Format

/-!
# Unit expressions with the symbols of the catalog

What most callers need: units written and read with the symbols of the
International System and in the default style.
-/
namespace Metrology.Catalog

/-- Writes units with the symbols of the catalog. -/
def printer (style : Expression.Style := {}) : Expression.Printer where
  table := symbols.table
  style := style

def parse (text : String) : Except Error MeasureUnit := Expression.parse symbols.table text

def format (unit : MeasureUnit) : String := Expression.format printer unit

end Metrology.Catalog
