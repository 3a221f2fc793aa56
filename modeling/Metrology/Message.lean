import Metrology.Catalog.Text

/-!
# The wording of errors

Errors hold units and not their texts, so the wording comes after the printing of
units.
-/
namespace Metrology

/-- The wording of an error. Units are written with the symbols of the catalog. -/
def Error.message : Error → String
  | malformed position fault =>
    "malformed unit expression at character " ++ toString position ++ ": " ++ fault.message
  | unknownUnit symbol position =>
    "unknown unit '" ++ symbol ++ "' at character " ++ toString position
  | conversion cause => cause.message
  | nonLinear unit =>
    "non-linear unit '" ++ Catalog.format unit ++ "' has no linear system converter"
  | incompatible source target =>
    "incompatible units: '" ++ Catalog.format source ++ "' vs '" ++
      Catalog.format target ++ "'"
  | exponentOverflow => "unit exponent out of range"
  | invalidNote note => "annotation '" ++ note ++ "' may not contain '\x7d'"
  | sink => "failed to write formatted unit"

end Metrology
