import Metrology.MeasureUnit.Basic

/-!
# Symbol tables

What reading and printing need to know about symbols. Reading an expression asks
for the unit of a symbol; printing asks for the symbol of a unit and for the
symbol that puts a converter in front of another, as `k` stands for a thousand.
-/
namespace Metrology

structure SymbolTable where
  /-- The unit that an identifier stands for. -/
  unit? : String → Option MeasureUnit
  /-- The symbol of exactly this unit. -/
  symbol? : MeasureUnit → Option String
  /-- The symbol for the converter in front of a unit symbol. -/
  multiple? : Converter → Option String

end Metrology
