import Metrology.MeasureUnit.Algebra
import Metrology.SymbolTable

/-!
# Symbol maps

A symbol map is a symbol table that is filled by hand. A label ties a symbol and a
unit both ways; an alias is only read. Multiples, as `k` for a thousand, are given
in the same two ways and stand in front of the symbols of units. Whatever is given
last replaces what was there.

An identifier is looked up as a whole first. Then it is cut in two, the longest
front part first, until a multiple and a unit are found.
-/
namespace Metrology

structure SymbolMap where
  /-- The unit of each symbol, of labels and aliases alike. -/
  units : List (String × MeasureUnit) := []
  /-- The symbol that each labelled unit is written with. -/
  labels : List (MeasureUnit × String) := []
  /-- The converter of each multiple. -/
  multiples : List (String × Converter) := []
  /-- The multiple that each labelled converter is written with. -/
  multipleLabels : List (Converter × String) := []
  /-- The number of characters of the longest multiple, which grows with the multiples. -/
  longestMultiple : Nat := 0

namespace SymbolMap

def empty : SymbolMap := {}

/-- The entries with the value of `key` replaced or added. -/
def insert {α : Type} (key : String) (value : α) (entries : List (String × α)) :
    List (String × α) :=
  (key, value) :: entries.filter fun entry => entry.1 != key

/-- The entries with the symbol of `item` replaced or added. -/
def relabel {α : Type} [BEq α] (item : α) (symbol : String) (entries : List (α × String)) :
    List (α × String) :=
  entries.filter (fun entry => entry.1 != item) ++ [(item, symbol)]

/-- The symbol of the first entry for `item`. -/
def symbolOf? {α : Type} [BEq α] (entries : List (α × String)) (item : α) : Option String :=
  (entries.find? fun entry => entry.1 == item).map (·.2)

/-- Lets a symbol be read as a unit. -/
def addAlias (m : SymbolMap) (unit : MeasureUnit) (symbol : String) : SymbolMap :=
  { m with units := insert symbol unit m.units }

/-- Lets a symbol be read as a unit and the unit be written as the symbol. -/
def addLabel (m : SymbolMap) (unit : MeasureUnit) (symbol : String) : SymbolMap :=
  { m.addAlias unit symbol with labels := relabel unit symbol m.labels }

/-- Lets a multiple be read as a converter. -/
def addMultipleAlias (m : SymbolMap) (converter : Converter) (symbol : String) : SymbolMap :=
  { m with
    multiples := insert symbol converter m.multiples
    longestMultiple := max m.longestMultiple symbol.length }

/-- Lets a multiple be read as a converter and the converter be written as it. -/
def addMultiple (m : SymbolMap) (converter : Converter) (symbol : String) : SymbolMap :=
  { m.addMultipleAlias converter symbol with
    multipleLabels := relabel converter symbol m.multipleLabels }

/-- The number of symbols of units. -/
def size (m : SymbolMap) : Nat := m.units.length

/-- The unit of a multiple followed by a symbol, cut after `n` characters. -/
def unitCutAt? (m : SymbolMap) (symbol : List Char) (n : Nat) : Option MeasureUnit := do
  let converter ← m.multiples.lookup (String.ofList (symbol.take n))
  let unit ← m.units.lookup (String.ofList (symbol.drop n))
  return unit.transform converter

/-- The unit of a multiple followed by a symbol, the longest multiple first. Both
parts have at least one character, and a cut behind the longest multiple finds none. -/
def unitWithMultiple? (m : SymbolMap) (symbol : List Char) : Option MeasureUnit :=
  (List.range' 1 (min m.longestMultiple (symbol.length - 1))).reverse.findSome?
    (m.unitCutAt? symbol)

/-- The unit that an identifier stands for. -/
def unit? (m : SymbolMap) (symbol : String) : Option MeasureUnit :=
  m.units.lookup symbol <|> m.unitWithMultiple? symbol.toList

def symbol? (m : SymbolMap) (unit : MeasureUnit) : Option String :=
  symbolOf? m.labels unit

def multiple? (m : SymbolMap) (converter : Converter) : Option String :=
  symbolOf? m.multipleLabels converter

def table (m : SymbolMap) : SymbolTable where
  unit? := m.unit?
  symbol? := m.symbol?
  multiple? := m.multiple?

end SymbolMap

end Metrology
