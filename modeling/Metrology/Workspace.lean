import Metrology.MeasureUnit.Mark
import Metrology.SymbolMap

/-!
# Workspaces

A workspace keeps units and converters under names, beside a symbol map. Whatever
unit it keeps is marked with numbers that it has not given out before, so that a kept
unit equals itself each time it is taken out, and no other.
-/
namespace Metrology

structure Workspace where
  symbols : SymbolMap := SymbolMap.empty
  units : List (String × MeasureUnit) := []
  converters : List (String × Converter) := []
  /-- The number of marks given out. -/
  marks : Nat := 0

namespace Workspace

def empty : Workspace := {}

/-- The unit with its marks, and the workspace that has given them out. -/
def mark (w : Workspace) (unit : MeasureUnit) : MeasureUnit × Workspace :=
  let (unit, marks) := unit.marked.run w.marks
  (unit, { w with marks := marks })

def unit? (w : Workspace) (name : String) : Option MeasureUnit := w.units.lookup name

def converter? (w : Workspace) (name : String) : Option Converter := w.converters.lookup name

/-- Keeps a unit under a name. -/
def setUnit (w : Workspace) (name : String) (unit : MeasureUnit) : Workspace :=
  let (unit, w) := w.mark unit
  { w with units := (name, unit) :: w.units }

/-- Keeps a converter under a name. -/
def setConverter (w : Workspace) (name : String) (converter : Converter) : Workspace :=
  { w with converters := (name, converter) :: w.converters }

/-- Replaces the symbols. -/
def setSymbols (w : Workspace) (symbols : SymbolMap) : Workspace :=
  { w with symbols := symbols }

/-- Gives a unit a symbol, both ways. -/
def addLabel (w : Workspace) (unit : MeasureUnit) (symbol : String) : Workspace :=
  let (unit, w) := w.mark unit
  w.setSymbols (w.symbols.addLabel unit symbol)

/-- Gives a unit a symbol that is only read. -/
def addAlias (w : Workspace) (unit : MeasureUnit) (symbol : String) : Workspace :=
  let (unit, w) := w.mark unit
  w.setSymbols (w.symbols.addAlias unit symbol)

end Workspace

end Metrology
