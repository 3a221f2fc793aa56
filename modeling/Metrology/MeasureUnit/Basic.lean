import Metrology.Converter.Composition
import Metrology.Power

/-!
# Units of measure

A unit is a base unit, a named unit that stands for another, a product of powers
of units, a unit whose values convert into those of a parent, or a unit with a
note. The empty product is the dimensionless unit.

Two products are equal when each factor of the one is a factor of the other,
whatever the order. Converters inside units are compared by `==`, so that a unit
with a NaN in it differs from any other, however alike. It equals itself only once
it is marked: a mark tells one such unit from the next.
-/
namespace Metrology

/-- A unit raised to a power. -/
structure Factor (α : Type) where
  unit : α
  power : Power
  deriving DecidableEq, Repr

inductive MeasureUnit where
  /-- The root of a dimension, as `m` or `kg`. -/
  | base (symbol : String)
  /-- A unit with a name of its own, as `N` for `kg·m/s^2`. -/
  | alternate (symbol : String) (parent : MeasureUnit)
  /-- The product of the factors. -/
  | product (factors : List (Factor MeasureUnit))
  /-- The converter takes values in this unit to values in the parent. The mark
  matters only where there is a NaN in the converter. -/
  | transformed (parent : MeasureUnit) (converter : Converter) (mark : Option Nat := none)
  /-- The same unit with a note on it. -/
  | noted (actual : MeasureUnit) (note : String)

namespace MeasureUnit

/-- Whether two converters in units are the same: equal, or one converter under one
mark, which makes it equal to itself even with a NaN in it. -/
def sameConverter (c : Converter) (mark : Option Nat) (d : Converter) (other : Option Nat) : Bool :=
  c == d || (mark.isSome && mark == other && c = d)

mutual

/-- Equality of units. -/
def beq : MeasureUnit → MeasureUnit → Bool
  | base a, base b => a == b
  | alternate a p, alternate b q => a == b && beq p q
  | product fs, product gs => fs.length == gs.length && subset fs gs
  | transformed p c m, transformed q d n => beq p q && sameConverter c m d n
  | noted a m, noted b n => beq a b && m == n
  | _, _ => false
termination_by structural u => u

/-- Whether every factor of the first list occurs in the second. -/
def subset : List (Factor MeasureUnit) → List (Factor MeasureUnit) → Bool
  | [], _ => true
  | f :: fs, gs => gs.any (beqFactor f) && subset fs gs
termination_by structural fs => fs

/-- Equality of factors. -/
def beqFactor : Factor MeasureUnit → Factor MeasureUnit → Bool
  | ⟨u, m⟩, g => beq u g.unit && m == g.power
termination_by structural f => f

end

instance : BEq MeasureUnit := ⟨beq⟩

/-- The dimensionless unit. -/
def one : MeasureUnit := product []

instance : Inhabited MeasureUnit := ⟨one⟩

def isOne : MeasureUnit → Bool
  | product [] => true
  | _ => false

/-- The symbol that a base or alternate unit brings along. -/
def symbol? : MeasureUnit → Option String
  | base symbol | alternate symbol _ => some symbol
  | _ => none

/-- The note on the unit. -/
def note? : MeasureUnit → Option String
  | noted _ note => some note
  | _ => none

/-- The scaling that a dimensionless number such as `1000` stands for. -/
def number? : MeasureUnit → Option Converter
  | transformed parent converter _ =>
    if parent.isOne && converter.isScale then some converter else none
  | _ => none

/-- The factors that a unit contributes to a product. -/
def factors : MeasureUnit → List (Factor MeasureUnit)
  | product fs => fs
  | u => [⟨u, Power.one⟩]

end MeasureUnit

end Metrology
