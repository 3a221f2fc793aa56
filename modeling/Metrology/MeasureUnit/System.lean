import Metrology.MeasureUnit.Algebra

/-!
# System units and conversion

Unwinding all transforms and notes of a unit leaves its system unit, made of base
and alternate units alone. `systemConverter` takes values there. Two units with
the same system unit are compatible, and values convert between them by way of it.

In a product every factor has to convert linearly, and one with an offset may
stand there only with power one or minus one.
-/
namespace Metrology.MeasureUnit

mutual

/-- The unit left after unwinding every transform. -/
def systemUnit : MeasureUnit → Except Error MeasureUnit
  | base symbol => .ok (base symbol)
  | alternate symbol parent => .ok (alternate symbol parent)
  | product fs => systemProduct fs one
  | transformed parent _ _ => parent.systemUnit
  | noted actual _ => actual.systemUnit
termination_by structural u => u

/-- The product of the system units of the factors, on top of `acc`. -/
def systemProduct : List (Factor MeasureUnit) → MeasureUnit → Except Error MeasureUnit
  | [], acc => .ok acc
  | f :: fs, acc => do
    let system ← systemPower f
    systemProduct fs (← acc.mul system)
termination_by structural fs => fs

/-- The system unit of a factor. -/
def systemPower : Factor MeasureUnit → Except Error MeasureUnit
  | ⟨u, n⟩ => do (← u.systemUnit).pow n
termination_by structural f => f

end

/-- The converter of a factor of a product, from that of its unit. -/
def factorConverter (unit : MeasureUnit) (n : Power) (converter : Converter) :
    Except Error Converter :=
  if !converter.isLinear then .error (.nonLinear unit)
  else if n.val = 1 then .ok converter
  else if n.val = -1 then .ok converter.inverse
  else if converter.isIdentity || converter.isScale then
    match converter.pow n.val with
    | .ok power => .ok power
    | .error cause => .error (.conversion cause)
  else .error (.nonLinear unit)

mutual

/-- The converter from values in the unit to values in its system unit. -/
def systemConverter : MeasureUnit → Except Error Converter
  | base _ | alternate _ _ => .ok .identity
  | product fs => productConverter fs .identity
  | transformed parent converter _ => do return (← parent.systemConverter).compose converter
  | noted actual _ => actual.systemConverter
termination_by structural u => u

/-- The converters of the factors one after the other, on top of `acc`. -/
def productConverter : List (Factor MeasureUnit) → Converter → Except Error Converter
  | [], acc => .ok acc
  | f :: fs, acc => do
    let step ← powerConverter f
    productConverter fs (acc.compose step)
termination_by structural fs => fs

/-- The converter of a factor. -/
def powerConverter : Factor MeasureUnit → Except Error Converter
  | ⟨u, n⟩ => do factorConverter u n (← u.systemConverter)
termination_by structural f => f

end

/-- Whether both units have the same system unit. -/
def isCompatible (u v : MeasureUnit) : Bool :=
  match u.systemUnit, v.systemUnit with
  | .ok a, .ok b => a == b
  | _, _ => false

/-- The converter from values in `u` to values in `v`. -/
def converterTo (u v : MeasureUnit) : Except Error Converter :=
  if u == v then .ok .identity
  else do
    let a ← u.systemUnit
    let b ← v.systemUnit
    if !(a == b) then .error (.incompatible u v)
    else
      let toSystem ← u.systemConverter
      let ofSystem ← v.systemConverter
      return ofSystem.inverse.compose toSystem

end Metrology.MeasureUnit
