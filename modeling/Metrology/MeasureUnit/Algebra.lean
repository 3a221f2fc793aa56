import Metrology.Converter.Power
import Metrology.Error

/-!
# Building units

Products join the powers of equal units and drop the units whose power is zero.
Transforms of transforms collapse into one, and one that does nothing is left out.
A scaled number is no factor: it scales the other operand instead.
-/
namespace Metrology.MeasureUnit

/-- The power, or the error that it is out of range. -/
def powerOrOverflow : Option Power → Except Error Power
  | some n => .ok n
  | none => .error .exponentOverflow

/-- Joins a factor to the factors before it: an equal unit takes the power over,
else the factor goes to the end. -/
def insertFactor : List (Factor MeasureUnit) → Factor MeasureUnit →
    Except Error (List (Factor MeasureUnit))
  | [], f => .ok [f]
  | g :: gs, f =>
    if g.unit == f.unit then do
      return ⟨g.unit, ← powerOrOverflow (g.power.add? f.power)⟩ :: gs
    else do return g :: (← insertFactor gs f)

/-- The product of factors with different units. A single unit with power one is
that unit. -/
def ofFactors (fs : List (Factor MeasureUnit)) : MeasureUnit :=
  match fs.filter fun f => f.power.val != 0 with
  | [f] => if f.power.val = 1 then f.unit else product [f]
  | gs => product gs

/-- The product of any factors. -/
def ofProduct (fs : List (Factor MeasureUnit)) : Except Error MeasureUnit := do
  return ofFactors (← fs.foldlM insertFactor [])

/-- The unit whose values the converter takes to values in `u`. It is a new unit,
without a mark, unless the converter does nothing. -/
def transform (u : MeasureUnit) (converter : Converter) : MeasureUnit :=
  if converter.isIdentity then u
  else
    match u with
    | transformed parent existing _ =>
      let combined := existing.compose converter
      if combined.isIdentity then parent else transformed parent combined
    | u =>
      let normal := converter.normalize
      if normal.isIdentity then u else transformed u normal

/-- The unit with its origin moved: `K` shifted by `273.15` is `℃`. -/
def shift (u : MeasureUnit) (offset : Rat) : MeasureUnit :=
  match Converter.offsetBy offset with
  | .ok converter => u.transform converter
  | .error _ => u

/-- The unit with a note, in which no brace may close. -/
def annotate (u : MeasureUnit) (note : String) : Except Error MeasureUnit :=
  if note.toList.contains '\x7d' then .error (.invalidNote note) else .ok (noted u note)

def mul (u v : MeasureUnit) : Except Error MeasureUnit :=
  if u.isOne then .ok v
  else if v.isOne then .ok u
  else
    match u.number?, v.number? with
    | some scale, _ => .ok (v.transform scale)
    | none, some scale => .ok (u.transform scale)
    | none, none => ofProduct (u.factors ++ v.factors)

/-- The factor with its power multiplied. -/
def raise (n : Power) (f : Factor MeasureUnit) : Except Error (Factor MeasureUnit) := do
  return ⟨f.unit, ← powerOrOverflow (f.power.mul? n)⟩

/-- The power of a unit. That of a number is the power of its scaling. -/
def pow (u : MeasureUnit) (n : Power) : Except Error MeasureUnit :=
  match u.number? with
  | some scale =>
    match scale.pow n.val with
    | .ok power => .ok (one.transform power)
    | .error cause => .error (.conversion cause)
  | none => do ofProduct (← u.factors.mapM (raise n))

def reciprocal (u : MeasureUnit) : Except Error MeasureUnit := u.pow Power.negOne

def div (u v : MeasureUnit) : Except Error MeasureUnit := do u.mul (← v.reciprocal)

/-- The factor with its power divided, which has to come out even. -/
def lower (n : Power) (f : Factor MeasureUnit) : Option (Factor MeasureUnit) :=
  if f.power.val.tmod n.val = 0 then
    (Power.ofInt? (f.power.val.tdiv n.val)).map fun m => ⟨f.unit, m⟩
  else none

/-- The root of a positive degree, if its powers are integers. -/
def positiveRoot? (u : MeasureUnit) (n : Power) : Option MeasureUnit :=
  if n.val = 1 then some u
  else
    match u with
    | product [] => some u
    | product fs => do (ofProduct (← fs.mapM (lower n))).toOption
    | _ => none

/-- The root of any degree but zero; a negative one is the reciprocal's. -/
def root? (u : MeasureUnit) (n : Power) : Option MeasureUnit :=
  if n.val = 0 then none
  else if 0 < n.val then u.positiveRoot? n
  else do (← u.positiveRoot? (← n.neg?)).reciprocal.toOption

end Metrology.MeasureUnit
