import Metrology.Converter.Composition

/-!
# Powers of scalings

A scaling can be repeated, and undone repeatedly. Chains of scalings commute, so
the power of a chain is the chain of the powers. Nothing else has powers, except
that the zeroth power of anything is the identity.
-/
namespace Metrology.Converter

/-- The scaling by a power of a double, which has to stay finite and non-zero. -/
def multiplyPower (factor : Float) (n : Nat) : Except ConversionError Converter :=
  let power := factor.pow (Double.nearest n)
  if !power.isFinite || power == 0 then .error .overflow
  else .ok (if power == 1 then identity else multiply power)

/-- The exact scaling by a power; terms that could become too long are refused. -/
def ratioPower (r : Ratio) (n : Nat) : Except ConversionError Converter :=
  if r.bits * n > Ratio.maxPowerBits then .error .overflow
  else .ok (ofRatio? (r.pow? n))

/-- The converter applied `n` times. -/
def powNat (c : Converter) (n : Nat) : Except ConversionError Converter :=
  if n = 0 then .ok identity
  else
    match c with
    | identity => .ok identity
    | ratio r => ratioPower r n
    | multiply factor => multiplyPower factor n
    | pair outer inner =>
      if outer.isScale && inner.isScale then do
        return (← outer.powNat n).compose (← inner.powNat n)
      else .error (.invalid (.noPower (pair outer inner)))
    | c => .error (.invalid (.noPower c))

/-- The converter applied `n` times, or its inverse `-n` times. -/
def pow (c : Converter) (n : Int) : Except ConversionError Converter := do
  let power ← c.powNat n.natAbs
  return if n < 0 then power.inverse else power

end Metrology.Converter
