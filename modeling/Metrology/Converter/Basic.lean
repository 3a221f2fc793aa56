import Metrology.Double.Shortest
import Metrology.Ratio
import Metrology.Rational.Expansion

/-!
# Converters

A `Converter` is a function from the values on one numeric scale to the values on
another. Scalings and offsets by rational numbers are exact; scalings by a double,
logarithms and exponentials are not. A chain is a tree of pairs, and its `steps`
are the leaves that do something, the last one applied first.

`=` tells all doubles apart. `==` compares them as numbers, so that zero equals
minus zero and no NaN equals anything.
-/
namespace Metrology

inductive Converter where
  /-- `x` -/
  | identity
  /-- `x + offset` -/
  | add (offset : Rat)
  /-- `x * factor` -/
  | multiply (factor : Float)
  /-- `x * dividend / divisor` -/
  | ratio (ratio : Ratio)
  /-- The logarithm of `x` to the base `base`. -/
  | log (base : Float)
  /-- The power `base ^ x`. -/
  | exp (base : Float)
  /-- `outer` of `inner` of `x` -/
  | pair (outer inner : Converter)
  deriving DecidableEq, Repr

namespace Converter

/-- Equality of structure, doubles being compared as numbers. -/
def beq : Converter → Converter → Bool
  | identity, identity => true
  | add a, add b => a == b
  | multiply a, multiply b => a == b
  | ratio a, ratio b => a == b
  | log a, log b => a == b
  | exp a, exp b => a == b
  | pair a b, pair c d => beq a c && beq b d
  | _, _ => false

instance : BEq Converter := ⟨beq⟩

def isIdentity : Converter → Bool
  | identity => true
  | _ => false

/-- Whether no step is a logarithm or an exponential. -/
def isLinear : Converter → Bool
  | log _ | exp _ => false
  | pair outer inner => outer.isLinear && inner.isLinear
  | _ => true

/-- Whether every step is a scaling, and there is one. -/
def isScale : Converter → Bool
  | multiply _ | ratio _ => true
  | pair outer inner => outer.isScale && inner.isScale
  | _ => false

/-- The steps that do something, the last one applied first. -/
def steps : Converter → List Converter
  | identity => []
  | pair outer inner => outer.steps ++ inner.steps
  | step => [step]

/-- The left-nested chain of the steps, the last one applied first. -/
def ofSteps : List Converter → Converter
  | [] => identity
  | outer :: inner => inner.foldl pair outer

/-- The structure of the converter. -/
def text : Converter → String
  | identity => "Identity"
  | add offset => "Add(" ++ Rational.text offset ++ ")"
  | multiply factor => "Multiply(" ++ Double.text factor ++ ")"
  | ratio r => "Rational(" ++ toString r.dividend ++ ", " ++ toString r.divisor ++ ")"
  | log base => "Log(" ++ Double.text base ++ ")"
  | exp base => "Exp(" ++ Double.text base ++ ")"
  | pair outer inner => "Pair(" ++ outer.text ++ ", " ++ inner.text ++ ")"

end Converter

end Metrology
