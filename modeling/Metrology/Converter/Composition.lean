import Metrology.Converter.Error

/-!
# Building and composing converters

The checked constructors refuse what cannot be undone or does nothing.

Composition keeps chains in normal form: left-nested, without identities, and with
no two neighbouring steps that `merge`. The chain is built by one pass over the
steps that keeps the finished part on a stack, its last applied step on top; a
merge that cancels a step uncovers the one below, which may merge in turn.
-/
namespace Metrology.Converter

/-- The exact scaling by `dividend / divisor`. -/
def ofTerms (dividend divisor : Int) : Except ConversionError Converter :=
  match Ratio.ofTerms dividend divisor with
  | .ok r => .ok (ratio r)
  | .error defect => .error (.invalid (.terms defect))

/-- The exact scaling by a number; scaling by one is the identity. -/
def scaling (factor : Rat) : Except ConversionError Converter :=
  if factor = 1 then .ok identity else ofTerms factor.num factor.den

/-- The offset by a number other than zero. -/
def offsetBy (offset : Rat) : Except ConversionError Converter :=
  if offset = 0 then .error (.invalid .zeroOffset) else .ok (add offset)

/-- The scaling by a finite double, neither zero nor one. -/
def multiplyBy (factor : Float) : Except ConversionError Converter :=
  if !factor.isFinite || factor == 0 then .error (.invalid (.factor factor))
  else if factor == 1 then .error (.invalid .unitFactor)
  else .ok (multiply factor)

/-- Whether logarithms to this base exist. -/
def isBase (base : Float) : Bool :=
  base.isFinite && 0 < base && !(base == 1)

/-- The logarithm to a finite positive base other than one. -/
def logTo (base : Float) : Except ConversionError Converter :=
  if isBase base then .ok (log base) else .error (.invalid (.base base))

/-- The exponential with a finite positive base other than one. -/
def expOf (base : Float) : Except ConversionError Converter :=
  if isBase base then .ok (exp base) else .error (.invalid (.base base))

/-- A scaling that may have come out as one. -/
def ofRatio? : Option Ratio → Converter
  | none => identity
  | some r => ratio r

/-- The single step that does what `outer` after `inner` does, if they combine. -/
def merge (outer inner : Converter) : Option Converter :=
  match outer, inner with
  | ratio a, ratio b => some (ofRatio? (a.mul? b))
  | add a, add b => some (if a + b = 0 then identity else add (a + b))
  | multiply a, multiply b =>
    let factor := a * b
    if !factor.isFinite || factor == 0 then none
    else some (if factor == 1 then identity else multiply factor)
  | log a, exp b | exp a, log b => if a == b then some identity else none
  | _, _ => none

/-- Puts an inner step on the stack of the steps outside it. -/
def push : List Converter → Converter → List Converter
  | [], step => [step]
  | top :: below, step =>
    match top.merge step with
    | none => step :: top :: below
    | some merged => if merged.isIdentity then below else push below merged

/-- The steps with all neighbours merged that combine. -/
def mergeSteps (steps : List Converter) : List Converter :=
  (steps.foldl push []).reverse

/-- The converter that applies `inner` first and then `outer`, in normal form. -/
def compose (outer inner : Converter) : Converter :=
  ofSteps (mergeSteps (outer.steps ++ inner.steps))

/-- The same function in normal form. -/
def normalize (c : Converter) : Converter := identity.compose c

/-- The converter that undoes this one. -/
def inverse : Converter → Converter
  | identity => identity
  | add offset => add (-offset)
  | multiply factor => multiply (1 / factor)
  | ratio r => ratio r.inverse
  | log base => exp base
  | exp base => log base
  | pair outer inner => inner.inverse.compose outer.inverse

end Metrology.Converter
