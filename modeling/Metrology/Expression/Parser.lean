import Metrology.Expression.Cursor
import Metrology.MeasureUnit.System
import Metrology.SymbolTable
import Metrology.Token.Scanner

/-!
# Reading unit expressions

From the weakest operator to the strongest:

* a compound `h:min:s` has components with the same system unit and means the first;
* an offset stands before or after a product, as in `K+273.15`;
* a product is read from left to right;
* a power has an integer exponent, a quotient of integers or superscripts; an
  integer or `e` raised to a unit is an exponential, and `log` and `ln` take
  logarithms;
* an operand is a number, a symbol, a parenthesised expression or a note.

The meaning is computed while reading. Parentheses and logarithms nest: each
level of reading is written over a reader `nested` for what is inside them, and
`offsetSum` closes the circle by recursion on the levels that are left.
-/
namespace Metrology.Expression

open Reading

/-- The most levels of nesting, the outermost expression included. -/
def maxDepth : Nat := 200

/-! ### Numbers -/

/-- The exponent that a sign and digits spell. The digits alone have to be a power,
so that `-2 ^ 31` cannot be written. -/
def exponentOf (sign : Sign) (digits : List Char) : Option Power := do
  let magnitude ← Power.ofInt? (digitsValue digits)
  Power.ofInt? (sign.apply magnitude.val)

/-- Passes a sign, if there is one. -/
def readSign : Reading Sign := do
  match (← lexeme).sign? with
  | some sign => do skip; return sign
  | none => return .plus

/-- A sign and a number. -/
def readNumber : Reading Rat := do
  let sign ← readSign
  let t ← token
  match t.lexeme with
  | .number literal =>
    skip
    match literal.value? with
    | some value => return sign.apply value
    | none => fail t.position .numberOutOfRange
  | _ => unexpected .number

/-- A sign and an integer. -/
def readInteger : Reading Power := do
  let sign ← readSign
  let t ← token
  match t.lexeme.integer? with
  | some digits =>
    skip
    match exponentOf sign digits with
    | some n => return n
    | none => fail t.position .exponentOutOfRange
  | none => unexpected .integerExponent

/-! ### Powers -/

/-- The unit to the power `p / q`, which exists when the root of the power does. -/
def rationalPower (u : MeasureUnit) (p q : Power) (position : Nat) :
    Except Error MeasureUnit := do
  if q.val = 0 then .error (.malformed position .zeroDenominator)
  else
    let gcd : Int := Int.gcd p.val q.val
    let sign : Int := if q.val < 0 then -1 else 1
    match Power.ofInt? (sign * p.val.tdiv gcd), Power.ofInt? (sign * q.val.tdiv gcd) with
    | some n, some d =>
      let power ← (u.pow n).mapError (locate position)
      match power.root? d with
      | some root => .ok root
      | none => .error (.malformed position (.noRoot d.val))
    | _, _ => .error (.malformed position .exponentOutOfRange)

/-- The rest of an exponent in parentheses. -/
def readQuotient (u : MeasureUnit) (position : Nat) : Reading MeasureUnit := do
  let p ← readInteger
  let q ← if (← lexeme) = .solidus then do skip; readInteger else pure Power.one
  expect .closeParen .closeParen
  lift (rationalPower u p q position)

/-- The power of a unit that was just read, if an exponent follows. -/
def readExponent (u : MeasureUnit) : Reading MeasureUnit := do
  let t ← token
  match t.lexeme with
  | .caret =>
    skip
    if (← lexeme) = .openParen then
      skip
      readQuotient u t.position
    else
      let n ← readInteger
      unitAt t.position (u.pow n)
  | .superscript digits =>
    skip
    match exponentOf .plus digits with
    | some n => unitAt t.position (u.pow n)
    | none => fail t.position .exponentOutOfRange
  | _ => return u

/-! ### Looking ahead -/

/-- The number of signs, none or one, at a place ahead. -/
def Cursor.signsAt (c : Cursor) (n : Nat) : Nat :=
  if (c.peek n).lexeme.sign?.isSome then 1 else 0

/-- Whether a number with a sign after it comes next: an offset before a product. -/
def Cursor.startsWithOffset (c : Cursor) : Bool :=
  let n := c.signsAt 0
  match (c.peek n).lexeme with
  | .number _ => (c.peek (n + 1)).lexeme.sign?.isSome
  | _ => false

/-- The place after a sign and an integer, if they stand at a place ahead. -/
def Cursor.afterInteger? (c : Cursor) (n : Nat) : Option Nat :=
  let m := n + c.signsAt n
  if (c.peek m).lexeme.integer?.isSome then some (m + 1) else none

/-- Whether the parenthesis at a place ahead holds an integer or a quotient of two
and nothing else. -/
def Cursor.isExponentAt (c : Cursor) (n : Nat) : Bool :=
  match c.afterInteger? (n + 1) with
  | none => false
  | some m =>
    if (c.peek m).lexeme = .solidus then
      match c.afterInteger? (m + 1) with
      | none => false
      | some k => (c.peek k).lexeme = .closeParen
    else (c.peek m).lexeme = .closeParen

/-- The number that a lexeme is as the base of an exponential. -/
def exponentialBase? (lexeme : Lexeme) : Option Float :=
  match lexeme with
  | .identifier name => if name = "e" then some Double.euler else none
  | lexeme => lexeme.integer?.map fun digits => Double.nearest (digitsValue digits)

/-- The base of the exponential that comes next, if one does: a base, a caret and
a unit. After the caret a parenthesis with an exponent in it makes a power. -/
def Cursor.exponential? (c : Cursor) : Option Float :=
  match exponentialBase? (c.peek 0).lexeme with
  | none => none
  | some base =>
    if (c.peek 1).lexeme = .caret then
      match (c.peek 2).lexeme with
      | .identifier _ | .note _ => some base
      | .openParen => if c.isExponentAt 2 then none else some base
      | _ => none
    else none

/-! ### Expressions -/

/-- The number that a logarithm has as its base. -/
def logarithmBase : LogBase → Float
  | .natural => Double.euler
  | .decimal [] => 10
  | .decimal digits => Double.nearest (digitsValue digits)

/-- An expression in parentheses, the first of which is passed already. -/
def readEnclosed (nested : Reading MeasureUnit) : Reading MeasureUnit := do
  let u ← nested
  expect .closeParen .closeParen
  return u

/-- The unit with the note that follows it, if one does. -/
def readNote (u : MeasureUnit) : Reading MeasureUnit := do
  match (← lexeme) with
  | .note text =>
    skip
    lift (u.annotate text)
  | _ => return u

/-- An operand. -/
def readOperand (table : SymbolTable) (nested : Reading MeasureUnit) :
    Reading MeasureUnit := do
  let t ← token
  match t.lexeme with
  | .number _ | .plus | .minus =>
    let value ← readNumber
    let scale ← converter (Converter.scaling value)
    readNote (MeasureUnit.one.transform scale)
  | .identifier name =>
    skip
    match table.unit? name with
    | some u => readNote u
    | none => throw (.unknownUnit name t.position)
  | .openParen =>
    skip
    readNote (← readEnclosed nested)
  | .note text =>
    skip
    lift (MeasureUnit.one.annotate text)
  | _ => unexpected .operand

/-- A logarithm, its name being passed already. -/
def readLogarithm (nested : Reading MeasureUnit) (base : LogBase) : Reading MeasureUnit := do
  expect .openParen .openParen
  let u ← readEnclosed nested
  return u.transform (← converter (Converter.logTo (logarithmBase base)))

/-- A logarithm, an exponential or a power. -/
def readPower (table : SymbolTable) (nested : Reading MeasureUnit) :
    Reading MeasureUnit := do
  match (← lexeme) with
  | .logarithm base =>
    skip
    readLogarithm nested base
  | _ =>
    match (← get).exponential? with
    | some base =>
      skip
      skip
      let u ← readOperand table nested
      return u.transform (← converter (Converter.expOf base))
    | none => readExponent (← readOperand table nested)

/-- The factors and divisors that follow `u`, at most `count` of them. -/
def readFactors (operand : Reading MeasureUnit) : Nat → MeasureUnit → Reading MeasureUnit
  | 0, u => return u
  | count + 1, u => do
    let t ← token
    match t.lexeme with
    | .asterisk | .middleDot =>
      skip
      let v ← operand
      readFactors operand count (← unitAt t.position (u.mul v))
    | .solidus =>
      skip
      let v ← operand
      readFactors operand count (← unitAt t.position (u.div v))
    | _ => return u

/-- A product. Every further factor takes a token, so that there are no more of
them than tokens. -/
def readProduct (table : SymbolTable) (nested : Reading MeasureUnit) :
    Reading MeasureUnit := do
  let u ← readPower table nested
  readFactors (readPower table nested) (← get).rest.length u

/-- The offset before a product and the sign between them. -/
def readLeadingOffset : Reading (Option (Rat × Sign)) := do
  if (← get).startsWithOffset then
    let offset ← readNumber
    let sign ← readSign
    return some (offset, sign)
  else return none

/-- The unit shifted by the offset before it; a minus between negates it first. -/
def applyLeadingOffset (u : MeasureUnit) : Option (Rat × Sign) → Reading MeasureUnit
  | none => return u
  | some (offset, .plus) => return u.shift offset
  | some (offset, .minus) => do
    let negation ← converter (Converter.ofTerms (-1) 1)
    return (u.transform negation).shift offset

/-- The unit shifted by the offset that follows, if one does. -/
def readTrailingOffset (u : MeasureUnit) : Reading MeasureUnit := do
  match (← lexeme).sign? with
  | none => return u
  | some sign =>
    skip
    let offset ← readNumber
    return u.shift (sign.apply offset)

/-- A product with an offset before it, after it, or both, when `levels` of nesting
are left. Where none is, the level that was tried stays counted. -/
def offsetSum (table : SymbolTable) : Nat → Reading MeasureUnit
  | 0 => do
    modify fun c => { c with depth := c.depth + 1 }
    fail (← token).position (.tooDeep maxDepth)
  | levels + 1 => do
    let leading ← readLeadingOffset
    let u ← readProduct table (offsetSum table levels)
    readTrailingOffset (← applyLeadingOffset u leading)

/-- The further components of a compound, at most `count` of them, all with the
system unit `system`. -/
def readComponents (component : Reading MeasureUnit) (system : MeasureUnit) :
    Nat → Reading PUnit
  | 0 => return
  | count + 1 => do
    if (← lexeme) = .colon then
      skip
      let position := (← token).position
      let u ← component
      let other ← unitAt position u.systemUnit
      if other == system then readComponents component system count
      else fail position .incompatibleComponents
    else return

/-- A compound. Its components are outermost expressions, each with all levels of
nesting that are left. -/
def readCompound (table : SymbolTable) : Reading MeasureUnit := do
  let levels := maxDepth - (← get).depth
  let position := (← token).position
  let u ← offsetSum table levels
  if (← lexeme) = .colon then
    let system ← unitAt position u.systemUnit
    readComponents (offsetSum table levels) system (← get).rest.length
    return u
  else return u

/-- A whole expression, up to the end. No tokens at all are the dimensionless unit. -/
def readExpression (table : SymbolTable) : Reading MeasureUnit := do
  if (← lexeme) = .endOfInput then return MeasureUnit.one
  else
    let u ← readCompound table
    if (← lexeme) = .endOfInput then return u else unexpected .endOfInput

/-! ### Starting to read -/

/-- The place before the first token of a text. -/
def Cursor.ofText (text : String) : Except Error Cursor := do
  return ⟨← (Scanner.ofText text).tokens, text.length, 0⟩

/-- What comes of reading an expression from a place, and the place after it. -/
def Cursor.read (table : SymbolTable) (c : Cursor) : Except Error MeasureUnit × Cursor :=
  match readExpression table c with
  | .ok u after => (.ok u, after)
  | .error e after => (.error e, after)

/-- The unit that a text without a trailing note denotes. -/
def parseBody (table : SymbolTable) (text : String) : Except Error MeasureUnit := do
  return ← ((← Cursor.ofText text).read table).1

end Metrology.Expression
