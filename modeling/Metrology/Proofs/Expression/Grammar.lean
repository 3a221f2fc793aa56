import Metrology.Expression.Parser
import Metrology.Expression.Printer

/-!
# The grammar of unit expressions

A `Tree` is a derivation of an expression, by the strength of its outermost operator. Its
`lexemes` are the words that it derives, and `eval` computes what it means from the bottom
up, without reading anything.

The grammar alone is ambiguous: `5+3` could be five shifted by three, and `2^(3)` two to the
unit that is the number three. Two rules that look ahead decide. Where a number and a sign
stand in front, they are an offset; and what follows a caret is a unit only where it
`startsUnit`. A tree that keeps both rules at every node is `IsPreferred`.
-/
namespace Metrology

def Sign.lexeme : Sign → Lexeme
  | plus => .plus
  | minus => .minus

namespace Expression

def Separator.lexeme : Separator → Lexeme
  | middleDot => .middleDot
  | asterisk => .asterisk

/-! ### Numbers -/

/-- A number, and the sign in front of it if there is one. -/
structure SignedNumber where
  sign : Option Sign
  literal : Numeral
  deriving DecidableEq, Repr

/-- A number that consists of digits alone. -/
structure SignedInteger extends SignedNumber where
  isInteger : literal.isInteger = true
  deriving DecidableEq, Repr

namespace SignedNumber

def lexemes (n : SignedNumber) : List Lexeme :=
  (n.sign.map Sign.lexeme).toList ++ [.number n.literal]

def value? (n : SignedNumber) : Option Rat :=
  n.literal.value?.map fun value => (n.sign.getD .plus).apply value

end SignedNumber

def SignedInteger.power? (n : SignedInteger) : Option Power :=
  exponentOf (n.sign.getD .plus) n.literal.whole

/-! ### Exponents -/

/-- An exponent behind a unit. -/
inductive Suffix where
  /-- `^-2` -/
  | plain (n : SignedInteger)
  /-- `^(1/2)`; the denominator may be left out. -/
  | quotient (p : SignedInteger) (q : Option SignedInteger)
  /-- `²` -/
  | superscript (digits : List Char)
  deriving DecidableEq, Repr

namespace Suffix

def lexemes : Suffix → List Lexeme
  | plain n => .caret :: n.lexemes
  | quotient p none => .caret :: .openParen :: (p.lexemes ++ [.closeParen])
  | quotient p (some q) =>
    .caret :: .openParen :: (p.lexemes ++ .solidus :: (q.lexemes ++ [.closeParen]))
  | superscript digits => [.superscript digits]

def apply (u : MeasureUnit) : Suffix → Option MeasureUnit
  | plain n => do (u.pow (← n.power?)).toOption
  | quotient p none => do (rationalPower u (← p.power?) Power.one 0).toOption
  | quotient p (some q) => do (rationalPower u (← p.power?) (← q.power?) 0).toOption
  | superscript digits => do (u.pow (← exponentOf .plus digits)).toOption

end Suffix

inductive Base where
  /-- `e` -/
  | euler
  /-- `10` -/
  | integer (literal : Numeral) (isInteger : literal.isInteger = true)
  deriving DecidableEq, Repr

namespace Base

def lexeme : Base → Lexeme
  | euler => .identifier "e"
  | integer literal _ => .number literal

def value : Base → Float
  | euler => Double.euler
  | integer literal _ => Double.nearest (digitsValue literal.whole)

end Base

/-! ### Operators -/

/-- What stands between the factors of a product. -/
inductive Operator where
  | times (sign : Separator)
  | divide
  deriving DecidableEq, Repr

namespace Operator

def lexeme : Operator → Lexeme
  | times sign => sign.lexeme
  | divide => .solidus

def apply : Operator → MeasureUnit → MeasureUnit → Except Error MeasureUnit
  | times _ => MeasureUnit.mul
  | divide => MeasureUnit.div

end Operator

/-! ### Trees -/

/-- A derivation of an expression whose outermost operator has the strength of the index. -/
inductive Tree : Precedence → Type where
  | number (n : SignedNumber) (note : Option String) : Tree .atom
  | symbol (name : String) (note : Option String) : Tree .atom
  | enclosed (inner : Tree .addition) (note : Option String) : Tree .atom
  | bareNote (text : String) : Tree .atom
  | logarithm (base : LogBase) (inner : Tree .addition) : Tree .exponent
  | exponential (base : Base) (operand : Tree .atom) : Tree .exponent
  | power (operand : Tree .atom) (suffix : Option Suffix) : Tree .exponent
  | single (factor : Tree .exponent) : Tree .product
  | chain (left : Tree .product) (op : Operator) (right : Tree .exponent) : Tree .product
  | sum (leading : Option (SignedNumber × Sign)) (product : Tree .product)
      (trailing : Option (Sign × SignedNumber)) : Tree .addition

/-- A derivation of a compound. -/
structure Compound where
  first : Tree .addition
  rest : List (Tree .addition)

/-! ### The words of a derivation -/

def noteLexemes (note : Option String) : List Lexeme := (note.map Lexeme.note).toList

def leadingLexemes : Option (SignedNumber × Sign) → List Lexeme
  | none => []
  | some (offset, sign) => offset.lexemes ++ [sign.lexeme]

def trailingLexemes : Option (Sign × SignedNumber) → List Lexeme
  | none => []
  | some (sign, offset) => sign.lexeme :: offset.lexemes

def Tree.lexemes : {p : Precedence} → Tree p → List Lexeme
  | _, number n note => n.lexemes ++ noteLexemes note
  | _, symbol name note => .identifier name :: noteLexemes note
  | _, enclosed inner note => .openParen :: (inner.lexemes ++ .closeParen :: noteLexemes note)
  | _, bareNote text => [.note text]
  | _, logarithm base inner => .logarithm base :: .openParen :: (inner.lexemes ++ [.closeParen])
  | _, exponential base operand => base.lexeme :: .caret :: operand.lexemes
  | _, power operand suffix => operand.lexemes ++ (suffix.map Suffix.lexemes).getD []
  | _, single factor => factor.lexemes
  | _, chain left op right => left.lexemes ++ op.lexeme :: right.lexemes
  | _, sum leading product trailing =>
    leadingLexemes leading ++ product.lexemes ++ trailingLexemes trailing

theorem SignedNumber.lexemes_ne_nil (n : SignedNumber) : n.lexemes ≠ [] := by
  simp [SignedNumber.lexemes]

theorem Tree.lexemes_ne_nil : {p : Precedence} → (t : Tree p) → t.lexemes ≠ []
  | _, number n note => by simp [lexemes, n.lexemes_ne_nil]
  | _, symbol name note | _, enclosed inner note | _, bareNote text | _, logarithm base inner
  | _, exponential base operand => nofun
  | _, power operand suffix => by simp [lexemes, operand.lexemes_ne_nil]
  | _, single factor => factor.lexemes_ne_nil
  | _, chain left op right => by simp [lexemes]
  | _, sum leading product trailing => by simp [lexemes, product.lexemes_ne_nil]

def Compound.lexemes (t : Compound) : List Lexeme :=
  t.first.lexemes ++ t.rest.flatMap fun component => .colon :: component.lexemes

/-! ### The meaning of a derivation -/

def annotated? (u : MeasureUnit) : Option String → Option MeasureUnit
  | none => some u
  | some text => (u.annotate text).toOption

/-- The unit shifted by the offset in front of it; a minus between negates it first. -/
def leadingShift (u : MeasureUnit) : Option (SignedNumber × Sign) → Option MeasureUnit
  | none => some u
  | some (offset, .plus) => do return u.shift (← offset.value?)
  | some (offset, .minus) => do
    let negation ← (Converter.ofTerms (-1) 1).toOption
    return (u.transform negation).shift (← offset.value?)

def trailingShift (u : MeasureUnit) : Option (Sign × SignedNumber) → Option MeasureUnit
  | none => some u
  | some (sign, offset) => do return u.shift (sign.apply (← offset.value?))

/-- The unit that a derivation denotes, if it has a meaning. -/
def Tree.eval (table : SymbolTable) : {p : Precedence} → Tree p → Option MeasureUnit
  | _, number n note => do
    annotated? (MeasureUnit.one.transform (← (Converter.scaling (← n.value?)).toOption)) note
  | _, symbol name note => do annotated? (← table.unit? name) note
  | _, enclosed inner note => do annotated? (← inner.eval table) note
  | _, bareNote text => (MeasureUnit.one.annotate text).toOption
  | _, logarithm base inner => do
    return (← inner.eval table).transform (← (Converter.logTo (logarithmBase base)).toOption)
  | _, exponential base operand => do
    return (← operand.eval table).transform (← (Converter.expOf base.value).toOption)
  | _, power operand none => operand.eval table
  | _, power operand (some suffix) => do suffix.apply (← operand.eval table)
  | _, single factor => factor.eval table
  | _, chain left op right => do (op.apply (← left.eval table) (← right.eval table)).toOption
  | _, sum leading product trailing => do
    trailingShift (← leadingShift (← product.eval table) leading) trailing

def Tree.hasSystem (table : SymbolTable) (system : MeasureUnit) (t : Tree .addition) : Bool :=
  (t.eval table).any fun u => u.systemUnit.toOption.any (· == system)

/-- The first component, if there is no other or all have the same system unit. -/
def Compound.eval (table : SymbolTable) (t : Compound) : Option MeasureUnit := do
  let u ← t.first.eval table
  if t.rest = [] then return u
  else
    let system ← u.systemUnit.toOption
    if t.rest.all (Tree.hasSystem table system) then return u else none

/-! ### Looking ahead -/

def skipSign : List Lexeme → List Lexeme
  | [] => []
  | x :: l => if x.sign?.isSome then l else x :: l

def skipInteger? (l : List Lexeme) : Option (List Lexeme) :=
  match skipSign l with
  | [] => none
  | x :: l => if x.integer?.isSome then some l else none

/-- Whether an integer or a quotient of two stands in front, and a parenthesis closes
behind it. -/
def startsExponent (l : List Lexeme) : Bool :=
  match skipInteger? l with
  | some (.closeParen :: _) => true
  | some (.solidus :: l) =>
    match skipInteger? l with
    | some (.closeParen :: _) => true
    | _ => false
  | _ => false

/-- Whether the words after a caret are a unit and no exponent. -/
def startsUnit : List Lexeme → Bool
  | .identifier _ :: _ | .note _ :: _ => true
  | .openParen :: l => !startsExponent l
  | _ => false

/-- Whether a number stands in front and a sign behind it. -/
def startsOffset (l : List Lexeme) : Bool :=
  match skipSign l with
  | .number _ :: x :: _ => x.sign?.isSome
  | _ => false

/-- The derivations that keep the rules on what looks like an exponent or an offset. -/
def Tree.IsPreferred : {p : Precedence} → Tree p → Prop
  | _, number _ _ | _, symbol _ _ | _, bareNote _ => True
  | _, enclosed inner _ | _, logarithm _ inner => inner.IsPreferred
  | _, exponential _ operand => startsUnit operand.lexemes = true ∧ operand.IsPreferred
  | _, power operand _ => operand.IsPreferred
  | _, single factor => factor.IsPreferred
  | _, chain left _ right => left.IsPreferred ∧ right.IsPreferred
  | _, sum leading product trailing =>
    (leading = none → startsOffset (product.lexemes ++ trailingLexemes trailing) = false) ∧
      product.IsPreferred

def Compound.IsPreferred (t : Compound) : Prop :=
  t.first.IsPreferred ∧ ∀ component ∈ t.rest, component.IsPreferred

/-! ### Nesting -/

/-- The levels of parentheses and logarithms. -/
def Tree.depth : {p : Precedence} → Tree p → Nat
  | _, number _ _ | _, symbol _ _ | _, bareNote _ => 0
  | _, enclosed inner _ | _, logarithm _ inner => inner.depth + 1
  | _, exponential _ operand | _, power operand _ => operand.depth
  | _, single factor => factor.depth
  | _, chain left _ right => max left.depth right.depth
  | _, sum _ product _ => product.depth

end Expression

end Metrology
