import Metrology.MeasureUnit.Basic
import Metrology.Token.Basic

/-!
# Errors

An `Error` is the cause of a failed operation on units or unit expressions. Units
are kept as they are: how they print is the business of the message.
-/
namespace Metrology

/-- What an expression needs at some place. -/
inductive Expectation where
  | endOfInput
  | openParen
  | closeParen
  | integerExponent
  | number
  | operand
  deriving DecidableEq, Repr

/-- What is wrong with an expression. -/
inductive Fault where
  | unterminatedNote
  | unexpectedCharacter (c : Char)
  | expected (what : Expectation) (found : Lexeme)
  | exponentOutOfRange
  | numberOutOfRange
  | zeroDenominator
  | noRoot (degree : Int)
  | incompatibleComponents
  | tooDeep (limit : Nat)
  deriving DecidableEq, Repr

inductive Error where
  /-- The expression is wrong at a position. -/
  | malformed (position : Nat) (fault : Fault)
  | unknownUnit (symbol : String) (position : Nat)
  | conversion (cause : ConversionError)
  /-- The unit has no linear converter to its system unit. -/
  | nonLinear (unit : MeasureUnit)
  | incompatible (source target : MeasureUnit)
  | exponentOverflow
  | invalidNote (note : String)
  /-- The receiver of a text refused it. -/
  | sink

namespace Expectation

def message : Expectation → String
  | endOfInput => "expected end of input"
  | openParen => "expected OpenParen"
  | closeParen => "expected CloseParen"
  | integerExponent => "expected an integer exponent"
  | number => "expected a number"
  | operand => "expected a unit, a number or '('"

end Expectation

/-- The lexeme as an error shows it. -/
def Lexeme.shown : Lexeme → String
  | endOfInput => "end of input"
  | note text => "'\x7b" ++ text ++ "\x7d'"
  | lexeme => "'" ++ lexeme.value ++ "'"

def Fault.message : Fault → String
  | unterminatedNote => "unterminated annotation"
  | unexpectedCharacter c => "unexpected character '" ++ String.singleton c ++ "'"
  | expected what found => what.message ++ ", found " ++ found.shown
  | exponentOutOfRange => "exponent out of range"
  | numberOutOfRange => "number out of range"
  | zeroDenominator => "zero exponent denominator"
  | noRoot degree => "cannot take root " ++ toString degree ++ " of a unit with these powers"
  | incompatibleComponents => "compound unit components must be compatible"
  | tooDeep limit =>
    "expression too deeply nested (max depth: " ++ toString limit ++ ")"

end Metrology
