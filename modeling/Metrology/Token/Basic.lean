import Metrology.Token.Numeral

/-!
# Tokens of unit expressions

A `Lexeme` is a word of the language with what it carries, a `Token` a lexeme and
the place where it starts. Positions count characters from zero.
-/
namespace Metrology

/-- The base that a logarithm is written with: `ln` has Euler's number, `log2`
the digits that follow, and `log` none, which stands for ten. -/
inductive LogBase where
  | natural
  | decimal (digits : List Char)
  deriving DecidableEq, Repr

inductive Lexeme where
  /-- `12`, `2.54`, `1e-3` -/
  | number (literal : Numeral)
  /-- A run of superscript digits, kept as ASCII digits. -/
  | superscript (digits : List Char)
  /-- A text in braces. -/
  | note (text : String)
  | identifier (name : String)
  /-- `log`, `log2` or `ln` before a parenthesis -/
  | logarithm (base : LogBase)
  | plus
  | minus
  | asterisk
  | middleDot
  | solidus
  | caret
  | colon
  | openParen
  | closeParen
  | endOfInput
  deriving DecidableEq, Repr

namespace LogBase

/-- The base as it is named. -/
def name : LogBase → String
  | natural => "e"
  | decimal digits => String.ofList digits

/-- The number of characters that spell the logarithm. -/
def width : LogBase → Nat
  | natural => 2
  | decimal digits => 3 + digits.length

end LogBase

namespace Lexeme

/-- What the lexeme carries, or its one character. -/
def value : Lexeme → String
  | number literal => String.ofList literal.text
  | superscript digits => String.ofList digits
  | note text => text
  | identifier name => name
  | logarithm base => base.name
  | plus => "+"
  | minus => "-"
  | asterisk => "*"
  | middleDot => "·"
  | solidus => "/"
  | caret => "^"
  | colon => ":"
  | openParen => "("
  | closeParen => ")"
  | endOfInput => ""

/-- The number of characters that spell the lexeme. -/
def width : Lexeme → Nat
  | note text => text.length + 2
  | logarithm base => base.width
  | lexeme => lexeme.value.length

/-- The sign that the lexeme is. -/
def sign? : Lexeme → Option Sign
  | plus => some .plus
  | minus => some .minus
  | _ => none

/-- The digits of an unsigned integer. -/
def integer? : Lexeme → Option (List Char)
  | number literal => if literal.isInteger then some literal.whole else none
  | _ => none

end Lexeme

structure Token where
  lexeme : Lexeme
  position : Nat
  deriving DecidableEq, Repr

end Metrology
