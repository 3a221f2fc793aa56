import Metrology.Error

/-!
# A place among tokens

A `Cursor` is what a reader of an expression has in front of it: the tokens still
to come and the position where the text stops. Past the last token there is the
end token, however often it is passed. The cursor also counts levels of nesting
that were entered and never left, because reading stopped for being too deep.

`Reading` is the type of everything that moves a cursor and may fail. A failure
leaves the cursor where it came up.
-/
namespace Metrology.Expression

structure Cursor where
  rest : List Token
  stop : Nat
  depth : Nat
  deriving DecidableEq, Repr

/-- The token `n` places ahead. -/
def Cursor.peek (c : Cursor) (n : Nat) : Token :=
  c.rest.getD n ⟨.endOfInput, c.stop⟩

abbrev Reading := EStateM Error Cursor

namespace Reading

def token : Reading Token := do return (← get).peek 0

def lexeme : Reading Lexeme := do return (← token).lexeme

/-- Passes the next token. -/
def skip : Reading PUnit :=
  modify fun c => { c with rest := c.rest.tail }

/-- Passes the next token and returns it. -/
def advance : Reading Token := do
  let t ← token
  skip
  return t

def fail {α : Type} (position : Nat) (fault : Fault) : Reading α :=
  throw (.malformed position fault)

/-- Fails because the next token is not the one that is needed. -/
def unexpected {α : Type} (what : Expectation) : Reading α := do
  let t ← token
  fail t.position (.expected what t.lexeme)

/-- Passes a token that has to be there. -/
def expect (lexeme : Lexeme) (what : Expectation) : Reading PUnit := do
  if (← Reading.lexeme) = lexeme then skip else unexpected what

/-- The result of a computation that does not read. -/
def lift {α : Type} : Except Error α → Reading α
  | .ok a => pure a
  | .error e => throw e

/-- A converter, or the error that there is none. -/
def converter (c : Except ConversionError Converter) : Reading Converter :=
  lift (c.mapError Error.conversion)

/-- The error with an exponent out of range located in the text. -/
def locate (position : Nat) : Error → Error
  | .exponentOverflow => .malformed position .exponentOutOfRange
  | e => e

/-- A unit, an exponent out of range being a fault at `position`. -/
def unitAt (position : Nat) (u : Except Error MeasureUnit) : Reading MeasureUnit :=
  lift (u.mapError (locate position))

end Reading

end Metrology.Expression
