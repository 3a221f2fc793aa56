import Metrology.Expression.Parser
import Metrology.Expression.Printer

/-!
# Unit expressions as texts

`parse` reads a unit off a text, and `format` writes one. At the end of a text a
note in braces belongs to the whole expression before it, and `format` writes the
outermost notes of a unit there, without parentheses. The note starts at the first
brace that opens after the last one that closed, so that it may hold more of them.
-/
namespace Metrology.Expression

/-- The expression and the note of a text that ends with a note. -/
def splitNote? (text : List Char) : Option (List Char × List Char) :=
  match (Text.trimEnd text).reverse with
  | '\x7d' :: reversed =>
    let tail := (reversed.takeWhile (· != '\x7d')).reverse
    let head := (reversed.dropWhile (· != '\x7d')).reverse
    match tail.dropWhile (· != '\x7b') with
    | [] => none
    | _ :: note => some (head ++ tail.takeWhile (· != '\x7b'), note)
  | _ => none

/-- The unit that a text denotes. A blank text is the dimensionless unit. -/
def parse (table : SymbolTable) (text : String) : Except Error MeasureUnit :=
  if text.toList.all Text.isBlank then .ok MeasureUnit.one
  else
    match splitNote? text.toList with
    | some (body, note) => do
      (← parseBody table (String.ofList body)).annotate (String.ofList note)
    | none => parseBody table text

/-- The text of a unit. -/
def format (printer : Printer) : MeasureUnit → String
  | .noted actual note => format printer actual ++ "\x7b" ++ note ++ "\x7d"
  | unit => (printer.render unit).text

/-- Hands the text of a unit to a receiver, which may refuse it. -/
def formatTo {σ : Type} (printer : Printer) (unit : MeasureUnit)
    (receive : String → Option σ) : Except Error σ :=
  match receive (format printer unit) with
  | some received => .ok received
  | none => .error .sink

end Metrology.Expression
