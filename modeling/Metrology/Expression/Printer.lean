import Metrology.Catalog
import Metrology.Expression.Style
import Metrology.MeasureUnit.System
import Metrology.Text.Superscript

/-!
# Writing unit expressions

A unit with a symbol is written as that symbol. Any other is written by its
structure. Each piece of text carries the strength of its outermost operator, and
is put in parentheses where a stronger one is needed.

A transformed unit is written as its parent with the steps of the converter
applied one by one. Where some of the steps lead to a unit with a symbol, the text
starts from that unit: `m℃`, and not `(K+273.15)/1000`. Where steps amount to a
multiple, it goes in front, if the symbol reads back as the same unit.
-/
namespace Metrology.Expression

/-- The strength of an operator, the weakest first. -/
inductive Precedence where
  | addition
  | product
  | exponent
  /-- A symbol, or text in parentheses. -/
  | atom
  deriving DecidableEq, Repr

def Precedence.strength : Precedence → Nat
  | addition => 0
  | product => 1
  | exponent => 2
  | atom => 3

/-- A text and the strength of its outermost operator. -/
structure Rendered where
  text : String
  precedence : Precedence
  deriving DecidableEq, Repr

/-- What a unit is written with. -/
structure Printer where
  table : SymbolTable
  style : Style

namespace Rendered

def atom (text : String) : Rendered := ⟨text, .atom⟩

def enclosed (text : String) : String := "(" ++ text ++ ")"

/-- The text, in parentheses if its operator is weaker than `needed`. -/
def textFor (r : Rendered) (needed : Precedence) : String :=
  if r.precedence.strength < needed.strength then enclosed r.text else r.text

/-- The text, or a one where there is none: the dimensionless unit. -/
def textOrOne (r : Rendered) : String := if r.text.isEmpty then "1" else r.text

end Rendered

namespace Printer

/-! ### Products -/

def exponentText (p : Printer) (n : Nat) : String :=
  match p.style.exponents with
  | .caret => "^" ++ toString n
  | .superscript => String.ofList ((Nat.toDigits 10 n).map Text.toSuperscript)

/-- A unit with the magnitude of its power. -/
def factorText (p : Printer) (r : Rendered) (n : Nat) : String :=
  if n = 1 then r.textFor .exponent else r.textFor .atom ++ p.exponentText n

def separated (p : Printer) (texts : List String) : String :=
  p.style.separator.text.intercalate texts

/-- The positive powers, then a solidus and the negative ones, in parentheses when
there are several. -/
def productText (p : Printer) (parts : List (Factor Rendered)) : String :=
  let text (f : Factor Rendered) := p.factorText f.unit f.power.val.natAbs
  let positive := parts.filter fun f => 0 < f.power.val
  let negative := parts.filter fun f => !(0 < f.power.val)
  let numerator := p.separated (positive.map text)
  match negative with
  | [] => numerator
  | _ =>
    let denominator := p.separated (negative.map text)
    (if positive.isEmpty then "1" else numerator) ++ "/" ++
      if negative.length > 1 then Rendered.enclosed denominator else denominator

/-! ### Converters -/

/-- Whether the unit reads as a number where an operand is expected. -/
def isNumeric (u : MeasureUnit) : Bool := u.isOne || u.number?.isSome

/-- The magnitude of an offset: exact if it has a finite expansion, else rounded. -/
def offsetText (offset : Rat) : String :=
  match Rational.decimalText? offset with
  | some text => text
  | none => Double.text (Double.nearest offset)

/-- The name of the logarithm to a base. -/
def logarithmName? (base : Float) : Option String :=
  if base == Double.euler then some "ln"
  else (Double.integer? base).map fun n => if n = 10 then "log" else "log" ++ toString n

/-- The base of an exponential as it is written. -/
def exponentialName? (base : Float) : Option String :=
  if base == Double.euler then some "e" else (Double.integer? base).map toString

/-- A converter that the language has no word for. It does not read back. -/
def unspoken (c : Converter) (r : Rendered) : Rendered :=
  .atom (r.text ++ "[" ++ c.text ++ "]")

def addOffset (offset : Rat) (parent : MeasureUnit) (r : Rendered) : Rendered :=
  let operand := if isNumeric parent then Rendered.enclosed r.textOrOne else r.text
  ⟨operand ++ (if offset.num < 0 then "-" else "+") ++ offsetText offset.abs, .addition⟩

def addFactor (p : Printer) (factor : Float) (r : Rendered) : Rendered :=
  let operand := r.textFor .product
  ⟨operand ++ (if operand.isEmpty then "" else p.style.separator.text) ++
    Double.text factor, .product⟩

/-- A dividend of one is left out where there is something to divide. -/
def addRatio (p : Printer) (ratio : Ratio) (r : Rendered) : Rendered :=
  let operand := r.textFor .product
  let dividend :=
    if operand.isEmpty then toString ratio.dividend
    else if ratio.dividend = 1 then ""
    else p.style.separator.text ++ toString ratio.dividend
  let divisor := if ratio.divisor = 1 then "" else "/" ++ toString ratio.divisor
  ⟨operand ++ dividend ++ divisor, .product⟩

def addLogarithm (base : Float) (r : Rendered) : Rendered :=
  match logarithmName? base with
  | some name => ⟨name ++ Rendered.enclosed r.textOrOne, .exponent⟩
  | none => unspoken (.log base) r

/-- A number as the exponent takes two pairs of parentheses, because with one the
text would be a power. -/
def addExponential (base : Float) (parent : MeasureUnit) (r : Rendered) : Rendered :=
  match exponentialName? base with
  | some name =>
    let operand :=
      if isNumeric parent then Rendered.enclosed (Rendered.enclosed r.textOrOne)
      else r.textFor .atom
    ⟨name ++ "^" ++ operand, .exponent⟩
  | none => unspoken (.exp base) r

/-- The unit with a multiple in front, if the converter is one and the symbol reads
back as this unit. -/
def withMultiple? (p : Printer) (c : Converter) (parent : MeasureUnit) (r : Rendered) :
    Option Rendered :=
  if r.precedence = .atom && !r.text.isEmpty then do
    let multiple ← p.table.multiple? c
    let unit ← p.table.unit? (multiple ++ r.text)
    if unit == parent.transform c then some (.atom (multiple ++ r.text)) else none
  else none

/-- The text of `parent` transformed by a converter, from the text of `parent`. -/
def convert (p : Printer) (c : Converter) (parent : MeasureUnit) (r : Rendered) : Rendered :=
  match p.withMultiple? c parent r with
  | some rendered => rendered
  | none =>
    match c with
    | .identity => r
    | .add offset => addOffset offset parent r
    | .multiply factor => p.addFactor factor r
    | .ratio ratio => p.addRatio ratio r
    | .log base => addLogarithm base r
    | .exp base => addExponential base parent r
    | .pair outer inner =>
      p.convert inner (parent.transform outer) (p.convert outer parent r)

/-! ### Chains of steps -/

/-- A unit with its text, and the steps that lead from it to another unit. -/
structure Chain where
  unit : MeasureUnit
  rendered : Rendered
  steps : List Converter

/-- The unit that the first `n` steps lead to, if it has a symbol. -/
def namedAfter? (p : Printer) (unit : MeasureUnit) (steps : List Converter) (n : Nat) :
    Option Chain := do
  let named := unit.transform (Converter.ofSteps (steps.take n))
  let symbol ← p.table.symbol? named
  return ⟨named, .atom symbol, steps.drop n⟩

/-- The farthest unit with a symbol on the way, the end itself left out. -/
def farthestNamed? (p : Printer) (unit : MeasureUnit) (steps : List Converter) :
    Option Chain :=
  (List.range' 1 (steps.length - 1)).reverse.findSome? (p.namedAfter? unit steps)

theorem length_steps_farthestNamed? {p : Printer} {unit : MeasureUnit}
    {steps : List Converter} {chain : Chain} (h : p.farthestNamed? unit steps = some chain) :
    chain.steps.length < steps.length := by
  obtain ⟨n, mem, named⟩ := List.exists_of_findSome?_eq_some h
  simp only [List.mem_reverse, List.mem_range'_1] at mem
  simp only [namedAfter?, Option.bind_eq_bind, Option.bind_eq_some_iff] at named
  obtain ⟨symbol, -, eq⟩ := named
  cases eq
  simp only [List.length_drop]
  omega

/-- The chain from the last unit with a symbol that can be reached. -/
def Chain.advance (p : Printer) (chain : Chain) : Chain :=
  match h : p.farthestNamed? chain.unit chain.steps with
  | none => chain
  | some next =>
    have := length_steps_farthestNamed? h
    next.advance p
termination_by chain.steps.length

/-- The text of `parent` transformed by a converter, from a named unit on the way if
there is one. -/
def chainText (p : Printer) (parent : MeasureUnit) (r : Rendered) (c : Converter) :
    Rendered :=
  match p.farthestNamed? parent c.steps with
  | none => p.convert c parent r
  | some chain =>
    let last := chain.advance p
    p.convert (Converter.ofSteps last.steps) last.unit last.rendered

/-- The units that are written in terms of another: masses by the gram and volumes
by the litre. -/
def substitutes : List (MeasureUnit × MeasureUnit) :=
  [(Catalog.kilogram, Catalog.gram), (Catalog.cubicMetre, Catalog.litre)]

/-- The chain to a transformed unit from the unit that stands in for its parent, if
one does and has a symbol. -/
def substituted? (p : Printer) (parent : MeasureUnit) (c : Converter) :
    Option (MeasureUnit × String × Converter) :=
  substitutes.findSome? fun (system, preferred) =>
    if parent == system then
      match p.table.symbol? preferred, preferred.systemConverter with
      | some symbol, .ok ofPreferred =>
        some (preferred, symbol, ofPreferred.inverse.compose c)
      | _, _ => none
    else none

mutual

/-- The text of a unit. A note is enclosed with its unit, so that the text means
the same wherever it stands. -/
def render (p : Printer) : MeasureUnit → Rendered
  | unit@(.base symbol) => .atom ((p.table.symbol? unit).getD symbol)
  | unit@(.alternate symbol _) => .atom ((p.table.symbol? unit).getD symbol)
  | unit@(.product fs) =>
    match p.table.symbol? unit with
    | some symbol => .atom symbol
    | none => ⟨p.productText (renderFactors p fs), .product⟩
  | unit@(.transformed parent c _) =>
    match p.table.symbol? unit with
    | some symbol => .atom symbol
    | none =>
      match p.substituted? parent c with
      | some (preferred, symbol, converter) =>
        p.chainText preferred (.atom symbol) converter
      | none => p.chainText parent (render p parent) c
  | unit@(.noted actual note) =>
    match p.table.symbol? unit with
    | some symbol => .atom symbol
    | none => .atom (Rendered.enclosed ((render p actual).text ++ "\x7b" ++ note ++ "\x7d"))
termination_by structural u => u

/-- The texts of the units of factors. -/
def renderFactors (p : Printer) : List (Factor MeasureUnit) → List (Factor Rendered)
  | [] => []
  | f :: fs => renderFactor p f :: renderFactors p fs
termination_by structural fs => fs

/-- The text of the unit of a factor. -/
def renderFactor (p : Printer) : Factor MeasureUnit → Factor Rendered
  | ⟨u, n⟩ => ⟨render p u, n⟩
termination_by structural f => f

end

end Printer

end Metrology.Expression
