/-!
# Spelling choices

Two things may be written in more than one way: the sign between factors and the
exponents. Both have names by which they can be chosen.
-/
namespace Metrology.Expression

/-- The sign between factors. -/
inductive Separator where
  /-- `m·s` -/
  | middleDot
  /-- `m*s` -/
  | asterisk
  deriving DecidableEq, Repr

namespace Separator

def text : Separator → String
  | middleDot => "·"
  | asterisk => "*"

def name : Separator → String
  | middleDot => "middle-dot"
  | asterisk => "asterisk"

def ofName? : String → Option Separator
  | "middle-dot" => some middleDot
  | "asterisk" => some asterisk
  | _ => none

end Separator

/-- How exponents are written. -/
inductive ExponentForm where
  /-- `m^2` -/
  | caret
  /-- `m²` -/
  | superscript
  deriving DecidableEq, Repr

namespace ExponentForm

def name : ExponentForm → String
  | caret => "caret"
  | superscript => "superscript"

def ofName? : String → Option ExponentForm
  | "caret" => some caret
  | "superscript" => some superscript
  | _ => none

end ExponentForm

structure Style where
  separator : Separator := .middleDot
  exponents : ExponentForm := .caret
  deriving DecidableEq, Repr

namespace Style

def withSeparator (s : Style) (separator : Separator) : Style :=
  { s with separator := separator }

def withExponents (s : Style) (exponents : ExponentForm) : Style :=
  { s with exponents := exponents }

end Style

end Metrology.Expression
