import Metrology.SymbolMap

/-!
# The International System of Units

The seven base units, a choice of derived units and accepted ones, the symbols
that they have and the twenty decimal multiples from `y` to `Y`.
-/
namespace Metrology.Catalog

/-- A unit scaled by a constant other than zero. -/
def scaled (u : MeasureUnit) (dividend divisor : Int) : MeasureUnit :=
  match Converter.ofTerms dividend divisor with
  | .ok converter => u.transform converter
  | .error _ => u

/-- The product of units and their powers, which are small. -/
def derived (powers : List (MeasureUnit × Int)) : MeasureUnit :=
  MeasureUnit.ofFactors (powers.filterMap fun (u, n) => (Power.ofInt? n).map (⟨u, ·⟩))

def metre : MeasureUnit := .base "m"

def kilogram : MeasureUnit := .base "kg"

def second : MeasureUnit := .base "s"

def ampere : MeasureUnit := .base "A"

def kelvin : MeasureUnit := .base "K"

def mole : MeasureUnit := .base "mol"

def candela : MeasureUnit := .base "cd"

def gram : MeasureUnit := scaled kilogram 1 1000

def cubicMetre : MeasureUnit := derived [(metre, 3)]

def litre : MeasureUnit := scaled cubicMetre 1 1000

def newton : MeasureUnit :=
  .alternate "N" (derived [(kilogram, 1), (metre, 1), (second, -2)])

def pascal : MeasureUnit :=
  .alternate "Pa" (derived [(newton, 1), (metre, -2)])

def joule : MeasureUnit :=
  .alternate "J" (derived [(newton, 1), (metre, 1)])

def watt : MeasureUnit :=
  .alternate "W" (derived [(joule, 1), (second, -1)])

def hertz : MeasureUnit := .alternate "Hz" (derived [(second, -1)])

def radian : MeasureUnit := .alternate "rad" MeasureUnit.one

def minute : MeasureUnit := scaled second 60 1

def hour : MeasureUnit := scaled second 3600 1

def day : MeasureUnit := scaled second 86400 1

def celsius : MeasureUnit := kelvin.shift (mkRat 27315 100)

def percent : MeasureUnit := scaled MeasureUnit.one 1 100

/-- The symbol that each unit is written with. -/
def labels : List (MeasureUnit × String) := [
  (metre, "m"), (kilogram, "kg"), (second, "s"), (ampere, "A"), (kelvin, "K"),
  (mole, "mol"), (candela, "cd"), (gram, "g"), (litre, "L"), (newton, "N"),
  (pascal, "Pa"), (joule, "J"), (watt, "W"), (hertz, "Hz"), (radian, "rad"),
  (minute, "min"), (hour, "h"), (day, "d"), (celsius, "℃"), (percent, "%")]

/-- Further symbols that are read. -/
def aliases : List (MeasureUnit × String) := [(litre, "l"), (celsius, "°C")]

/-- The decimal multiples and their exponents of ten. -/
def multiples : List (String × Int) := [
  ("Y", 24), ("Z", 21), ("E", 18), ("P", 15), ("T", 12), ("G", 9), ("M", 6), ("k", 3),
  ("h", 2), ("da", 1), ("d", -1), ("c", -2), ("m", -3), ("\u00b5", -6), ("n", -9),
  ("p", -12), ("f", -15), ("a", -18), ("z", -21), ("y", -24)]

/-- The scaling by a power of ten. -/
def powerOfTen (exponent : Int) : Converter :=
  match Converter.ofTerms (Nat.pow 10 exponent.toNat : Nat) (Nat.pow 10 (-exponent).toNat : Nat) with
  | .ok converter => converter
  | .error _ => .identity

/-- The symbols of the system. The micro sign and the Greek letter are both read. -/
def symbols : SymbolMap :=
  let labelled := labels.foldl (fun m entry => m.addLabel entry.1 entry.2) SymbolMap.empty
  let named := aliases.foldl (fun m entry => m.addAlias entry.1 entry.2) labelled
  let scaled := multiples.foldl (fun m entry => m.addMultiple (powerOfTen entry.2) entry.1) named
  scaled.addMultipleAlias (powerOfTen (-6)) "\u03bc"

end Metrology.Catalog
