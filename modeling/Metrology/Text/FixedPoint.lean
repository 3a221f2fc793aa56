/-!
# Fixed-point text

A natural number of units in a given decimal place, written without an exponent:
`fixedPoint 27315 2` is `273.15` and `fixedPoint 5 3` is `0.005`.
-/
namespace Metrology.Text

/-- `n` in units of `10 ^ -places`: at least one digit before the point, exactly
`places` digits after it, and no point when there are none. -/
def fixedPoint (n places : Nat) : String :=
  if places = 0 then toString n
  else
    let digits := Nat.toDigits 10 n
    let padded := List.replicate (places + 1 - digits.length) '0' ++ digits
    let whole := padded.length - places
    String.ofList (padded.take whole) ++ "." ++ String.ofList (padded.drop whole)

/-- The sign that stands before the digits of a number. -/
def minusIf (negative : Bool) : String := if negative then "-" else ""

end Metrology.Text
