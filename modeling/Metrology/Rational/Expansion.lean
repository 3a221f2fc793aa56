import Metrology.Text.FixedPoint

/-!
# Rational numbers as text

A rational number is written in lowest terms, as `n` or `n/d`. When `d` divides a
power of ten it also has a finite decimal expansion: `places?` is the least number
of places that suffices and `decimalText?` the expansion itself.
-/
namespace Metrology.Rational

/-- The number in lowest terms, `n` or `n/d`. -/
def text (r : Rat) : String :=
  if r.den = 1 then toString r.num else toString r.num ++ "/" ++ toString r.den

/-- The number that `n` or `n/d` stands for. -/
def ofText? (text : String) : Option Rat :=
  match text.splitOn "/" with
  | [n] => n.toInt?.map fun n => (n : Rat)
  | [n, d] => do
    let numerator ← n.toInt?
    let denominator ← d.toNat?
    if denominator = 0 then none else some (mkRat numerator denominator)
  | _ => none

/-- How often `p` divides `d`, and what is left of `d` after that. -/
def divideOut (p d : Nat) : Nat × Nat :=
  if 1 < p ∧ 0 < d ∧ d % p = 0 then
    let (times, rest) := divideOut p (d / p)
    (times + 1, rest)
  else (0, d)
termination_by d
decreasing_by exact Nat.div_lt_self (by omega) (by omega)

/-- The least `k` for which `d` divides `10 ^ k`: the larger of the powers of 2 and of 5 in `d`, if
`d` has no other factor. -/
def places? (d : Nat) : Option Nat :=
  let twos := divideOut 2 d
  let fives := divideOut 5 twos.2
  if fives.2 = 1 then some (max twos.1 fives.1) else none

/-- The number in units of `10 ^ -k`, when its denominator divides `10 ^ k`. -/
def scaled (r : Rat) (k : Nat) : Int :=
  r.num * ((Nat.pow 10 k / r.den : Nat) : Int)

/-- The finite decimal expansion, if there is one. -/
def decimalText? (r : Rat) : Option String :=
  (places? r.den).map fun k =>
    Text.minusIf (r.num < 0) ++ Text.fixedPoint (scaled r k).natAbs k

end Metrology.Rational
