/-!
# Exact scalings

A `Ratio` scales by `dividend / divisor`. Its terms are kept as they were given
and need not be in lowest terms; products and powers are reduced. Scaling by zero
cannot be undone and scaling by one does nothing, so neither is a `Ratio`, and an
operation whose result may be one returns `none` for it.
-/
namespace Metrology

/-- A scaling by `dividend / divisor`, neither zero nor one. -/
structure Ratio where
  dividend : Int
  divisor : Nat
  divisor_pos : 0 < divisor
  dividend_ne_zero : dividend ≠ 0
  dividend_ne_divisor : dividend ≠ divisor
  deriving DecidableEq, Repr

namespace Ratio

/-- Why two integers are not the terms of a `Ratio`. -/
inductive Defect where
  | nonpositiveDivisor (divisor : Int)
  | equalTerms
  | zeroDividend
  deriving DecidableEq, Repr

def Defect.message : Defect → String
  | nonpositiveDivisor d => "negative or zero divisor " ++ toString d
  | equalTerms => "dividend equal to divisor would result in the identity converter"
  | zeroDividend => "zero dividend is not invertible"

/-- The ratio with the given terms. -/
def ofTerms (dividend divisor : Int) : Except Defect Ratio :=
  if positive : 0 < divisor then
    if equal : dividend = divisor then .error .equalTerms
    else if zero : dividend = 0 then .error .zeroDividend
    else .ok ⟨dividend, divisor.toNat, by omega, zero, by omega⟩
  else .error (.nonpositiveDivisor divisor)

/-- The number that the ratio scales by. -/
def toRat (r : Ratio) : Rat := mkRat r.dividend r.divisor

theorem toRat_ne_zero (r : Ratio) : r.toRat ≠ 0 :=
  (Rat.mkRat_ne_zero (Nat.ne_of_gt r.divisor_pos)).2 r.dividend_ne_zero

theorem toRat_pow_ne_zero (r : Ratio) (n : Nat) : r.toRat ^ n ≠ 0 := by
  induction n with
  | zero => simp
  | succ n ih =>
    rw [Rat.pow_succ]
    exact fun h => (Rat.mul_eq_zero.1 h).elim ih r.toRat_ne_zero

/-- The scaling by a number other than zero, in lowest terms; `none` for one. -/
def ofRat? (q : Rat) (nonzero : q ≠ 0) : Option Ratio :=
  if one : q = 1 then none
  else some {
    dividend := q.num
    divisor := q.den
    divisor_pos := q.den_pos
    dividend_ne_zero := fun h => nonzero (Rat.num_eq_zero.1 h)
    dividend_ne_divisor := fun h => one (by
      have gcd : q.num.natAbs.gcd q.den = 1 := q.reduced
      have den : q.den = 1 := by simpa [h] using gcd
      exact Rat.ext (by simp [h, den]) (by simp [den])) }

/-- Both scalings in turn; `none` when they cancel. -/
def mul? (a b : Ratio) : Option Ratio :=
  ofRat? (a.toRat * b.toRat) fun h =>
    (Rat.mul_eq_zero.1 h).elim a.toRat_ne_zero b.toRat_ne_zero

/-- The binary digits of the longer term. -/
def bits (r : Ratio) : Nat :=
  max (r.dividend.natAbs.log2 + 1) (r.divisor.log2 + 1)

/-- The longest terms, in binary digits, that a power may have. -/
def maxPowerBits : Nat := 4096

/-- The scaling repeated `n` times; `none` when that is no scaling at all. -/
def pow? (r : Ratio) (n : Nat) : Option Ratio :=
  ofRat? (r.toRat ^ n) (r.toRat_pow_ne_zero n)

/-- The terms exchanged, the sign staying with the dividend. -/
def inverse (r : Ratio) : Ratio where
  dividend := r.dividend.sign * r.divisor
  divisor := r.dividend.natAbs
  divisor_pos := Int.natAbs_pos.2 r.dividend_ne_zero
  dividend_ne_zero := by
    have pos := r.divisor_pos
    have sign := mt Int.sign_eq_zero_iff_zero.1 r.dividend_ne_zero
    exact Int.mul_ne_zero sign (by omega)
  dividend_ne_divisor := by
    have pos := r.divisor_pos
    have ne := r.dividend_ne_divisor
    rcases Int.lt_trichotomy r.dividend 0 with h | h | h
    · rw [Int.sign_eq_neg_one_of_neg h]
      omega
    · exact absurd h r.dividend_ne_zero
    · rw [Int.sign_eq_one_of_pos h]
      omega

end Ratio

end Metrology
