import Mathlib.Algebra.Order.Field.Rat
import Mathlib.Data.Nat.Prime.Basic
import Mathlib.Order.Bounds.Defs
import Mathlib.Tactic.Positivity
import Mathlib.Tactic.Ring
import Metrology.Decimal

/-!
# Decimals and rational numbers

A rational number has a finite decimal expansion when its denominator divides a power of ten, and
the expansion with the fewest places has its value. A decimal therefore comes back from its value
as long as it was, or shorter by the zeros at its end; and a number is a decimal if its expansion has
no more than 28 places and its digits no more than 96 bits.
-/
namespace Metrology

namespace Rational

/-! ### Powers of 2 and 5 -/

variable {p d j k : Nat} {v : Rat}

/-- The factors that were divided out and the rest make up the number. -/
theorem pow_mul_divideOut (p d : Nat) : p ^ (divideOut p d).1 * (divideOut p d).2 = d := by
  induction d using divideOut.induct p with
  | case1 d divides times rest found ih =>
    rw [found] at ih
    rw [divideOut, if_pos divides, found]
    calc p ^ (times + 1) * rest = p * (p ^ times * rest) := by ring
      _ = p * (d / p) := congrArg (p * ·) ih
      _ = d := Nat.mul_div_cancel' (Nat.dvd_of_mod_eq_zero divides.2.2)
  | case2 d stuck => rw [divideOut, if_neg stuck, pow_zero, one_mul]

/-- What is left after dividing out is not divisible again. -/
theorem not_dvd_divideOut (base : 1 < p) (pos : 0 < d) : ¬p ∣ (divideOut p d).2 := by
  induction d using divideOut.induct p with
  | case1 d divides times rest found ih =>
    rw [found] at ih
    rw [divideOut, if_pos divides, found]
    exact ih (Nat.div_pos (Nat.le_of_dvd pos (Nat.dvd_of_mod_eq_zero divides.2.2)) (by omega))
  | case2 d stuck =>
    rw [divideOut, if_neg stuck]
    exact fun divides => stuck ⟨base, pos, Nat.mod_eq_zero_of_dvd divides⟩

/-- A prime of ten divides a divisor of `10 ^ k` no more than `k` times. -/
theorem le_of_pow_dvd_ten_pow {q a : Nat} (ten : p * q = 10) (base : 1 < p) (coprime : Nat.Coprime p q)
    (h : p ^ a ∣ 10 ^ k) : a ≤ k := by
  rw [← ten, Nat.mul_pow] at h
  exact (Nat.pow_dvd_pow_iff_le_right base).1 ((coprime.pow a k).dvd_of_dvd_mul_right h)

theorem two_pow_mul_five_pow_dvd (a b : Nat) : 2 ^ a * 5 ^ b ∣ 10 ^ max a b := by
  rw [show 10 = 2 * 5 from rfl, Nat.mul_pow]
  exact Nat.mul_dvd_mul (Nat.pow_dvd_pow 2 (le_max_left a b)) (Nat.pow_dvd_pow 5 (le_max_right a b))

/-- The places found are enough. -/
theorem dvd_of_places? {places : Nat} (h : places? d = some places) : d ∣ 10 ^ places := by
  have twos := pow_mul_divideOut 2 d
  have fives := pow_mul_divideOut 5 (divideOut 2 d).2
  simp only [places?, Option.ite_none_right_eq_some, Option.some.injEq] at h
  obtain ⟨rest, rfl⟩ := h
  rw [rest, mul_one] at fives
  rw [← fives] at twos
  exact (dvd_of_eq twos.symm).trans (two_pow_mul_five_pow_dvd _ _)

/-- If any number of places is enough, one is found, and no larger one. -/
theorem places?_eq_some (h : d ∣ 10 ^ k) :
    ∃ places, places? d = some places ∧ places ≤ k ∧ d ∣ 10 ^ places := by
  have pos : 0 < d := Nat.pos_of_dvd_of_pos h (by positivity)
  have twos := Dvd.intro _ (pow_mul_divideOut 2 d)
  have odd := Dvd.intro_left _ (pow_mul_divideOut 2 d)
  have fives := Dvd.intro _ (pow_mul_divideOut 5 (divideOut 2 d).2)
  have rest := Dvd.intro_left _ (pow_mul_divideOut 5 (divideOut 2 d).2)
  -- Nothing else divides a power of ten, so both loops together leave 1.
  have whole : (divideOut 5 (divideOut 2 d).2).2 = 1 := by
    have not2 : ¬2 ∣ (divideOut 5 (divideOut 2 d).2).2 := fun h =>
      not_dvd_divideOut (by decide) pos (h.trans rest)
    have not5 : ¬5 ∣ (divideOut 5 (divideOut 2 d).2).2 :=
      not_dvd_divideOut (by decide) (Nat.pos_of_dvd_of_pos odd pos)
    have coprime := ((Nat.prime_two.coprime_iff_not_dvd.2 not2).mul_left
      (Nat.prime_five.coprime_iff_not_dvd.2 not5)).symm
    exact (coprime.pow_right k).eq_one_of_dvd (rest.trans (odd.trans h))
  have found : places? d = some (max (divideOut 2 d).1 (divideOut 5 (divideOut 2 d).2).1) :=
    if_pos whole
  refine ⟨_, found, max_le ?_ ?_, dvd_of_places? found⟩
  · exact le_of_pow_dvd_ten_pow (rfl : 2 * 5 = 10) (by decide) (by decide) (twos.trans h)
  · exact le_of_pow_dvd_ten_pow (rfl : 5 * 2 = 10) (by decide) (by decide)
      (fives.trans (odd.trans h))

/-! ### Decimal places -/

theorem mkRat_scaled {r : Rat} (h : r.den ∣ 10 ^ k) : mkRat (scaled r k) (10 ^ k) = r := by
  have nonzero : 10 ^ k ≠ 0 := by positivity
  have exact' : ((10 ^ k / r.den : Nat) : Int) * r.den = (10 ^ k : Nat) := by
    exact_mod_cast Nat.div_mul_cancel h
  rw [← Rat.mkRat_self r, Rat.mkRat_eq_iff nonzero r.den_nz, Rat.mkRat_self, scaled]
  change r.num * ((10 ^ k / r.den : Nat) : Int) * r.den = r.num * ((10 ^ k : Nat) : Int)
  rw [mul_assoc, exact']

/-- Whether the number is an integer in units of `10 ^ -k`. -/
def HasPlaces (v : Rat) (k : Nat) : Prop := ∃ m : Int, v * 10 ^ k = m

theorem scaled_eq (h : v.den ∣ 10 ^ k) : (scaled v k : Rat) = v * 10 ^ k := by
  have value := mkRat_scaled h
  have nonzero : (10 ^ k : Rat) ≠ 0 := by positivity
  rw [Rat.mkRat_eq_div, div_eq_iff (by exact_mod_cast nonzero)] at value
  exact_mod_cast value

/-- A number has so many places if its denominator divides that power of ten. -/
theorem hasPlaces_iff : HasPlaces v k ↔ v.den ∣ 10 ^ k := by
  refine ⟨fun ⟨m, whole⟩ => ?_, fun divides => ⟨scaled v k, (scaled_eq divides).symm⟩⟩
  have value : v = mkRat m (10 ^ k) := by
    rw [Rat.mkRat_eq_div, ← whole]
    push_cast
    exact (mul_div_cancel_right₀ v (by positivity)).symm
  have divides := Rat.den_dvd m (10 ^ k : Nat)
  rw [Rat.divInt_ofNat, ← value] at divides
  exact Int.natCast_dvd_natCast.1 divides

theorem HasPlaces.mono (h : HasPlaces v j) (le : j ≤ k) : HasPlaces v k :=
  hasPlaces_iff.2 ((hasPlaces_iff.1 h).trans (Nat.pow_dvd_pow 10 le))

/-- The places found are the fewest that the number has. -/
theorem places?_den_eq_some_iff : places? v.den = some k ↔ IsLeast {k | HasPlaces v k} k := by
  constructor
  · intro found
    refine ⟨hasPlaces_iff.2 (dvd_of_places? found), fun j enough => ?_⟩
    obtain ⟨places, found', least, -⟩ := places?_eq_some (hasPlaces_iff.1 enough)
    cases found.symm.trans found'
    exact least
  · rintro ⟨enough, least⟩
    obtain ⟨places, found, le, divides⟩ := places?_eq_some (hasPlaces_iff.1 enough)
    rw [found, Nat.le_antisymm le (least (hasPlaces_iff.2 divides))]

/-- None are found just if the number has no finite expansion. -/
theorem places?_den_eq_none_iff : places? v.den = none ↔ ∀ k, ¬HasPlaces v k := by
  constructor
  · intro none k enough
    obtain ⟨places, found, -⟩ := places?_eq_some (hasPlaces_iff.1 enough)
    cases none.symm.trans found
  · intro endless
    refine Option.eq_none_iff_forall_ne_some.2 fun k found => ?_
    exact endless k (places?_den_eq_some_iff.1 found).1

end Rational

namespace Decimal

theorem den_toRat (d : Decimal) : d.toRat.den ∣ 10 ^ d.scale := by
  have divides := Rat.den_dvd d.mantissa (10 ^ d.scale : Nat)
  rw [Rat.divInt_ofNat] at divides
  exact Int.natCast_dvd_natCast.1 divides

/-- A rational number becomes a decimal of the same value or none. -/
theorem toRat_of_ofRat {value : Rat} {d : Decimal} (ok : ofRat value = .ok d) : d.toRat = value := by
  unfold ofRat at ok
  split at ok
  · cases ok
  · rename_i scale found
    split at ok
    · split at ok
      · cases ok
        exact Rational.mkRat_scaled (Rational.dvd_of_places? found)
      · cases ok
    · cases ok

/-- The value of a decimal becomes a decimal with no more places. -/
theorem exists_ofRat_toRat (d : Decimal) :
    ∃ e, ofRat d.toRat = .ok e ∧ e.toRat = d.toRat ∧ e.scale ≤ d.scale := by
  obtain ⟨places, found, least, divides⟩ := Rational.places?_eq_some d.den_toRat
  have small : (Rational.scaled d.toRat places).natAbs ≤ d.mantissa.natAbs := by
    have value : mkRat (Rational.scaled d.toRat places) (10 ^ places) = mkRat d.mantissa (10 ^ d.scale) :=
      Rational.mkRat_scaled divides
    rw [Rat.mkRat_eq_iff (by positivity) (by positivity)] at value
    have zeros : Rational.scaled d.toRat places * (10 ^ (d.scale - places) : Nat) = d.mantissa := by
      have split : 10 ^ d.scale = 10 ^ (d.scale - places) * 10 ^ places := by
        rw [← pow_add, Nat.sub_add_cancel least]
      rw [split, Nat.cast_mul, ← mul_assoc] at value
      exact Int.eq_of_mul_eq_mul_right (by positivity) value
    rw [← zeros, Int.natAbs_mul]
    exact Nat.le_mul_of_pos_right _ (by positivity)
  have bound := small.trans_lt d.mantissa_lt
  refine ⟨⟨_, places, bound, least.trans d.scale_le⟩, ?_, Rational.mkRat_scaled divides, least⟩
  rw [ofRat, found]
  simp only [dif_pos (least.trans d.scale_le), dif_pos bound]

/-! ### Which numbers are decimals -/

open Rational (HasPlaces)

variable {v : Rat} {k : Nat}

theorem mantissa_eq (d : Decimal) : (d.mantissa : Rat) = d.toRat * 10 ^ d.scale := by
  have nonzero : (10 ^ d.scale : Rat) ≠ 0 := by positivity
  have value : d.toRat = d.mantissa / 10 ^ d.scale := by
    exact_mod_cast Rat.mkRat_eq_div d.mantissa (10 ^ d.scale)
  rw [value, div_mul_cancel₀ _ nonzero]

theorem natAbs_lt_iff {m : Int} : m.natAbs < mantissaBound ↔ |(m : Rat)| < 2 ^ 96 := by
  rw [← Int.cast_abs, Int.abs_eq_natAbs]
  exact_mod_cast Iff.rfl

/-- The three outcomes for a number: a decimal with the fewest places, more places than a decimal can
have, or more digits. -/
theorem ofRat_cases (v : Rat) :
    (∃ d, ofRat v = .ok d ∧ IsLeast {k | HasPlaces v k} d.scale ∧ d.toRat = v) ∨
    (∃ cause, ofRat v = .error (.inexact cause) ∧ ∀ k ≤ maxScale, ¬HasPlaces v k) ∨
    (ofRat v = .error .overflow ∧
      ∃ k ≤ maxScale, IsLeast {k | HasPlaces v k} k ∧ 2 ^ 96 ≤ |v * 10 ^ k|) := by
  cases found : Rational.places? v.den with
  | none =>
    refine Or.inr (Or.inl ⟨.endless v, ?_, fun k _ => Rational.places?_den_eq_none_iff.1 found k⟩)
    rw [ofRat, found]
  | some k =>
    have least := Rational.places?_den_eq_some_iff.1 found
    have divides := Rational.hasPlaces_iff.1 least.1
    by_cases short : k ≤ maxScale
    · by_cases bound : (Rational.scaled v k).natAbs < mantissaBound
      · refine Or.inl ⟨⟨_, k, bound, short⟩, ?_, least, Rational.mkRat_scaled divides⟩
        rw [ofRat, found]
        simp only [dif_pos short, dif_pos bound]
      · refine Or.inr (Or.inr ⟨?_, k, short, least, ?_⟩)
        · rw [ofRat, found]
          simp only [dif_pos short, dif_neg bound]
        · rwa [natAbs_lt_iff, Rational.scaled_eq divides, not_lt] at bound
    · refine Or.inr (Or.inl ⟨.places v k, ?_, fun j le enough => ?_⟩)
      · rw [ofRat, found]
        simp only [dif_neg short]
      · exact short ((least.2 enough).trans le)

/-- A number becomes the one decimal of its value that has no zeros at its end. -/
theorem ofRat_eq_ok_iff {d : Decimal} :
    ofRat v = .ok d ↔ IsLeast {k | HasPlaces v k} d.scale ∧ d.toRat = v := by
  constructor
  · intro ok
    obtain ⟨e, ok', least⟩ | ⟨_, error, -⟩ | ⟨error, -⟩ := ofRat_cases v
    · cases ok'.symm.trans ok
      exact least
    · cases error.symm.trans ok
    · cases error.symm.trans ok
  · rintro ⟨least, rfl⟩
    obtain ⟨e, ok, least', value⟩ | ⟨_, -, none⟩ | ⟨-, k, -, least', large⟩ := ofRat_cases d.toRat
    · have scale := least'.unique least
      have mantissa : (e.mantissa : Rat) = d.mantissa := by
        rw [mantissa_eq, mantissa_eq, value, scale]
      rw [ok]
      obtain ⟨_, _, _, _⟩ := d
      obtain ⟨_, _, _, _⟩ := e
      cases scale
      cases Int.cast_injective mantissa
      rfl
    · exact absurd least.1 (none _ d.scale_le)
    · rw [least'.unique least, ← mantissa_eq] at large
      exact absurd (natAbs_lt_iff.1 d.mantissa_lt) large.not_gt

/-- A number is a decimal if its fewest places are allowed and the mantissa at these fits. -/
theorem exists_ofRat_eq_ok_iff :
    (∃ d, ofRat v = .ok d) ↔ ∃ k ≤ maxScale, IsLeast {k | HasPlaces v k} k ∧ |v * 10 ^ k| < 2 ^ 96 := by
  constructor
  · rintro ⟨d, ok⟩
    obtain ⟨least, rfl⟩ := ofRat_eq_ok_iff.1 ok
    refine ⟨d.scale, d.scale_le, least, ?_⟩
    rw [← mantissa_eq]
    exact natAbs_lt_iff.1 d.mantissa_lt
  · rintro ⟨k, short, least, small⟩
    obtain ⟨d, ok, -⟩ | ⟨_, -, none⟩ | ⟨-, j, -, least', large⟩ := ofRat_cases v
    · exact ⟨d, ok⟩
    · exact absurd least.1 (none k short)
    · rw [least'.unique least] at large
      exact absurd small large.not_gt

/-- A number is inexact if no allowed number of places is enough. -/
theorem ofRat_eq_inexact_iff :
    (∃ cause, ofRat v = .error (.inexact cause)) ↔ ∀ k ≤ maxScale, ¬HasPlaces v k := by
  constructor
  · rintro ⟨cause, error⟩
    obtain ⟨d, ok, -⟩ | ⟨_, -, none⟩ | ⟨overflow, -⟩ := ofRat_cases v
    · cases ok.symm.trans error
    · exact none
    · cases overflow.symm.trans error
  · intro none
    obtain ⟨d, -, least, -⟩ | ⟨cause, error, -⟩ | ⟨-, k, short, least, -⟩ := ofRat_cases v
    · exact absurd least.1 (none _ d.scale_le)
    · exact ⟨cause, error⟩
    · exact absurd least.1 (none k short)

/-- A number overflows if its fewest places are allowed but the mantissa does not fit. -/
theorem ofRat_eq_overflow_iff :
    ofRat v = .error .overflow ↔
      ∃ k ≤ maxScale, IsLeast {k | HasPlaces v k} k ∧ 2 ^ 96 ≤ |v * 10 ^ k| := by
  constructor
  · intro overflow
    obtain ⟨d, ok, -⟩ | ⟨_, error, -⟩ | ⟨-, large⟩ := ofRat_cases v
    · cases ok.symm.trans overflow
    · cases error.symm.trans overflow
    · exact large
  · rintro ⟨k, short, least, large⟩
    obtain ⟨d, ok, -⟩ | ⟨_, -, none⟩ | ⟨overflow, -⟩ := ofRat_cases v
    · obtain ⟨j, -, least', small⟩ := exists_ofRat_eq_ok_iff.1 ⟨d, ok⟩
      rw [least'.unique least] at small
      exact absurd small large.not_gt
    · exact absurd least.1 (none k short)
    · exact overflow

/-- The decimals are the numbers that are integers in some unit `10 ^ -k`, `k ≤ 28`, and have at most
96 bits in the largest such unit; each becomes the decimal with that unit. A number with no such unit
is inexact, one with more bits overflows, and the value of a decimal is neither. -/
theorem ofRat_outcomes (v : Rat) :
    (∀ d, ofRat v = .ok d ↔ IsLeast {k | HasPlaces v k} d.scale ∧ d.toRat = v) ∧
    ((∃ d, ofRat v = .ok d) ↔
      ∃ k ≤ 28, IsLeast {k | HasPlaces v k} k ∧ |v * 10 ^ k| < 2 ^ 96) ∧
    ((∃ cause, ofRat v = .error (.inexact cause)) ↔ ∀ k ≤ 28, ¬HasPlaces v k) ∧
    (ofRat v = .error .overflow ↔
      ∃ k ≤ 28, IsLeast {k | HasPlaces v k} k ∧ 2 ^ 96 ≤ |v * 10 ^ k|) ∧
    ∀ d : Decimal, ∃ e, ofRat d.toRat = .ok e ∧ e.toRat = d.toRat := by
  refine ⟨fun d => ofRat_eq_ok_iff, exists_ofRat_eq_ok_iff, ofRat_eq_inexact_iff,
    ofRat_eq_overflow_iff, fun d => ?_⟩
  obtain ⟨e, ok, same, -⟩ := d.exists_ofRat_toRat
  exact ⟨e, ok, same⟩

end Decimal

end Metrology
