import Mathlib.Data.Rat.Lemmas
import Metrology.Expression.Printer
import Metrology.Proofs.Converter.Scalings
import Metrology.Proofs.MeasureUnit.Products

/-!
# Numbers as units

The dimensionless unit scaled by a number stands for that number. Multiplying by it and
dividing by it scale a unit.
-/
namespace Metrology

/-! ### Numbers that are not too long -/

theorem Ratio.bits_le_iff {r : Ratio} {n : Nat} :
    r.bits ≤ n ↔ r.dividend.natAbs < 2 ^ n ∧ r.divisor < 2 ^ n := by
  rw [bits, Nat.max_le, Nat.succ_le_iff, Nat.succ_le_iff,
    Nat.log2_lt (Int.natAbs_ne_zero.2 r.dividend_ne_zero), Nat.log2_lt (Nat.ne_of_gt r.divisor_pos)]

/-- Whether the terms of a number have no more binary digits than a power may have. -/
def IsShort (q : Rat) : Prop :=
  q.num.natAbs < 2 ^ Ratio.maxPowerBits ∧ q.den < 2 ^ Ratio.maxPowerBits

instance (q : Rat) : Decidable (IsShort q) := inferInstanceAs (Decidable (_ ∧ _))

theorem isShort_one : IsShort 1 :=
  ⟨Nat.one_lt_two_pow (by decide), Nat.one_lt_two_pow (by decide)⟩

/-- A number is as long as its reciprocal. -/
theorem isShort_inv {q : Rat} (nonzero : q ≠ 0) : IsShort q⁻¹ ↔ IsShort q := by
  have num : q.num ≠ 0 := Rat.num_ne_zero.2 nonzero
  rw [IsShort, IsShort, Rat.num_inv, Rat.den_inv, Int.natAbs_mul, Int.natAbs_sign_of_ne_zero num,
    Nat.one_mul, Int.natAbs_natCast, if_neg num, and_comm]

namespace Ratio

theorem natAbs_num_toRat_le (r : Ratio) : r.toRat.num.natAbs ≤ r.dividend.natAbs := by
  have divides : r.toRat.num ∣ r.dividend := by
    rw [toRat, Rat.mkRat_eq_divInt]
    exact Rat.num_dvd _ (Int.ofNat_ne_zero.2 (Nat.ne_of_gt r.divisor_pos))
  exact Nat.le_of_dvd (Int.natAbs_pos.2 r.dividend_ne_zero) (Int.natAbs_dvd_natAbs.2 divides)

theorem den_toRat_le (r : Ratio) : r.toRat.den ≤ r.divisor := by
  have divides : (r.toRat.den : Int) ∣ r.divisor := by
    rw [toRat, Rat.mkRat_eq_divInt]
    exact Rat.den_dvd _ _
  exact Nat.le_of_dvd r.divisor_pos (Int.natCast_dvd_natCast.1 divides)

/-- A power that stays short makes a short number. -/
theorem isShort_toRat_pow {r : Ratio} {n : Nat} (h : r.bits * n ≤ maxPowerBits) :
    IsShort (r.toRat ^ n) := by
  obtain ⟨dividend, divisor⟩ := bits_le_iff.1 (Nat.le_refl r.bits)
  have short {x : Nat} (bound : x < 2 ^ r.bits) : x ^ n < 2 ^ maxPowerBits := by
    by_cases zero : n = 0
    · rw [zero, pow_zero]
      exact isShort_one.2
    · calc
        x ^ n < (2 ^ r.bits) ^ n := Nat.pow_lt_pow_left bound zero
        _ = 2 ^ (r.bits * n) := (Nat.pow_mul 2 r.bits n).symm
        _ ≤ 2 ^ maxPowerBits := Nat.pow_le_pow_right Nat.two_pos h
  rw [IsShort, Rat.num_pow, Rat.den_pow, Int.natAbs_pow]
  exact ⟨short (r.natAbs_num_toRat_le.trans_lt dividend), short (r.den_toRat_le.trans_lt divisor)⟩

/-- The powers of a scaling are not too long. -/
theorem isShort_toRat_zpow {r : Ratio} {n : Int} (h : r.bits * n.natAbs ≤ maxPowerBits) :
    IsShort (r.toRat ^ n) := by
  rcases Int.natAbs_eq n with eq | eq
  · rw [eq, zpow_natCast]
    exact isShort_toRat_pow h
  · rw [eq, zpow_neg, zpow_natCast, isShort_inv (r.toRat_pow_ne_zero _)]
    exact isShort_toRat_pow h

end Ratio

/-- The scaling by a number can be kept or undone by a power unless its terms are too long. -/
theorem Converter.pow_scaleBy {q : Rat} {n : Int} (nonzero : q ≠ 0) (unit : n.natAbs = 1) :
    (scaleBy q).pow n = if IsShort q then .ok (scaleBy (q ^ n)) else .error .overflow := by
  rcases scaleBy_cases q with ⟨eq, zero | rfl⟩ | ⟨r, eq, reduced, rfl⟩
  · exact absurd zero nonzero
  · have power : identity.powNat n.natAbs = .ok identity := by
      rw [unit]
      rfl
    rw [if_pos isShort_one, one_zpow, eq, pow_eq_ok]
    exact ⟨identity, power, (ite_self identity).symm⟩
  · obtain ⟨num, den⟩ := r.num_den_toRat reduced
    have short : r.bits * n.natAbs ≤ Ratio.maxPowerBits ↔ IsShort r.toRat := by
      rw [unit, Nat.mul_one, Ratio.bits_le_iff, IsShort, num, den]
    rw [eq, pow_ratio]
    simp only [short]

namespace MeasureUnit

open Converter

def number (q : Rat) : MeasureUnit := one.transform (scaleBy q)

theorem isOver_number (q : Rat) : IsOver (number q) one (scaleBy q) := by
  have isOver := (isOver_self (u := one) rfl).isOver_transform (scaleBy q)
  change IsOver (number q) one (scaleBy q).normalize at isOver
  rwa [normalize_scaleBy] at isOver

@[simp] theorem number_one : number 1 = one := by
  rw [number, scaleBy_one]
  rfl

theorem number_eq_transformed {q : Rat} {r : Ratio} (h : scaleBy q = ratio r) :
    number q = transformed one (ratio r) := by
  rw [(isOver_number q).eq, h]
  rfl

theorem IsOver.eq_of_transformed {parent p : MeasureUnit} {c d : Converter} {mark : Option Nat}
    (isOver : IsOver (transformed p d mark) parent c) : p = parent ∧ d = c := by
  obtain ⟨eq, plain, -⟩ := isOver
  by_cases change : c = .identity
  · rw [change, overParent_identity] at eq
    rw [← eq] at plain
    cases plain
  · rw [overParent_of_ne change] at eq
    cases eq
    exact ⟨rfl, rfl⟩

theorem IsOver.scale_of_number? {u parent : MeasureUnit} {c d : Converter} (isOver : IsOver u parent c)
    (h : u.number? = some d) : d = c := by
  obtain ⟨mark, rfl, -⟩ := number?_eq_some.1 h
  exact isOver.eq_of_transformed.2

/-- What is scaled from the dimensionless unit is a number. -/
theorem eq_number_of_number? {u : MeasureUnit} {c : Converter} (h : u.IsProper)
    (value : u.number? = some c) : ∃ q : Rat, q ≠ 0 ∧ u = number q := by
  obtain ⟨parent, d, isOver, proper⟩ := h
  cases isOver.scale_of_number? value
  obtain ⟨mark, rfl, scale⟩ := number?_eq_some.1 value
  obtain ⟨rfl, -⟩ := isOver.eq_of_transformed
  obtain ⟨r, rfl, reduced⟩ := eq_ratio_of_isScale proper isOver.normal scale
  refine ⟨r.toRat, r.toRat_ne_zero, ?_⟩
  rw [number_eq_transformed (scaleBy_toRat reduced), isOver.eq]
  rfl

/-- Multiplying by a number scales. -/
theorem mul_number {v : MeasureUnit} {q : Rat} (h : ∀ c, v.number? = some c → v.IsProper)
    (nonzero : q ≠ 0) : v.mul (number q) = .ok (v.transform (scaleBy q)) := by
  by_cases one : v.isOne = true
  · rw [mul, if_pos one, isOne_iff.1 one]
    rfl
  · rw [mul, if_neg one]
    rcases scaleBy_cases q with ⟨-, zero | rfl⟩ | ⟨r, eq, -, -⟩
    · exact absurd zero nonzero
    · rw [number_one, scaleBy_one]
      rfl
    · rw [number_eq_transformed eq, if_neg (by simp [isOne])]
      have scale : (transformed MeasureUnit.one (ratio r)).number? = some (ratio r) := rfl
      rw [scale, ← number_eq_transformed eq]
      cases value : v.number? with
      | none => rw [eq]
      | some d =>
        -- Both are numbers, and it is the second that is scaled.
        obtain ⟨p, nonzero', rfl⟩ := eq_number_of_number? (h d value) value
        have other := (isOver_number p).scale_of_number? value
        simp only
        rw [other, (isOver_number q).transform, (isOver_number p).transform,
          scaleBy_compose nonzero nonzero', scaleBy_compose nonzero' nonzero, Rat.mul_comm]

/-- So does multiplying a number by a unit. -/
theorem number_mul {q : Rat} (nonzero : q ≠ 0) (v : MeasureUnit) :
    (number q).mul v = .ok (v.transform (scaleBy q)) := by
  rcases scaleBy_cases q with ⟨-, zero | rfl⟩ | ⟨r, eq, -, -⟩
  · exact absurd zero nonzero
  · rw [number_one, scaleBy_one]
    rfl
  · rw [number_eq_transformed eq, eq, mul, if_neg (by simp [isOne])]
    split
    · rename_i one
      rw [isOne_iff.1 one]
      rfl
    · rfl

/-- The first power of a number and its reciprocal, unless its terms are too long. -/
theorem number_pow {q : Rat} {n : Power} (nonzero : q ≠ 0) (unit : n.val.natAbs = 1) :
    (number q).pow n =
      if IsShort q then .ok (number (q ^ n.val)) else .error (.conversion .overflow) := by
  have power := pow_scaleBy nonzero unit
  rcases scaleBy_cases q with ⟨-, zero | rfl⟩ | ⟨r, eq, -, -⟩
  · exact absurd zero nonzero
  · rw [if_pos isShort_one, one_zpow, number_one]
    rfl
  · have plain : (number q).number? = some (scaleBy q) := by
      rw [number_eq_transformed eq, eq]
      rfl
    rw [pow, plain]
    simp only [power]
    by_cases short : IsShort q
    · rw [if_pos short, if_pos short]
      rfl
    · rw [if_neg short, if_neg short]

/-- A number has a reciprocal unless it is too long. -/
theorem reciprocal_number {q : Rat} (nonzero : q ≠ 0) :
    (number q).reciprocal =
      if IsShort q then .ok (number q⁻¹) else .error (.conversion .overflow) := by
  rw [reciprocal, number_pow nonzero rfl, ← zpow_neg_one]
  rfl

/-- Dividing by an integer that is not too long. -/
theorem div_number {v : MeasureUnit} {d : Nat} (h : v.IsProper) (pos : 0 < d)
    (bound : d < 2 ^ 4096) : v.div (number d) = .ok (v.transform (scaleBy (d : Rat)⁻¹)) := by
  have nonzero : (d : Rat) ≠ 0 := by exact_mod_cast Nat.ne_of_gt pos
  have short : IsShort d := by
    rw [← Ratio.maxPowerBits] at bound
    rw [IsShort, Rat.num_natCast, Rat.den_natCast]
    exact ⟨bound, isShort_one.2⟩
  refine div_eq_ok.2 ⟨_, ?_, mul_number (fun _ _ => h) (inv_ne_zero nonzero)⟩
  rw [reciprocal_number nonzero, if_pos short]

/-! ### Units that read as numbers -/

open Expression.Printer (isNumeric)

theorem isNumeric_number (q : Rat) : isNumeric (number q) = true := by
  rcases scaleBy_cases q with ⟨eq, -⟩ | ⟨r, eq, -⟩
  · rw [number, eq]
    rfl
  · rw [number_eq_transformed eq]
    rfl

theorem isNumeric_of_isFactor {u : MeasureUnit} (h : u.IsFactor) : isNumeric u = false := by
  rw [isNumeric, isOne_of_isFactor h, h.2]
  rfl

/-- A proper unit that is a number is that of a number other than zero. -/
theorem eq_number_of_isNumeric {u : MeasureUnit} (h : u.IsProper) (numeric : isNumeric u = true) :
    ∃ q : Rat, q ≠ 0 ∧ u = number q := by
  rw [isNumeric, Bool.or_eq_true] at numeric
  rcases numeric with one | value
  · exact ⟨1, one_ne_zero, by rw [isOne_iff.1 one, number_one]⟩
  · obtain ⟨c, value⟩ := Option.isSome_iff_exists.1 value
    exact eq_number_of_number? h value

/-- A scaled number is a number. -/
theorem isNumeric_transform_ratio {u : MeasureUnit} {r : Ratio} (h : u.IsProper)
    (reduced : r.IsReduced) (numeric : isNumeric u = true) :
    isNumeric (u.transform (ratio r)) = true := by
  obtain ⟨q, nonzero, rfl⟩ := eq_number_of_isNumeric h numeric
  have product : (number q).transform (ratio r) = number (q * r.toRat) := by
    rw [(isOver_number q).transform, ← scaleBy_toRat reduced, scaleBy_compose nonzero r.toRat_ne_zero,
      (isOver_number _).eq]
  rw [product]
  exact isNumeric_number _

end MeasureUnit

end Metrology
