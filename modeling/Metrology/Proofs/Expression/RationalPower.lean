import Metrology.Expression.Parser
import Metrology.Proofs.MeasureUnit.Numbers
import Metrology.Proofs.MeasureUnit.Roots

/-!
# Rational powers

A unit to the power `p / q` is a root of a power, and the fraction in lowest terms says which root of
which power. Equal fractions therefore have one outcome, failures included. That the root raised again
is the power is the law of roots where factors are concerned; a number has the first root alone,
unless it is one, and that root has a power because the terms of a power are short.
-/
namespace Metrology

namespace MeasureUnit

open Converter

variable {u v w : MeasureUnit} {n d : Power} {q : Rat}

/-! ### Powers and roots of numbers -/

theorem number_beq_self (q : Rat) : (number q == number q) = true := by
  rcases scaleBy_cases q with ⟨eq, -⟩ | ⟨r, eq, -⟩
  · rw [number, eq]
    rfl
  · have self : (ratio r == ratio r) = true := ratio_beq_ratio.2 rfl
    rw [number_eq_transformed eq, transformed_beq_transformed, sameConverter, self]
    rfl

/-- Without scalings by doubles a number is an exact scaling. -/
theorem IsRegular.exists_ratio {c : Converter} (regular : u.IsRegular)
    (exact : u.EveryConverter ScalesExactly) (value : u.number? = some c) : ∃ r, c = ratio r := by
  obtain ⟨mark, rfl, scale⟩ := number?_eq_some.1 value
  cases regular with | transformed _ _ _ normal =>
  cases exact with | transformed _ _ outer =>
  exact eq_ratio_of_scalesExactly outer normal.1 scale

/-- The powers of a number are numbers that are not too long. -/
theorem exists_number_of_pow {r : Ratio} (value : u.number? = some (ratio r))
    (ok : u.pow n = .ok w) : ∃ q : Rat, q ≠ 0 ∧ IsShort q ∧ w = number q := by
  obtain ⟨c, d, value', power, rfl⟩ | ⟨none, -⟩ := pow_eq_ok.1 ok
  · cases value.symm.trans value'
    rw [pow_ratio] at power
    split at power
    · rename_i short
      cases power
      exact ⟨_, zpow_ne_zero _ r.toRat_ne_zero, Ratio.isShort_toRat_zpow short, rfl⟩
    · cases power
  · rw [value] at none
    cases none

/-- Numbers have no other root than the first, apart from one. -/
theorem positiveRoot?_number (nonzero : q ≠ 0) (root : (number q).positiveRoot? d = some v) :
    v = number q ∧ (d.val = 1 ∨ q = 1) := by
  unfold positiveRoot? at root
  split at root
  · rename_i first
    exact ⟨(Option.some.inj root).symm, Or.inl first⟩
  · rcases scaleBy_cases q with ⟨-, zero | rfl⟩ | ⟨r, eq, -⟩
    · exact absurd zero nonzero
    · rw [number_one] at root ⊢
      exact ⟨(Option.some.inj root).symm, Or.inr rfl⟩
    · rw [number_eq_transformed eq] at root
      cases root

/-- The root of a number that is not too long has it as its power. -/
theorem pow_positiveRoot?_number (nonzero : q ≠ 0) (short : IsShort q)
    (root : (number q).positiveRoot? d = some v) : v.pow d = .ok (number q) := by
  obtain ⟨rfl, first | rfl⟩ := positiveRoot?_number nonzero root
  · rw [number_pow nonzero (by rw [first]; rfl), if_pos short, first, zpow_one]
  · rw [number_one]
    rfl

/-! ### Roots of powers -/

theorem root?_of_pos (positive : 0 < d.val) : u.root? d = u.positiveRoot? d := by
  rw [root?, if_neg (Int.ne_of_gt positive), if_pos positive]

/-- Roots are made of the units that the radicand is made of. -/
theorem IsProductOf.positiveRoot? {P : MeasureUnit → Prop} (factor : ∀ u, P u → u.IsFactor)
    (hu : u.IsProductOf P) (positive : 0 < d.val) (root : u.positiveRoot? d = some v) :
    v.IsProductOf P := by
  obtain ⟨eq, apart, kind⟩ := hu.factors factor
  have product : u.IsProductOf IsFactor :=
    ⟨u.factors, eq, apart, fun f hf => ⟨factor _ (kind f hf).1, (kind f hf).2⟩⟩
  obtain ⟨hv, multiple⟩ := (product.positiveRoot?_eq_some_iff positive).1 root
  obtain ⟨eq', apart', kind'⟩ := hv.factors fun _ h => h
  refine ⟨v.factors, eq', apart', fun g hg => ⟨?_, (kind' g hg).2⟩⟩
  obtain ⟨f, hf, same⟩ := exists_of_forall₂ multiple.flip g hg
  exact same.1 ▸ (kind f hf).1

/-- The root of a power raised again is the power, and both equal themselves if the unit does. -/
theorem IsRegular.pow_root (regular : u.IsRegular) (exact : u.EveryConverter ScalesExactly)
    (factors : ∀ fs, u = .product fs → ∀ f ∈ fs, f.unit.IsFactor) (positive : 0 < d.val)
    (power : u.pow n = .ok w) (root : w.root? d = some v) :
    v.pow d = .ok w ∧ ((u == u) = true → (v == v) = true ∧ (w == w) = true) := by
  rw [root?_of_pos positive] at root
  cases value : u.number? with
  | some c =>
    obtain ⟨r, rfl⟩ := regular.exists_ratio exact value
    obtain ⟨q, nonzero, short, rfl⟩ := exists_number_of_pow value power
    have same := number_beq_self q
    refine ⟨pow_positiveRoot?_number nonzero short root, fun _ => ⟨?_, same⟩⟩
    rwa [(positiveRoot?_number nonzero root).1]
  | none =>
    have hw := (regular.isProductOf value factors fun _ _ factor => factor).pow (fun _ h => h) power
    have nonzero : d.val ≠ 0 := Int.ne_of_gt positive
    obtain ⟨hv, multiple⟩ := (hw.positiveRoot?_eq_some_iff positive).1 root
    refine ⟨(hv.pow_eq_ok_iff nonzero).2 ⟨hw, multiple⟩, fun self => ?_⟩
    have hw := (regular.isProductOf_isGenerator value factors self).pow IsGenerator.isFactor power
    have hv := hw.positiveRoot? IsGenerator.isFactor positive root
    exact ⟨hv.beq_of_exponent hv fun _ => rfl, hw.beq_of_exponent hw fun _ => rfl⟩

end MeasureUnit

namespace Expression

open MeasureUnit Reading

variable {u v : MeasureUnit} {p q n d : Power} {position : Nat}

/-! ### The fraction in lowest terms -/

/-- The terms of a quotient without their divisor, with the sign in the first of them. -/
theorem sign_mul_tdiv_gcd (x : ℤ) {y : ℤ} (nonzero : y ≠ 0) :
    (if y < 0 then -1 else 1) * x.tdiv (Int.gcd x y) = (x / y : ℚ).num ∧
    (if y < 0 then -1 else 1) * y.tdiv (Int.gcd x y) = (x / y : ℚ).den := by
  have sign : (if y < 0 then -1 else 1 : ℤ) = y.sign := by
    split
    · rename_i negative
      exact (Int.sign_eq_neg_one_of_neg negative).symm
    · exact (Int.sign_eq_one_of_pos (by omega)).symm
  have left : (Int.gcd x y : ℤ) ∣ x := Int.gcd_dvd_left ..
  have right : (Int.gcd x y : ℤ) ∣ y := Int.gcd_dvd_right ..
  rw [← Rat.divInt_eq_div, Rat.num_divInt, Rat.den_divInt, if_neg nonzero, sign,
    Int.tdiv_eq_ediv_of_dvd left, Int.tdiv_eq_ediv_of_dvd right, ← Int.mul_ediv_assoc _ left,
    ← Int.mul_ediv_assoc _ right, Int.sign_mul_self, Int.gcd_comm y x]
  exact ⟨rfl, (Int.natCast_ediv _ _).symm⟩

/-- Without the least power, which has no opposite, the terms are in range. -/
theorem exists_lowestTerms (nonzero : q.val ≠ 0) (hp : p.val ≠ -2147483648)
    (hq : q.val ≠ -2147483648) :
    ∃ n d : Power, n.val = (p.val / q.val : ℚ).num ∧ d.val = (p.val / q.val : ℚ).den := by
  have inside (r : Power) (least : r.val ≠ -2147483648) : r.val.natAbs ≤ 2147483647 := by
    have lower := r.lower
    have upper := r.upper
    omega
  have num : (p.val / q.val : ℚ).num.natAbs ≤ 2147483647 := by
    rw [← Rat.divInt_eq_div]
    by_cases zero : p.val = 0
    · rw [zero, Rat.zero_divInt]
      exact Nat.zero_le _
    · have divides := Int.natAbs_dvd_natAbs.2 (Rat.num_dvd p.val nonzero)
      exact (Nat.le_of_dvd (Int.natAbs_pos.2 zero) divides).trans (inside p hp)
  have den : (p.val / q.val : ℚ).den ≤ 2147483647 := by
    rw [← Rat.divInt_eq_div]
    have divides := Int.natAbs_dvd_natAbs.2 (Rat.den_dvd p.val q.val)
    exact (Nat.le_of_dvd (Int.natAbs_pos.2 nonzero) divides).trans (inside q hq)
  generalize (p.val / q.val : ℚ) = fraction at num den ⊢
  exact ⟨⟨fraction.num, by omega, by omega⟩, ⟨fraction.den, by omega, by omega⟩, rfl, rfl⟩

/-- The outcome is that of the power and the root that the fraction in lowest terms names. -/
theorem rationalPower_eq (nonzero : q.val ≠ 0) (num : n.val = (p.val / q.val : ℚ).num)
    (den : d.val = (p.val / q.val : ℚ).den) :
    rationalPower u p q position = ((u.pow n).mapError (locate position)).bind fun power =>
      (power.root? d).elim (.error (.malformed position (.noRoot d.val))) .ok := by
  obtain ⟨first, second⟩ := sign_mul_tdiv_gcd p.val nonzero
  rw [rationalPower, if_neg nonzero]
  simp only [first, second, Power.ofInt?_eq_some_iff.2 num, Power.ofInt?_eq_some_iff.2 den]
  cases u.pow n with
  | error e => rfl
  | ok w => cases root : w.root? d <;> simp [Except.mapError, bind, Except.bind, root]

theorem rationalPower_eq_ok (nonzero : q.val ≠ 0) (num : n.val = (p.val / q.val : ℚ).num)
    (den : d.val = (p.val / q.val : ℚ).den) :
    rationalPower u p q position = .ok v ↔ ∃ w, u.pow n = .ok w ∧ w.root? d = some v := by
  rw [rationalPower_eq nonzero num den]
  cases u.pow n with
  | error e => simp [Except.mapError, Except.bind]
  | ok w => cases root : w.root? d <;> simp [Except.mapError, Except.bind, root]

/-- The outcome of a rational power depends on the fraction alone, and a power that there is, raised to
the denominator, is the unit raised to the numerator, in lowest terms. A NaN, of which `==` knows
only by its mark, makes no difference as long as the unit itself is told from others. -/
theorem rationalPower_lowestTerms (regular : u.IsRegular)
    (exact : u.EveryConverter Converter.ScalesExactly)
    (factors : ∀ fs, u = .product fs → ∀ f ∈ fs, f.unit.IsFactor) (nonzero : q.val ≠ 0)
    (hp : p.val ≠ -2147483648) (hq : q.val ≠ -2147483648) :
    (∀ p' q' : Power, q'.val ≠ 0 → p'.val ≠ -2147483648 → q'.val ≠ -2147483648 →
      p.val * q'.val = p'.val * q.val →
      ∀ position, rationalPower u p q position = rationalPower u p' q' position) ∧
    (∀ position v, rationalPower u p q position = .ok v →
      ∃ (n d : Power) (w : MeasureUnit), n.val = (p.val / q.val : ℚ).num ∧
        d.val = (p.val / q.val : ℚ).den ∧
        u.pow n = .ok w ∧ v.pow d = .ok w ∧
        ((u == u) = true → (v == v) = true ∧ (w == w) = true)) := by
  obtain ⟨n, d, num, den⟩ := exists_lowestTerms nonzero hp hq
  constructor
  · intro p' q' nonzero' _ _ cross position
    have same : (p.val / q.val : ℚ) = p'.val / q'.val := by
      rw [div_eq_div_iff (Int.cast_ne_zero.2 nonzero) (Int.cast_ne_zero.2 nonzero')]
      exact_mod_cast cross
    rw [rationalPower_eq nonzero num den, rationalPower_eq nonzero' (same ▸ num) (same ▸ den)]
  · intro position v ok
    obtain ⟨w, power, root⟩ := (rationalPower_eq_ok nonzero num den).1 ok
    have positive : 0 < d.val := by
      rw [den]
      exact Int.natCast_pos.2 (Rat.den_pos _)
    exact ⟨n, d, w, num, den, power, regular.pow_root exact factors positive power root⟩

/-- Square kilometres over a fourth power of seconds to the power of minus a half, which is the quotient
of `2` and `-4` and that of `-3` and `6`. -/
theorem rationalPower_lowestTerms_acceleration :
    let u := product [⟨kilometre, ⟨2, by decide, by decide⟩⟩, ⟨base "s", ⟨-4, by decide, by decide⟩⟩]
    let p : Power := ⟨2, by decide, by decide⟩
    let q : Power := ⟨-4, by decide, by decide⟩
    let p' : Power := ⟨-3, by decide, by decide⟩
    let q' : Power := ⟨6, by decide, by decide⟩
    (u.IsRegular ∧ u.EveryConverter Converter.ScalesExactly ∧
      (∀ fs, u = product fs → ∀ f ∈ fs, f.unit.IsFactor) ∧ q.val ≠ 0 ∧ p.val ≠ -2147483648 ∧
      q.val ≠ -2147483648 ∧ (u == u) = true) ∧
    (∀ position, rationalPower u p q position = rationalPower u p' q' position) ∧
    ∃ v n d w, rationalPower u p q 0 = .ok v ∧ n.val = -1 ∧ d.val = 2 ∧ u.pow n = .ok w ∧
      v.pow d = .ok w ∧ (v == v) = true ∧ (w == w) = true := by
  intro u p q p' q'
  have square : IsBuilt (product [⟨kilometre, ⟨2, by decide, by decide⟩⟩]) :=
    .pow ⟨2, by decide, by decide⟩ isBuilt_kilometre rfl
  have seconds : IsBuilt (product [⟨base "s", ⟨4, by decide, by decide⟩⟩]) :=
    .pow ⟨4, by decide, by decide⟩ (.base "s") rfl
  have built : u.IsBuilt := .div square seconds rfl
  have exact : u.EveryConverter Converter.ScalesExactly := by
    refine .product ?_
    have thousand : Converter.ScalesExactly thousandfold :=
      fun x step => nomatch List.mem_singleton.1 step
    simpa using ⟨everyConverter_kilometre thousand, .base "s"⟩
  have factors : ∀ fs, u = product fs → ∀ f ∈ fs, f.unit.IsFactor := by
    intro fs eq
    rw [← product.inj eq]
    decide +kernel
  have self : (u == u) = true := by decide +kernel
  have numerator : (((2 : ℤ) : ℚ) / (-4 : ℤ)).num = -1 := by decide +kernel
  have denominator : (((2 : ℤ) : ℚ) / (-4 : ℤ)).den = 2 := by decide +kernel
  let two : Power := ⟨2, by decide, by decide⟩
  have ok : rationalPower u p q 0 = .ok (product [⟨kilometre, Power.negOne⟩, ⟨base "s", two⟩]) :=
    (rationalPower_eq_ok (p := p) (q := q) (n := Power.negOne) (d := two) (by decide) numerator.symm
      (congrArg Nat.cast denominator.symm)).2 ⟨_, rfl, rfl⟩
  obtain ⟨same, root⟩ := rationalPower_lowestTerms built.isRegular exact factors (p := p) (q := q)
    (by decide) (by decide) (by decide)
  obtain ⟨n, d, w, num, den, power, back, equal⟩ := root 0 _ ok
  exact ⟨⟨built.isRegular, exact, factors, by decide, by decide, by decide, self⟩,
    same p' q' (by decide) (by decide) (by decide) rfl, _, n, d, w, ok, num.trans numerator,
    den.trans (congrArg Nat.cast denominator), power, back, equal self⟩

end Expression

end Metrology
