import Mathlib.Data.Nat.Size
import Metrology.Proofs.Converter.Exactness

/-!
# Powers of chains of scalings

An exact scaling has a power as long as its terms stay short, and a chain of scalings has one if all its
steps do. The power is the scaling by the power of the factor, however the chain is nested: so powers add
up as exponents do.
-/
namespace Metrology

/-- The bits of the longer term are its length in the binary system. -/
theorem Ratio.bits_eq (r : Ratio) : r.bits = max r.dividend.natAbs.size r.divisor.size := by
  have length {n : Nat} (some : n ≠ 0) : n.log2 + 1 = n.size :=
    eq_of_forall_ge_iff fun k => by rw [Nat.succ_le_iff, Nat.log2_lt some, Nat.size_le]
  rw [bits, length (Int.natAbs_ne_zero.2 r.dividend_ne_zero), length (Nat.ne_of_gt r.divisor_pos)]

namespace Converter

variable {c : Converter} {n : Nat}

/-- Whether the terms of every scaling in a chain stay short when it is repeated. -/
def StaysShort (c : Converter) (n : Nat) : Prop :=
  ∀ r, ratio r ∈ c.steps → r.bits * n ≤ Ratio.maxPowerBits

theorem staysShort_zero (c : Converter) : c.StaysShort 0 := fun r _ => by simp

/-- A scaling stays short as long as the bits of its longer term, repeated, are within the bound. -/
theorem staysShort_ratio {r : Ratio} : (ratio r).StaysShort n ↔ r.bits * n ≤ Ratio.maxPowerBits := by
  simp [StaysShort, steps]

theorem staysShort_pair {outer inner : Converter} :
    (pair outer inner).StaysShort n ↔ outer.StaysShort n ∧ inner.StaysShort n := by
  simp only [StaysShort, steps, List.mem_append]
  exact ⟨fun h => ⟨fun r hr => h r (Or.inl hr), fun r hr => h r (Or.inr hr)⟩,
    fun h r hr => hr.elim (h.1 r) (h.2 r)⟩

theorem powNat_ratio (r : Ratio) (some : n ≠ 0) : (ratio r).powNat n = ratioPower r n := by
  rw [powNat, if_neg some]

theorem powNat_pair {outer inner : Converter} (scale : (pair outer inner).isScale = true)
    (some : n ≠ 0) : (pair outer inner).powNat n = (do
      return (← outer.powNat n).compose (← inner.powNat n)) := by
  rw [powNat, if_neg some]
  exact if_pos scale

/-- A chain of scalings is repeated if all its scalings stay short. -/
theorem powNat_of_staysShort (rational : c.IsRational) (scale : c.isScale = true)
    (short : c.StaysShort n) : c.powNat n = .ok (scaleBy (c.factor ^ n)) := by
  have exists_power : ∃ d, c.powNat n = .ok d := by
    by_cases none : n = 0
    · refine ⟨identity, ?_⟩
      unfold powNat
      rw [if_pos none]
    induction c with
    | ratio r =>
      refine ⟨ofRatio? (r.pow? n), ?_⟩
      rw [powNat_ratio r none, ratioPower, if_neg (Nat.not_lt.2 (staysShort_ratio.1 short))]
    | pair outer inner ho hi =>
      obtain ⟨scaleOuter, scaleInner⟩ := (Bool.and_eq_true _ _).mp scale
      obtain ⟨shortOuter, shortInner⟩ := staysShort_pair.1 short
      obtain ⟨p, powerOuter⟩ := ho rational.1 scaleOuter shortOuter
      obtain ⟨q, powerInner⟩ := hi rational.2 scaleInner shortInner
      refine ⟨p.compose q, ?_⟩
      rw [powNat_pair scale none, powerOuter, powerInner]
      rfl
    | identity => cases scale
    | _ => cases rational
  obtain ⟨d, power⟩ := exists_power
  rw [power, powNat_of_isRational rational power]

/-- If one of them does not, the power overflows. -/
theorem powNat_of_not_staysShort (rational : c.IsRational) (scale : c.isScale = true)
    (long : ¬c.StaysShort n) : c.powNat n = .error .overflow := by
  have some : n ≠ 0 := by
    rintro rfl
    exact long c.staysShort_zero
  induction c with
  | ratio r =>
    rw [powNat_ratio r some, ratioPower, if_pos (Nat.not_le.1 (mt staysShort_ratio.2 long))]
  | pair outer inner ho hi =>
    obtain ⟨scaleOuter, scaleInner⟩ := (Bool.and_eq_true _ _).mp scale
    rw [powNat_pair scale some]
    by_cases shortOuter : outer.StaysShort n
    · have longInner : ¬inner.StaysShort n := fun shortInner =>
        long (staysShort_pair.2 ⟨shortOuter, shortInner⟩)
      rw [powNat_of_staysShort rational.1 scaleOuter shortOuter, hi rational.2 scaleInner longInner]
      rfl
    · rw [ho rational.1 scaleOuter shortOuter]
      rfl
  | identity => cases scale
  | _ => cases rational

/-- The same for powers with any exponent. -/
theorem pow_of_staysShort {n : Int} (rational : c.IsRational) (scale : c.isScale = true)
    (short : c.StaysShort n.natAbs) : c.pow n = .ok (scaleBy (c.factor ^ n)) := by
  have power := pow_eq_ok.2 ⟨_, powNat_of_staysShort rational scale short, rfl⟩
  rw [power, pow_of_isRational rational power]

/-- A power that would grow too long is refused. -/
theorem pow_of_not_staysShort {n : Int} (rational : c.IsRational) (scale : c.isScale = true)
    (long : ¬c.StaysShort n.natAbs) : c.pow n = .error .overflow := by
  rw [pow, powNat_of_not_staysShort rational scale long]
  rfl

theorem not_staysShort_iff : ¬c.StaysShort n ↔
    ∃ r, ratio r ∈ c.steps ∧ 4096 < max r.dividend.natAbs.size r.divisor.size * n := by
  simp only [StaysShort, Ratio.bits_eq, Ratio.maxPowerBits, not_forall, not_le, exists_prop]

/-- The scaling by a number is the identity for one, and else has the terms of the number. -/
theorem scaleBy_kinds {q : Rat} (nonzero : q ≠ 0) :
    (scaleBy q = identity ∧ q = 1) ∨
      ∃ r : Ratio, scaleBy q = ratio r ∧ r.IsReduced ∧ r.toRat = q ∧ q ≠ 1 := by
  rcases scaleBy_cases q with ⟨eq, zero | one⟩ | ⟨r, eq, reduced, rfl⟩
  · exact absurd zero nonzero
  · exact Or.inl ⟨eq, one⟩
  · exact Or.inr ⟨r, eq, reduced, rfl, r.toRat_ne_one⟩

/-- A chain of exact scalings has every power for which no scaling in it grows too long, the bits of its
longer term times the exponent being at most 4096; else the power overflows. The power is the scaling by
the power of the factor, in lowest terms, or the identity if that is one; and powers are composed by
adding their exponents. -/
theorem pow_of_scalings (rational : c.IsRational) (scale : c.isScale = true) (m n : Int) :
    (c.pow n = .error .overflow ↔
      ∃ r, ratio r ∈ c.steps ∧ 4096 < max r.dividend.natAbs.size r.divisor.size * n.natAbs) ∧
    (c.pow n ≠ .error .overflow → ∃ p, c.pow n = .ok p ∧
      ((p = identity ∧ c.factor ^ n = 1) ∨
        ∃ r, p = ratio r ∧ r.IsReduced ∧ r.toRat = c.factor ^ n ∧ c.factor ^ n ≠ 1)) ∧
    ∀ p q s, c.pow m = .ok p → c.pow n = .ok q → c.pow (m + n) = .ok s → p.compose q = s := by
  have nonzero (k : Int) : c.factor ^ k ≠ 0 := zpow_ne_zero k c.factor_ne_zero
  refine ⟨?_, fun fits => ?_, fun p q s first second sum => ?_⟩
  · rw [← not_staysShort_iff]
    refine ⟨fun overflow short => ?_, pow_of_not_staysShort rational scale⟩
    cases overflow.symm.trans (pow_of_staysShort rational scale short)
  · have short : c.StaysShort n.natAbs := by
      by_contra long
      exact fits (pow_of_not_staysShort rational scale long)
    exact ⟨_, pow_of_staysShort rational scale short, scaleBy_kinds (nonzero n)⟩
  · calc
      p.compose q = (scaleBy (c.factor ^ m)).compose (scaleBy (c.factor ^ n)) := by
        rw [pow_of_isRational rational first, pow_of_isRational rational second]
      _ = scaleBy (c.factor ^ m * c.factor ^ n) := scaleBy_compose (nonzero m) (nonzero n)
      _ = s := by rw [← zpow_add₀ c.factor_ne_zero, pow_of_isRational rational sum]

/-- Minus one and two two-thousandths: the square of both undone is a million, and cancels two thirds of
the cube; their power 400 is too long. -/
theorem pow_of_scalings_thousandth :
    let chain := pair (ratio ⟨-1, 1, by decide, by decide, by decide⟩)
      (ratio ⟨2, 2000, by decide, by decide, by decide⟩)
    let square := ratio ⟨1000000, 1, by decide, by decide, by decide⟩
    let cube := ratio ⟨-1, 1000000000, by decide, by decide, by decide⟩
    let single := ratio ⟨-1, 1000, by decide, by decide, by decide⟩
    chain.IsRational ∧ chain.isScale = true ∧
    ((∃ r, ratio r ∈ chain.steps ∧ 4096 < max r.dividend.natAbs.size r.divisor.size * 400) ∧
      chain.pow (-400) = .error .overflow) ∧
    (chain.pow (-2) ≠ .error .overflow ∧ ∃ p, chain.pow (-2) = .ok p ∧
      ((p = identity ∧ chain.factor ^ (-2 : Int) = 1) ∨ ∃ r, p = ratio r ∧ r.IsReduced ∧
        r.toRat = chain.factor ^ (-2 : Int) ∧ chain.factor ^ (-2 : Int) ≠ 1)) ∧
    chain.pow 3 = .ok cube ∧ chain.pow (-2) = .ok square ∧ chain.pow (3 + -2) = .ok single ∧
      cube.compose square = single := by
  intro chain square cube single
  have rational : chain.IsRational := by decide
  have scale : chain.isScale = true := by decide
  have long : ∃ r, ratio r ∈ chain.steps ∧
      4096 < max r.dividend.natAbs.size r.divisor.size * 400 :=
    ⟨_, List.mem_cons_of_mem _ (List.mem_singleton_self _), by decide +kernel⟩
  have second : chain.pow (-2) = .ok square := by decide +kernel
  have third : chain.pow 3 = .ok cube := by decide +kernel
  have first : chain.pow (3 + -2) = .ok single := by decide +kernel
  have fits : chain.pow (-2) ≠ .error .overflow := by
    rw [second]
    exact nofun
  exact ⟨rational, scale, ⟨long, (pow_of_scalings rational scale 0 (-400)).1.2 long⟩,
    ⟨fits, (pow_of_scalings rational scale 0 (-2)).2.1 fits⟩, third, second, first,
    (pow_of_scalings rational scale 3 (-2)).2.2 _ _ _ third second first⟩

end Converter

end Metrology
