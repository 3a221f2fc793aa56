import Mathlib.Algebra.GroupWithZero.Units.Basic
import Metrology.Proofs.MeasureUnit.Weighting

/-!
# The scale of a unit

Where all converters are exact scalings in lowest terms, one number says what the converter of a
unit does, and that number is a weight: the scale of a product is the product of the scales. The
ways in which a product is built and a converter is put together then have no choice but to agree.
-/
namespace Metrology

theorem Converter.factor_congr {c d : Converter} (h : (c == d) = true) : c.factor = d.factor := by
  induction c generalizing d with
  | pair a b iha ihb =>
    cases d <;> try cases h
    rw [pair_beq_pair] at h
    rw [factor, factor, iha h.1, ihb h.2]
  | ratio r =>
    cases d <;> try cases h
    rw [ratio_beq_ratio.1 h]
  | _ => cases d <;> first | rfl | cases h

namespace MeasureUnit

open Converter

def scaleWeighting : Weighting ℚˣ where
  atom _ := 1
  step c := Units.mk0 c.factor c.factor_ne_zero
  atom_congr _ _ := rfl
  step_congr h := Units.ext (factor_congr h)
  step_identity := Units.ext factor_identity
  step_compose c d := Units.ext (factor_compose c d)
  step_pow {c d n} ok := by
    refine Units.ext ?_
    rw [Units.val_zpow_eq_zpow_val]
    exact factor_pow ok

/-- What a value in the unit is multiplied by to be a value in its system unit. -/
def scale (u : MeasureUnit) : ℚˣ := scaleWeighting.weight u

variable {u v w : MeasureUnit} {n : Power} {c d : Converter}

@[simp] theorem scale_base (symbol : String) : (base symbol).scale = 1 := rfl

@[simp] theorem scale_alternate (symbol : String) (parent : MeasureUnit) :
    (alternate symbol parent).scale = 1 := rfl

@[simp] theorem scale_transformed (parent : MeasureUnit) (c : Converter) (mark : Option Nat) :
    ((transformed parent c mark).scale : ℚ) = parent.scale * c.factor := by
  rw [scale, Weighting.weight, Units.val_mul]
  rfl

@[simp] theorem scale_noted (actual : MeasureUnit) (note : String) :
    (noted actual note).scale = actual.scale := rfl

/-- The converter of a factor scales by the power of the scale. -/
theorem factorConverter_scaleBy {q : ℚˣ} (ok : factorConverter u n (scaleBy q) = .ok d) :
    d = scaleBy (q ^ n.val : ℚˣ) := by
  rcases (factorConverter_eq_ok ok).2 with ⟨one, rfl⟩ | ⟨negOne, rfl⟩ | ⟨-, power⟩
  · rw [one, zpow_one]
  · rw [negOne, zpow_neg_one, inverse_scaleBy q.ne_zero, Units.val_inv_eq_inv_val]
  · rw [pow_of_isRational (isRational_scaleBy _) power, factor_scaleBy q.ne_zero,
      Units.val_zpow_eq_zpow_val]

/-- Where all converters scale, the system converter scales by the scale. -/
theorem EveryConverter.eq_scaleBy (h : u.EveryConverter IsScaling) (ok : u.systemConverter = .ok c) :
    c = scaleBy u.scale := by
  induction h generalizing c with
  | base symbol | alternate symbol =>
    cases ok
    simp [scaleBy_one]
  | @product fs units ih =>
    obtain ⟨l, related, rfl⟩ := productConverter_eq_ok.1 ok
    -- The converters of the factors in front of the rest have scaled by some number already.
    have chain : ∀ q : ℚˣ,
        l.foldl compose (scaleBy q) = scaleBy (q * scaleWeighting.productWeight fs : ℚˣ) := by
      clear ok units
      induction related with
      | nil => exact fun q => congrArg (fun x : ℚˣ => scaleBy x) (mul_one q).symm
      | @cons f d fs l power _ ih' =>
        intro q
        obtain ⟨c, base, power⟩ := powerConverter_eq_ok.1 power
        rw [ih f (by simp) base] at power
        rw [List.foldl_cons, factorConverter_scaleBy power,
          scaleBy_compose q.ne_zero (Units.ne_zero _), ← Units.val_mul,
          ih' fun g hg => ih g (by simp [hg]), mul_assoc, Weighting.productWeight,
          Weighting.powerWeight_eq]
        rfl
    have whole := chain 1
    rw [one_mul, Units.val_one, scaleBy_one] at whole
    exact whole
  | transformed mark _ outer ih =>
    obtain ⟨d, inner, ok⟩ := bind_ok_iff.1 ok
    cases ok
    rw [ih inner, compose_of_isRational (isProper_scaleBy _) (isRational_scaleBy _) outer.1 outer.2,
      factor_scaleBy (Units.ne_zero _), scale_transformed]
  | noted note _ ih => exact ih ok

/-- On units whose converters scale, the converter of a product, a power and a quotient is the
product, the power and the quotient of the converters. -/
theorem systemConverter_multiplicative {a b : MeasureUnit} {A B : Converter} (ha : a.IsBuilt)
    (hb : b.IsBuilt) (scalesA : a.EveryConverter IsScaling) (scalesB : b.EveryConverter IsScaling)
    (hA : a.systemConverter = .ok A) (hB : b.systemConverter = .ok B) :
    (∀ p C, a.mul b = .ok p → p.systemConverter = .ok C → C = A.compose B) ∧
    (∀ (n : Power) q D P, a.pow n = .ok q → q.systemConverter = .ok D → A.pow n.val = .ok P →
      D = P) ∧
    (∀ q C, a.div b = .ok q → q.systemConverter = .ok C → C = A.compose B.inverse) := by
  have closed := isClosed_everyConverter isStable_isScaling
  have da := ha.isDistinct
  have db := hb.isDistinct
  rw [scalesA.eq_scaleBy hA, scalesB.eq_scaleBy hB]
  refine ⟨fun p C mul ok => ?_, fun n q D P pow ok power => ?_, fun q C div ok => ?_⟩
  · rw [(closed.mul scalesA scalesB mul).eq_scaleBy ok,
      scaleBy_compose (Units.ne_zero _) (Units.ne_zero _), ← Units.val_mul]
    exact congrArg (fun q : ℚˣ => scaleBy q) (scaleWeighting.weight_mul da db mul)
  · rw [(closed.pow scalesA pow).eq_scaleBy ok,
      pow_of_isRational (isRational_scaleBy _) power, factor_scaleBy (Units.ne_zero _),
      ← Units.val_zpow_eq_zpow_val]
    exact congrArg (fun q : ℚˣ => scaleBy q) (scaleWeighting.weight_pow da pow)
  · rw [(closed.div scalesA scalesB div).eq_scaleBy ok, inverse_scaleBy (Units.ne_zero _),
      ← Units.val_inv_eq_inv_val, scaleBy_compose (Units.ne_zero _) (Units.ne_zero _),
      ← Units.val_mul]
    exact congrArg (fun q : ℚˣ => scaleBy q) (scaleWeighting.weight_div da db div)

/-- A kilometre and a minute are multiplied, raised to the power minus two, and divided. -/
theorem systemConverter_multiplicative_kilometre :
    kilometre.IsBuilt ∧ minute.IsBuilt ∧
    kilometre.EveryConverter IsScaling ∧ minute.EveryConverter IsScaling ∧
    kilometre.systemConverter = .ok thousandfold ∧ minute.systemConverter = .ok sixtyfold ∧
    (∃ p C, kilometre.mul minute = .ok p ∧ p.systemConverter = .ok C ∧
      C = thousandfold.compose sixtyfold) ∧
    (∃ q D P, kilometre.pow ⟨-2, by decide, by decide⟩ = .ok q ∧ q.systemConverter = .ok D ∧
      thousandfold.pow (-2) = .ok P ∧ D = P) ∧
    (∃ q C, kilometre.div minute = .ok q ∧ q.systemConverter = .ok C ∧
      C = thousandfold.compose sixtyfold.inverse) := by
  have thousands : kilometre.EveryConverter IsScaling := everyConverter_kilometre (by decide)
  have sixties : minute.EveryConverter IsScaling := everyConverter_minute (by decide)
  obtain ⟨mul, pow, div⟩ := systemConverter_multiplicative isBuilt_kilometre isBuilt_minute
    thousands sixties systemConverter_kilometre systemConverter_minute
  refine ⟨isBuilt_kilometre, isBuilt_minute, thousands, sixties, systemConverter_kilometre,
    systemConverter_minute, ?_, ?_, ?_⟩
  · exact ⟨_, _, rfl, rfl, mul _ _ rfl rfl⟩
  · exact ⟨_, _, _, rfl, rfl, rfl, pow ⟨-2, by decide, by decide⟩ _ _ _ rfl rfl rfl⟩
  · exact ⟨_, _, rfl, rfl, div _ _ rfl rfl⟩

end MeasureUnit

end Metrology
