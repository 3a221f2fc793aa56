import Metrology.Proofs.MeasureUnit.Action
import Metrology.Proofs.MeasureUnit.Equivalence
import Metrology.Proofs.MeasureUnit.Numbers

/-!
# Numbers as scalings

A number scales what it is multiplied with, from either side, and dividing by it takes the scaling
back. For the second the scalings in the unit have to be in lowest terms, as those that merge come out
so; offsets, logarithms and exponentials may be of any kind, because no scaling meets them. A number
whose terms are too long for a power has no reciprocal, and there is no dividing by it.
-/
namespace Metrology

namespace Converter

variable {c : Converter} {q : Rat}

/-! ### Scalings in lowest terms -/

/-- Whether all exact scalings are in lowest terms and there is no other scaling. -/
def IsLowest : Converter → Prop
  | multiply _ => False
  | ratio r => r.IsReduced
  | pair outer inner => outer.IsLowest ∧ inner.IsLowest
  | _ => True

instance decidableIsLowest : (c : Converter) → Decidable c.IsLowest
  | identity | add _ | log _ | exp _ => inferInstanceAs (Decidable True)
  | multiply _ => inferInstanceAs (Decidable False)
  | ratio r => inferInstanceAs (Decidable r.IsReduced)
  | pair outer inner =>
    have := decidableIsLowest outer
    have := decidableIsLowest inner
    inferInstanceAs (Decidable (outer.IsLowest ∧ inner.IsLowest))

theorem isLowest_iff : c.IsLowest ↔ ∀ s ∈ c.steps, s.IsLowest :=
  iff_forall_steps trivial (fun _ _ => Iff.rfl) c

theorem isStable_isLowest : IsStable IsLowest :=
  isStable_of_steps trivial (fun _ _ => Iff.rfl) (fun _ _ _ _ _ => trivial) (fun _ reduced => reduced)
    (fun _ h => h) fun s step lowest => by
      cases s with
      | ratio r => exact isReduced_inverse lowest
      | identity | pair => exact step.elim
      | multiply => exact lowest.elim
      | _ => trivial

/-- Without NaNs, too. -/
theorem isStable_isLowest_numeric : IsStable fun c => c.IsLowest ∧ c.hasNaN = false :=
  isStable_of_steps ⟨trivial, rfl⟩
    (fun _ _ => by rw [IsLowest, hasNaN, Bool.or_eq_false_iff, and_and_and_comm])
    (fun _ _ _ _ _ => ⟨trivial, rfl⟩) (fun _ reduced => ⟨reduced, rfl⟩) (fun _ h => h.1)
    fun s step h => by
      cases s with
      | ratio r => exact ⟨isReduced_inverse h.1, rfl⟩
      | identity | pair => exact step.elim
      | multiply => exact h.1.elim
      | add => exact ⟨trivial, rfl⟩
      | log | exp => exact ⟨trivial, h.2⟩

/-! ### Taking a scaling back -/

/-- A scaling and the one by the reciprocal cancel behind a normal form in lowest terms. -/
theorem compose_scaleBy_inv (normal : c.normalize = c) (lowest : c.IsLowest) (nonzero : q ≠ 0) :
    (c.compose (scaleBy q)).compose (scaleBy q⁻¹) = c := by
  rcases scaleBy_cases q with ⟨-, zero | rfl⟩ | ⟨r, eq, reduced, -⟩
  · exact absurd zero nonzero
  · simp only [inv_one, scaleBy_one, compose_identity, normal]
  · obtain ⟨chain, steps⟩ := isNormal_of_normalize normal
    have back : scaleBy q⁻¹ = ratio r.inverse := by
      rw [← inverse_scaleBy nonzero, eq]
      rfl
    -- Only scalings meet a scaling, and those are proper.
    have meets : ∀ t ∈ c.steps.reverse, t.IsStep ∧ ∀ k, t.merge (ratio r) = some k → t.IsProper := by
      intro t ht
      have mem := List.mem_reverse.1 ht
      refine ⟨isStep_of_mem_steps mem, fun k merges => ?_⟩
      rcases merge_kinds merges with ⟨x, y, -, same, -⟩ | ⟨p, s, rfl, -⟩ | ⟨x, y, -, same, -⟩ |
        ⟨x, y, -, same, -⟩ | ⟨x, y, -, same, -⟩
      · cases same
      · exact isLowest_iff.1 lowest _ mem
      all_goals cases same
    have step (s : Ratio) : (ratio s).IsStep := trivial
    have undone : push (push c.steps.reverse (ratio r)) (ratio r.inverse) = c.steps.reverse :=
      push_push chain meets reduced ⟨step _, isReduced_inverse reduced⟩
        (merge_inverse (step r) reduced)
    have stays : mergeSteps (push c.steps.reverse (ratio r)).reverse =
        (push c.steps.reverse (ratio r)).reverse :=
      mergeSteps_of_isNormal (by
        rw [List.reverse_reverse]
        exact push_isNormal chain)
    rw [eq, back, compose, steps_compose]
    change ofSteps (mergeSteps (mergeSteps (c.steps ++ [ratio r]) ++ [ratio r.inverse])) = c
    rw [mergeSteps_concat, mergeSteps_concat, mergeSteps_of_isNormal chain, stays,
      List.reverse_reverse, undone, List.reverse_reverse, steps]

theorem isProper_of_isScale (lowest : c.IsLowest) (scale : c.isScale = true) : c.IsProper := by
  induction c with
  | ratio r => exact lowest
  | pair outer inner ho hi =>
    rw [isScale, Bool.and_eq_true] at scale
    exact ⟨ho lowest.1 scale.1, hi lowest.2 scale.2⟩
  | multiply => exact lowest.elim
  | _ => cases scale

end Converter

namespace MeasureUnit

open Converter

variable {u : MeasureUnit} {c : Converter} {q : Rat}

/-! ### Multiplying and dividing by numbers -/

theorem isProper_of_number? (hu : u.IsBuilt) (lowest : u.EveryConverter IsLowest)
    (value : u.number? = some c) : u.IsProper := by
  obtain ⟨mark, rfl, scale⟩ := number?_eq_some.1 value
  cases lowest with | transformed _ _ outer =>
  obtain ⟨parent, d, isOver, -⟩ := hu.exists_isOver
  obtain ⟨-, rfl⟩ := isOver.eq_of_transformed
  exact ⟨parent, c, isOver, isProper_of_isScale outer scale⟩

/-- A scaling and the one by the reciprocal leave a unit as it was. -/
theorem transform_scaleBy_inv (hu : u.IsBuilt) (lowest : u.EveryConverter IsLowest)
    (nonzero : q ≠ 0) : (u.transform (scaleBy q)).transform (scaleBy q⁻¹) = u := by
  obtain ⟨parent, c, isOver, form⟩ := hu.exists_isOver
  have outer : c.IsLowest := by
    rcases form with rfl | rfl
    · trivial
    · cases lowest with | transformed _ _ outer => exact outer
  rw [(isOver.isOver_transform (scaleBy q)).transform, compose_scaleBy_inv isOver.normal outer nonzero,
    isOver.eq]

/-- Dividing takes the scaling by a number back, unless the number is too long. -/
theorem transform_div_number (hu : u.IsBuilt) (lowest : u.EveryConverter IsLowest)
    (nonzero : q ≠ 0) :
    (u.transform (scaleBy q)).div (number q) =
      if IsShort q then .ok u else .error (.conversion .overflow) := by
  have scaled := lowest.transform isStable_isLowest (isStable_isLowest.scaling q)
  have proper (d : Converter) (value : (u.transform (scaleBy q)).number? = some d) :
      (u.transform (scaleBy q)).IsProper :=
    isProper_of_number? (hu.transform (scaleBy q)) scaled value
  rw [div, reciprocal_number nonzero]
  by_cases short : IsShort q
  · rw [if_pos short, if_pos short]
    exact (mul_number proper (inv_ne_zero nonzero)).trans
      (congrArg Except.ok (transform_scaleBy_inv hu lowest nonzero))
  · rw [if_neg short, if_neg short]
    rfl

/-- A number scales the unit it is multiplied with, on either side, and dividing by it restores the
unit, unless the number is too long: then it fails. -/
theorem number_scales_and_cancels (hu : u.IsBuilt) (lowest : u.EveryConverter IsLowest)
    (nonzero : q ≠ 0) :
    ∃ c, Converter.scaling q = .ok c ∧
      u.mul (one.transform c) = .ok (u.transform c) ∧
      (one.transform c).mul u = .ok (u.transform c) ∧
      (IsShort q → (u.transform c).div (one.transform c) = .ok u) ∧
      (¬IsShort q → (u.transform c).div (one.transform c) = .error (.conversion .overflow)) ∧
      (u.IsNumeric → (u.transform c == u.transform c) = true ∧ (u == u) = true) := by
  have quotient := transform_div_number hu lowest nonzero
  refine ⟨scaleBy q, scaling_eq nonzero, mul_number (fun _ => isProper_of_number? hu lowest) nonzero,
    number_mul nonzero u, fun short => ?_, fun long => ?_, fun numeric => ⟨?_, numeric.beq_self⟩⟩
  · rwa [if_pos short] at quotient
  · rwa [if_neg long] at quotient
  · have both : u.EveryConverter fun c => c.IsLowest ∧ c.hasNaN = false := lowest.and numeric
    exact (both.transform isStable_isLowest_numeric (isStable_isLowest_numeric.scaling q)).beq_self
      fun c h => beq_self_iff.2 h.2

/-- A thousandth cancels the kilo behind a logarithm, and dividing by it brings the kilo back. -/
theorem number_scales_and_cancels_level :
    let u := (base "m").transform (pair (log 10) (ratio ⟨1000, 1, by decide, by decide, by decide⟩))
    let q : Rat := 1 / 1000
    (u.IsBuilt ∧ u.EveryConverter IsLowest ∧ q ≠ 0 ∧ IsShort q ∧ u.IsNumeric) ∧
    ∃ c, Converter.scaling q = .ok c ∧ (u.transform c == (base "m").transform (log 10)) = true ∧
      u.mul (one.transform c) = .ok (u.transform c) ∧
      (one.transform c).mul u = .ok (u.transform c) ∧
      (u.transform c).div (one.transform c) = .ok u ∧
      (u.transform c == u.transform c) = true ∧ (u == u) = true := by
  intro u q
  have built : u.IsBuilt := (IsBuilt.base "m").transform _
  have lowest : u.EveryConverter IsLowest := by decide +kernel
  have nonzero : q ≠ 0 := by decide +kernel
  have short : IsShort q := by decide +kernel
  have numeric : u.IsNumeric := .transformed none (.base "m") (by decide +kernel)
  obtain ⟨c, scaling, right, left, quotient, -, equal⟩ := number_scales_and_cancels built lowest nonzero
  have plain : (u.transform c == (base "m").transform (log 10)) = true := by
    cases (scaling_eq nonzero).symm.trans scaling
    decide +kernel
  exact ⟨⟨built, lowest, nonzero, short, numeric⟩, c, scaling, plain, right, left, quotient short,
    equal numeric⟩

/-- The metre can be multiplied by a number of 4097 binary digits, but not divided by it; and a unit
with a NaN in it does not equal itself, whatever it is multiplied by. -/
theorem exists_number_not_cancelling :
    let q : Rat := (2 ^ Ratio.maxPowerBits : Nat)
    let u := (base "m").transform (log (0 / 0))
    (q ≠ 0 ∧ (base "m").IsBuilt ∧ (base "m").EveryConverter IsLowest ∧
      ∃ c, Converter.scaling q = .ok c ∧
        (base "m").mul (one.transform c) = .ok ((base "m").transform c) ∧
        ((base "m").transform c).div (one.transform c) = .error (.conversion .overflow)) ∧
    (u.IsBuilt ∧ u.EveryConverter IsLowest ∧
      ∃ c v, Converter.scaling 2 = .ok c ∧ u.mul (one.transform c) = .ok v ∧
        (v == u.transform c) = false) := by
  intro q u
  have nonzero : q ≠ 0 := Nat.cast_ne_zero.2 (Nat.two_pow_pos _).ne'
  have long : ¬IsShort q := by
    intro short
    rw [IsShort, Rat.num_natCast] at short
    exact lt_irrefl _ short.1
  have metre : (base "m").EveryConverter IsLowest := .base "m"
  have quotient := transform_div_number (.base "m") metre nonzero
  rw [if_neg long] at quotient
  have built : u.IsBuilt := (IsBuilt.base "m").transform _
  have lowest : u.EveryConverter IsLowest := by decide +kernel
  have two : (2 : Rat) ≠ 0 := by decide
  have unequal : (u.transform (scaleBy 2) == u.transform (scaleBy 2)) = false := by decide +kernel
  have product := mul_number (fun _ => isProper_of_number? (.base "m") metre) nonzero
  have product' := mul_number (fun _ => isProper_of_number? built lowest) two
  exact ⟨⟨nonzero, .base "m", metre, scaleBy q, scaling_eq nonzero, product, quotient⟩,
    built, lowest, scaleBy 2, _, scaling_eq two, product', unequal⟩

end MeasureUnit

end Metrology
