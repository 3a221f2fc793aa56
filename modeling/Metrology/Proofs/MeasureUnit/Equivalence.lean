import Metrology.Proofs.MeasureUnit.Building

/-!
# Equality as an equivalence

A double equals itself unless it is a NaN, so that a unit without a NaN in it equals itself. The
operations put no equal units side by side in a product, so that equality is symmetric on what they
build. With transitivity, which needs neither, equality is an equivalence.
-/
namespace Metrology

namespace Converter

/-- Whether a step of a converter has a NaN as its factor or base. -/
def hasNaN : Converter → Bool
  | multiply x | log x | exp x => x.isNaN
  | pair outer inner => outer.hasNaN || inner.hasNaN
  | _ => false

theorem beq_self_iff {c : Converter} : (c == c) = true ↔ c.hasNaN = false := by
  induction c with
  | pair outer inner iho ihi => rw [pair_beq_pair, hasNaN, Bool.or_eq_false_iff, iho, ihi]
  | multiply | log | exp => exact Double.beq_self_iff
  | add x => exact iff_of_true (add_beq_add.2 rfl) rfl
  | ratio r => exact iff_of_true (ratio_beq_ratio.2 rfl) rfl
  | identity => exact iff_of_true rfl rfl

end Converter

namespace MeasureUnit

def IsNumeric (u : MeasureUnit) : Prop := u.EveryConverter fun c => c.hasNaN = false

instance (u : MeasureUnit) : Decidable u.IsNumeric :=
  inferInstanceAs (Decidable (u.EveryConverter _))

theorem IsNumeric.beq_self {u : MeasureUnit} (h : u.IsNumeric) : (u == u) = true :=
  EveryConverter.beq_self h fun _ => Converter.beq_self_iff.2

/-- On units that are built and have no NaN in them, equality is an equivalence, in whatever order
their products have their factors. -/
theorem beq_equivalence :
    Equivalence fun u v : {u : MeasureUnit // u.IsBuilt ∧ u.IsNumeric} => (u.1 == v.1) = true where
  refl u := u.2.2.beq_self
  symm {u _} := u.2.1.isDistinct.beq_symm
  trans := beq_trans

/-- The order of factors does not matter, inside other products either: three products of a kilogram and
a speed are equal to each other, whichever factors come first. -/
theorem beq_equivalence_load :
    let metre : Factor MeasureUnit := ⟨base "m", Power.one⟩
    let second : Factor MeasureUnit := ⟨base "s", Power.negOne⟩
    let kilogram : Factor MeasureUnit := ⟨base "kg", Power.one⟩
    let speed : Factor MeasureUnit := ⟨noted (product [metre, second]) "speed", Power.one⟩
    let speed' : Factor MeasureUnit := ⟨noted (product [second, metre]) "speed", Power.one⟩
    let u := product [kilogram, speed]
    let v := product [speed', kilogram]
    let w := product [kilogram, speed']
    ((u.IsBuilt ∧ u.IsNumeric) ∧ (v.IsBuilt ∧ v.IsNumeric) ∧ (w.IsBuilt ∧ w.IsNumeric)) ∧
    (u == u) = true ∧ (u == v) = true ∧ (v == u) = true ∧ (v == w) = true ∧ (u == w) = true := by
  intro metre second kilogram speed speed' u v w
  have legible : '\x7d' ∉ "speed".toList := by decide
  have forward : speed.unit.IsBuilt :=
    .annotate "speed" (.div (.base "m") (.base "s") rfl) (annotate_eq_ok.2 ⟨legible, rfl⟩)
  have backward : speed'.unit.IsBuilt :=
    .annotate "speed" (.mul (.reciprocal (.base "s") rfl) (.base "m") rfl)
      (annotate_eq_ok.2 ⟨legible, rfl⟩)
  have hu : u.IsBuilt ∧ u.IsNumeric := ⟨.mul (.base "kg") forward rfl, by decide +kernel⟩
  have hv : v.IsBuilt ∧ v.IsNumeric := ⟨.mul backward (.base "kg") rfl, by decide +kernel⟩
  have hw : w.IsBuilt ∧ w.IsNumeric := ⟨.mul (.base "kg") backward rfl, by decide +kernel⟩
  have first : (u == v) = true := by decide +kernel
  have second : (v == w) = true := by decide +kernel
  exact ⟨⟨hu, hv, hw⟩, beq_equivalence.refl ⟨u, hu⟩, first,
    beq_equivalence.symm (x := ⟨u, hu⟩) (y := ⟨v, hv⟩) first, second,
    beq_equivalence.trans (x := ⟨u, hu⟩) (y := ⟨v, hv⟩) (z := ⟨w, hw⟩) first second⟩

end MeasureUnit

end Metrology
