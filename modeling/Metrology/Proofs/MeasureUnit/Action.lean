import Metrology.Proofs.MeasureUnit.Representation

/-!
# The action of converters on units

A unit that is built is a converter in normal form over a unit that is not transformed, and carries no
mark. Transforming composes with that converter, wherever the steps cancel on the way. So the group of
converters acts on the units that are built: to transform twice is to transform once by the
composition, and offsets, zero among them, add up.
-/
namespace Metrology

namespace Converter

/-- Offsets are composed by adding them. -/
theorem shiftBy_compose (x y : Rat) : (shiftBy x).compose (shiftBy y) = shiftBy (x + y) := by
  have normal (z : Rat) : (shiftBy z).normalize = shiftBy z := by
    unfold shiftBy
    split <;> rfl
  by_cases left : x = 0
  · rw [left, Rat.zero_add]
    exact normal y
  · by_cases right : y = 0
    · have none : shiftBy 0 = identity := rfl
      rw [right, Rat.add_zero, none, compose_identity, normal]
    · rw [shiftBy, if_neg left, shiftBy, if_neg right]
      change ofSteps (push [add x] (add y)).reverse = _
      rw [push_cons_of_merge (merge_add x y)]
      by_cases cancels : x + y = 0
      · rw [cancels]
        rfl
      · rw [shiftBy, if_neg cancels]
        rfl

end Converter

namespace MeasureUnit

open Converter

variable {u : MeasureUnit} {c : Converter}

/-! ### Units without marks -/

inductive IsUnmarked : MeasureUnit → Prop where
  | base (symbol : String) : IsUnmarked (.base symbol)
  | alternate (symbol : String) {parent : MeasureUnit} (inner : parent.IsUnmarked) :
      IsUnmarked (.alternate symbol parent)
  | product {fs : List (Factor MeasureUnit)} (units : ∀ f ∈ fs, f.unit.IsUnmarked) :
      IsUnmarked (.product fs)
  | transformed {parent : MeasureUnit} (c : Converter) (inner : parent.IsUnmarked) :
      IsUnmarked (.transformed parent c)
  | noted {actual : MeasureUnit} (note : String) (inner : actual.IsUnmarked) :
      IsUnmarked (.noted actual note)

theorem isInvariant_isUnmarked : IsInvariant IsUnmarked fun _ => True where
  units := fun | .product units => units
  product _ units _ := .product fun f hf => (units f hf).1
  parent := fun | .transformed _ inner => ⟨inner, trivial⟩
  transformed inner _ _ _ := .transformed _ inner
  changed := fun | .transformed _ inner, _, _ => .transformed _ inner
  identity := trivial
  compose _ _ := trivial
  power _ _ := trivial

/-- No operation marks a unit. -/
theorem IsBuilt.isUnmarked (h : u.IsBuilt) : u.IsUnmarked :=
  h.of_isInvariant isInvariant_isUnmarked .base (fun symbol _ => .alternate symbol)
    (fun _ => .noted _) fun | .noted _ inner => inner

/-- A unit that is built is a normal form over a unit that is not transformed; the converter of the
form is the identity or one that is in the unit. -/
theorem IsBuilt.exists_isOver (h : u.IsBuilt) :
    ∃ parent c, IsOver u parent c ∧ (c = .identity ∨ u = transformed parent c) := by
  cases u with
  | transformed parent c mark =>
    cases h.isRegular with | transformed _ _ plain normal =>
    cases h.isUnmarked with | transformed _ _ =>
    exact ⟨parent, c, ⟨(overParent_of_ne normal.2).symm, plain, normal.1⟩, Or.inr rfl⟩
  | _ => exact ⟨_, .identity, isOver_self rfl, Or.inl rfl⟩

theorem IsBuilt.isProper (h : u.IsBuilt) (steps : u.EveryConverter Converter.IsProper) :
    u.IsProper := by
  obtain ⟨parent, c, isOver, rfl | rfl⟩ := h.exists_isOver
  · exact ⟨parent, .identity, isOver, trivial⟩
  · cases steps with | transformed _ _ outer =>
    exact ⟨parent, c, isOver, outer⟩

/-! ### Undoing and adding up -/

theorem IsProper.transform_inverse (h : u.IsProper) (hc : c.IsProper) :
    (u.transform c).transform c.inverse = u := by
  rw [h.transform_transform hc (isProper_inverse hc), compose_inverse hc]
  rfl

/-- A shift transforms by an offset, be it zero. -/
theorem shift_eq (u : MeasureUnit) (x : Rat) : u.shift x = u.transform (shiftBy x) := by
  by_cases zero : x = 0
  · rw [zero]
    rfl
  · rw [shift_of_ne zero, shiftBy, if_neg zero]

theorem IsProper.shift_shift (h : u.IsProper) (x y : Rat) :
    (u.shift x).shift y = u.shift (x + y) := by
  rw [shift_eq, shift_eq, shift_eq,
    h.transform_transform (isProper_shiftBy x) (isProper_shiftBy y), shiftBy_compose]

theorem EveryConverter.transform {Q : Converter → Prop} (hQ : IsStable Q) (h : u.EveryConverter Q)
    (hc : Q c) : (u.transform c).EveryConverter Q :=
  (isClosed_everyConverter hQ).isInvariant.transform h hc

/-- Converters of proper steps act on units: two transforms are one by the composition, a transform by
the inverse restores the unit, and shifts add up. -/
theorem transform_action (hu : u.IsBuilt) (steps : u.EveryConverter Converter.IsProper) :
    (∀ a b : Converter, a.IsProper → b.IsProper →
      ((u.transform a).transform b == u.transform (a.compose b)) = true) ∧
    (∀ c : Converter, c.IsProper → ((u.transform c).transform c.inverse == u) = true) ∧
    (∀ p q : Rat, ((u.shift p).shift q == u.shift (p + q)) = true) := by
  have proper := hu.isProper steps
  have self {v : MeasureUnit} (h : v.EveryConverter Converter.IsProper) : (v == v) = true :=
    h.beq_self fun _ => beq_self_of_isProper
  refine ⟨fun a b ha hb => ?_, fun c hc => ?_, fun p q => ?_⟩
  · rw [proper.transform_transform ha hb]
    exact self (steps.transform isStable_isProper (isProper_compose ha hb))
  · rw [proper.transform_inverse hc]
    exact self steps
  · rw [proper.shift_shift, shift_eq]
    exact self (steps.transform isStable_isProper (isProper_shiftBy (p + q)))

/-- Undoing a level of milliwatts step by step leaves watts, and an offset; doing it again restores the
level. -/
theorem transform_action_level :
    let milliwatt := (base "W").transform (ratio ⟨1, 1000, by decide, by decide, by decide⟩)
    let level := milliwatt.transform (log 10)
    let undo := pair (exp 10) (pair (ratio ⟨1000, 1, by decide, by decide, by decide⟩) (add 1))
    let half := pair (add (-1)) (ratio ⟨1, 2, by decide, by decide, by decide⟩)
    (level.IsBuilt ∧ level.EveryConverter Converter.IsProper ∧ undo.IsProper ∧ half.IsProper) ∧
    (level.transform undo == (base "W").shift 1) = true ∧
    ((level.transform undo).transform half == level.transform (undo.compose half)) = true ∧
    ((level.transform undo).transform undo.inverse == level) = true ∧
    ((level.shift 1).shift (-1) == level.shift (1 + -1)) = true := by
  intro milliwatt level undo half
  have built : level.IsBuilt := ((IsBuilt.base "W").transform _).transform _
  have steps : level.EveryConverter Converter.IsProper := by decide +kernel
  have hu : undo.IsProper := by decide +kernel
  have hh : half.IsProper := by decide +kernel
  have cancels : (level.transform undo == (base "W").shift 1) = true := by decide +kernel
  obtain ⟨compose, inverse, shift⟩ := transform_action built steps
  exact ⟨⟨built, steps, hu, hh⟩, cancels, compose undo half hu hh, inverse undo hu, shift 1 (-1)⟩

end MeasureUnit

end Metrology
