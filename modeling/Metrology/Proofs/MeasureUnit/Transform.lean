import Metrology.MeasureUnit.Algebra
import Metrology.Proofs.MeasureUnit.Equality

/-!
# Transforms as an action

A tidy unit is a converter in normal form over a unit that is not transformed itself. On
these, transforming is composing: the converters act on units from the right. For converters
made of proper steps that is an action of their group.
-/
namespace Metrology.MeasureUnit

open Converter

/-- The unit whose values a converter takes to values in `parent`; `parent` itself if the
converter does nothing. -/
def overParent (parent : MeasureUnit) (c : Converter) : MeasureUnit :=
  if c = .identity then parent else transformed parent c

@[simp] theorem overParent_identity (parent : MeasureUnit) : parent.overParent .identity = parent := rfl

theorem overParent_of_ne {parent : MeasureUnit} {c : Converter} (h : c ≠ .identity) :
    parent.overParent c = transformed parent c :=
  if_neg h

/-- A unit that is not transformed and what converts into it. -/
structure IsOver (u parent : MeasureUnit) (c : Converter) : Prop where
  eq : u = parent.overParent c
  plain : parent.isTransformed = false
  normal : c.normalize = c

theorem isOver_self {u : MeasureUnit} (h : u.isTransformed = false) : IsOver u u .identity :=
  ⟨rfl, h, rfl⟩

/-- A tidy transformed unit stands over its parent by its converter. -/
theorem isOver_transformed {parent : MeasureUnit} {c : Converter} {mark : Option Nat}
    (tidy : (transformed parent c mark).isTidy = true) :
    IsOver (transformed parent c mark) parent c := by
  obtain ⟨-, plain, ⟨normal, change⟩, rfl⟩ := isTidy_transformed.1 tidy
  exact ⟨(overParent_of_ne change).symm, plain, normal⟩

/-- A tidy unit is a normal form over a tidy unit that is not transformed. -/
theorem exists_isOver {u : MeasureUnit} (tidy : u.isTidy = true) :
    ∃ parent c, IsOver u parent c ∧ parent.isTidy = true := by
  cases u with
  | transformed parent c mark =>
    exact ⟨parent, c, isOver_transformed tidy, (isTidy_transformed.1 tidy).1⟩
  | _ => exact ⟨_, .identity, isOver_self rfl, tidy⟩

theorem isTidy_overParent {parent : MeasureUnit} {c : Converter} (tidy : parent.isTidy = true)
    (plain : parent.isTransformed = false) (normal : c.normalize = c) :
    (parent.overParent c).isTidy = true := by
  by_cases change : c = .identity
  · rw [change]
    exact tidy
  · rw [overParent_of_ne change]
    exact isTidy_transformed.2 ⟨tidy, plain, ⟨normal, change⟩, rfl⟩

/-- To transform a unit is to compose with its converter. -/
theorem IsOver.transform {u parent : MeasureUnit} {c : Converter} (h : IsOver u parent c)
    (k : Converter) : u.transform k = parent.overParent (c.compose k) := by
  obtain ⟨rfl, plain, normal⟩ := h
  by_cases none : k = .identity
  · subst none
    rw [compose_identity, normal]
    rfl
  · have acts : k.isIdentity = false := by
      rw [← Bool.not_eq_true, isIdentity_iff]
      exact none
    by_cases change : c = .identity
    · subst change
      rw [overParent_identity, MeasureUnit.transform, acts]
      · change (if k.normalize.isIdentity then parent else transformed parent k.normalize) =
          parent.overParent k.normalize
        generalize k.normalize = d
        cases d <;> rfl
      · rintro p d mark rfl
        cases plain
    · rw [overParent_of_ne change, MeasureUnit.transform, acts]
      change (if (c.compose k).isIdentity then parent else transformed parent (c.compose k)) = _
      generalize c.compose k = d
      cases d <;> rfl

/-- A transform composes with what is over the parent. -/
theorem IsOver.isOver_transform {u parent : MeasureUnit} {c : Converter} (h : IsOver u parent c)
    (k : Converter) : IsOver (u.transform k) parent (c.compose k) :=
  ⟨h.transform k, h.plain, normalize_compose c k⟩

theorem isTidy_transform {u : MeasureUnit} (tidy : u.isTidy = true) (k : Converter) :
    (u.transform k).isTidy = true := by
  obtain ⟨parent, c, isOver, tidy⟩ := exists_isOver tidy
  rw [isOver.transform k]
  exact isTidy_overParent tidy isOver.plain (normalize_compose c k)

theorem isTidy_shift {u : MeasureUnit} (tidy : u.isTidy = true) (x : Rat) :
    (u.shift x).isTidy = true := by
  unfold shift
  split
  · exact isTidy_transform tidy _
  · exact tidy

/-- Two transforms by proper converters are one by their composition. -/
theorem IsOver.transform_transform {u parent : MeasureUnit} {c a b : Converter}
    (h : IsOver u parent c) (hc : c.IsProper) (ha : a.IsProper) (hb : b.IsProper) :
    (u.transform a).transform b = u.transform (a.compose b) := by
  rw [(h.isOver_transform a).transform b, h.transform, compose_compose hc ha hb]

theorem shift_of_ne {u : MeasureUnit} {x : Rat} (h : x ≠ 0) : u.shift x = u.transform (.add x) := by
  rw [shift, offsetBy, if_neg h]

/-! ### Congruence -/

theorem isTransformed_congr {u v : MeasureUnit} (h : (u == v) = true) :
    u.isTransformed = v.isTransformed := by
  cases u <;> cases v <;> first | rfl | cases h

/-- A unit that equals one over a parent by proper steps is over an equal parent by the same. -/
theorem IsOver.of_beq {u v parent : MeasureUnit} {c : Converter} (h : IsOver u parent c)
    (proper : c.IsProper) (tidy : v.isTidy = true) (same : (u == v) = true) :
    ∃ parent', IsOver v parent' c ∧ (parent == parent') = true ∧ parent'.isTidy = true := by
  obtain ⟨rfl, plain, normal⟩ := h
  by_cases change : c = .identity
  · subst change
    refine ⟨v, isOver_self ?_, same, tidy⟩
    rw [← isTransformed_congr same, overParent_identity, plain]
  · rw [overParent_of_ne change] at same
    cases v with
    | transformed parent' d mark =>
      have isOver := isOver_transformed tidy
      obtain ⟨parentTidy, -⟩ := isTidy_transformed.1 tidy
      rw [transformed_beq_transformed, Bool.and_eq_true] at same
      have converters : (c == d) = true := by simpa [sameConverter] using same.2
      obtain rfl := eq_of_beq_of_isProper proper converters
      exact ⟨parent', isOver, same.1, parentTidy⟩
    | _ => cases same

/-- The same proper converter over equal parents makes equal units. -/
theorem overParent_beq {p q : MeasureUnit} {c : Converter} (proper : c.IsProper)
    (same : (p == q) = true) : (p.overParent c == q.overParent c) = true := by
  by_cases change : c = .identity
  · rw [change]
    exact same
  · rw [overParent_of_ne change, overParent_of_ne change, transformed_beq_transformed, same,
      sameConverter, beq_self_of_isProper proper]
    rfl

/-! ### Units over proper steps -/

/-- Whether the steps that lead to a unit from one that is not transformed are proper. -/
def IsProper (u : MeasureUnit) : Prop := ∃ parent c, IsOver u parent c ∧ c.IsProper

theorem isProper_of_plain {u : MeasureUnit} (h : u.isTransformed = false) : u.IsProper :=
  ⟨u, .identity, isOver_self h, trivial⟩

namespace IsProper

variable {u v : MeasureUnit} {a b k : Converter}

theorem transform (h : u.IsProper) (hk : k.IsProper) : (u.transform k).IsProper := by
  obtain ⟨parent, c, isOver, proper⟩ := h
  exact ⟨parent, c.compose k, isOver.isOver_transform k, isProper_compose proper hk⟩

theorem of_beq (h : u.IsProper) (tidy : v.isTidy = true) (same : (u == v) = true) : v.IsProper := by
  obtain ⟨parent, c, isOver, proper⟩ := h
  obtain ⟨parent', isOver', -⟩ := isOver.of_beq proper tidy same
  exact ⟨parent', c, isOver', proper⟩

/-- To transform twice is to transform once by the composition. -/
theorem transform_transform (h : u.IsProper) (ha : a.IsProper) (hb : b.IsProper) :
    (u.transform a).transform b = u.transform (a.compose b) := by
  obtain ⟨parent, c, isOver, proper⟩ := h
  exact isOver.transform_transform proper ha hb

/-- Equal units are still equal when both are transformed. -/
theorem transform_beq (h : u.IsProper) (hk : k.IsProper) (tidy : v.isTidy = true)
    (same : (u == v) = true) : (u.transform k == v.transform k) = true := by
  obtain ⟨parent, c, isOver, proper⟩ := h
  obtain ⟨parent', isOver', same, -⟩ := isOver.of_beq proper tidy same
  rw [isOver.transform, isOver'.transform]
  exact overParent_beq (isProper_compose proper hk) same

end IsProper

end Metrology.MeasureUnit
