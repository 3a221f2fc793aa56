import Metrology.Proofs.MeasureUnit.Building

/-!
# The form of units

Units that are built have one form, and so have all their parts: a product has different factors,
none with power zero and not just one with power one; a converter is in normal form, does something
and does not end at another transformed unit; and no note closes early. Every operation builds this
form again, which is seen from the forms that operations make at all.
-/
namespace Metrology.MeasureUnit

variable {u v w : MeasureUnit} {fs : List (Factor MeasureUnit)}

/-- Whether a unit has the form that units are built in. -/
inductive IsRegular : MeasureUnit → Prop where
  | base (symbol : String) : IsRegular (.base symbol)
  | alternate (symbol : String) {parent : MeasureUnit} (inner : parent.IsRegular) :
      IsRegular (.alternate symbol parent)
  | product {fs : List (Factor MeasureUnit)} (apart : Apart fs) (units : ∀ f ∈ fs, f.unit.IsRegular)
      (powers : ∀ f ∈ fs, f.power.val ≠ 0) (several : fs.map (·.power) ≠ [Power.one]) :
      IsRegular (.product fs)
  | transformed {parent : MeasureUnit} {c : Converter} (mark : Option Nat) (inner : parent.IsRegular)
      (plain : parent.isTransformed = false) (normal : IsTransform c) :
      IsRegular (.transformed parent c mark)
  | noted {actual : MeasureUnit} {note : String} (inner : actual.IsRegular)
      (legible : '\x7d' ∉ note.toList) : IsRegular (.noted actual note)

theorem IsRegular.isDistinct (h : u.IsRegular) : u.IsDistinct := by
  induction h with
  | base symbol => exact .base symbol
  | alternate symbol _ ih => exact .alternate symbol ih
  | product apart _ _ _ ih => exact .product apart ih
  | transformed mark _ _ _ ih => exact .transformed _ mark ih
  | noted _ _ ih => exact .noted _ ih

/-- The forms that operations build are regular, whatever converters are put in. -/
theorem isInvariant_isRegular : IsInvariant IsRegular fun _ => True where
  units := fun | .product _ units _ _ => units
  product apart units several :=
    .product apart (fun f hf => (units f hf).1) (fun f hf => (units f hf).2) several
  parent := fun | .transformed _ inner _ _ => ⟨inner, trivial⟩
  transformed inner plain normal _ := .transformed none inner plain normal
  changed := fun | .transformed _ inner plain _, normal, _ => .transformed none inner plain normal
  identity := trivial
  compose _ _ := trivial
  power _ _ := trivial

theorem IsBuilt.isRegular (h : u.IsBuilt) : u.IsRegular :=
  h.of_isInvariant isInvariant_isRegular .base (fun symbol _ => .alternate symbol)
    (fun legible inner => .noted inner legible) fun | .noted inner _ => inner

/-! ### Parts -/

/-- The parts of a unit: the unit itself, and what its parts are made of. -/
inductive HasPart (u : MeasureUnit) : MeasureUnit → Prop where
  | self : HasPart u u
  | alternate {symbol : String} {parent : MeasureUnit} (part : HasPart u (.alternate symbol parent)) :
      HasPart u parent
  | factor {fs : List (Factor MeasureUnit)} {f : Factor MeasureUnit} (part : HasPart u (.product fs))
      (mem : f ∈ fs) : HasPart u f.unit
  | transformed {parent : MeasureUnit} {c : Converter} {mark : Option Nat}
      (part : HasPart u (.transformed parent c mark)) : HasPart u parent
  | noted {actual : MeasureUnit} {note : String} (part : HasPart u (.noted actual note)) :
      HasPart u actual

theorem IsRegular.part (h : u.IsRegular) (part : u.HasPart w) : w.IsRegular := by
  induction part with
  | self => exact h
  | alternate _ ih => cases ih with | alternate _ inner => exact inner
  | factor _ mem ih => cases ih with | product _ units => exact units _ mem
  | transformed _ ih => cases ih with | transformed _ inner => exact inner
  | noted _ ih => cases ih with | noted inner => exact inner

theorem IsDistinct.part (h : u.IsDistinct) (part : u.HasPart w) : w.IsDistinct := by
  induction part with
  | self => exact h
  | alternate _ ih => cases ih with | alternate _ inner => exact inner
  | factor _ mem ih => cases ih with | product _ units => exact units _ mem
  | transformed _ ih => cases ih with | transformed _ _ inner => exact inner
  | noted _ ih => cases ih with | noted _ inner => exact inner

/-- Every part of a unit that is built has the form of its kind. -/
theorem IsBuilt.form_of_hasPart (h : u.IsBuilt) (part : u.HasPart w) :
    (∀ fs, w = .product fs →
      (fs.Pairwise fun f g => (f.unit == g.unit) = false ∧ (g.unit == f.unit) = false) ∧
      (∀ f ∈ fs, f.power.val ≠ 0) ∧ ∀ f, fs = [f] → f.power.val ≠ 1) ∧
    (∀ parent c mark, w = .transformed parent c mark →
      parent.isTransformed = false ∧ c ≠ .identity ∧ c.normalize = c) ∧
    (∀ actual note, w = .noted actual note → '\x7d' ∉ note.toList) := by
  have regular := h.isRegular.part part
  refine ⟨?_, ?_, ?_⟩
  · rintro fs rfl
    cases h.isDistinct.part part with | product _ units =>
    cases regular with | product apart _ powers several =>
    refine ⟨apart.both units, powers, ?_⟩
    rintro f rfl one
    exact several (by rw [List.map_singleton, show f.power = Power.one from Power.ext one])
  · rintro parent c mark rfl
    cases regular with | transformed _ _ plain normal =>
    exact ⟨plain, normal.2, normal.1⟩
  · rintro actual note rfl
    cases regular with | noted _ legible => exact legible

/-- A level over an acceleration: the parts of the product that it measures have their form. -/
theorem form_of_hasPart_level :
    let fs : List (Factor MeasureUnit) :=
      [⟨kilometre, Power.one⟩, ⟨base "s", ⟨-2, by decide, by decide⟩⟩]
    let gain := ((product fs).transform (.log 10)).transform (.add 1)
    let level := noted gain "level"
    level.IsBuilt ∧ level.HasPart (product fs) ∧
    (fs.Pairwise fun f g => (f.unit == g.unit) = false ∧ (g.unit == f.unit) = false) ∧
    (∀ f ∈ fs, f.power.val ≠ 0) ∧ ∀ f, fs = [f] → f.power.val ≠ 1 := by
  intro fs gain level
  have square : IsBuilt (product [⟨base "s", ⟨-2, by decide, by decide⟩⟩]) :=
    .pow ⟨-2, by decide, by decide⟩ (.base "s") rfl
  have acceleration : (product fs).IsBuilt := .mul isBuilt_kilometre square rfl
  have gained : gain.IsBuilt := (acceleration.transform _).transform _
  have built : level.IsBuilt := gained.annotate "level" (annotate_eq_ok.2 ⟨by decide, rfl⟩)
  have part : level.HasPart (product fs) := .transformed (.noted .self)
  exact ⟨built, part, (built.form_of_hasPart part).1 fs rfl⟩

end Metrology.MeasureUnit
