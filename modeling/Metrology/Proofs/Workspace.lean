import Mathlib.Logic.Relation
import Metrology.Proofs.MeasureUnit.Marks
import Metrology.Proofs.SymbolMap.Lookup
import Metrology.Workspace

/-!
# Kept units

A workspace marks the units that it keeps, with numbers above all marks in them. So a kept unit equals
itself and is definite, and units that are made of kept units can be marked in turn.
-/
namespace Metrology

namespace MeasureUnit

/-- Whether a unit can be marked with the numbers from `n` on. -/
structure IsMarkable (n : Nat) (u : MeasureUnit) : Prop where
  distinct : u.IsDistinct
  below : u.MarksBelow n

variable {u : MeasureUnit} {n : Nat}

/-- What the operations make of units that can be marked can be marked. -/
theorem isInvariant_isMarkable : IsInvariant (IsMarkable n) fun _ => True where
  units h f hf :=
    ⟨isClosed_isDistinct.units h.distinct f hf, isInvariant_marksBelow.units h.below f hf⟩
  product apart units _ := ⟨.product apart fun f hf => (units f hf).1.distinct,
    .product fun f hf => (units f hf).1.below⟩
  parent h := ⟨⟨(isClosed_isDistinct.transformed.1 h.distinct).1,
    (isInvariant_marksBelow.parent h.below).1⟩, trivial⟩
  transformed h plain normal _ := ⟨.transformed _ _ h.distinct,
    isInvariant_marksBelow.transformed h.below plain normal trivial⟩
  changed h normal _ := ⟨.transformed _ _ (isClosed_isDistinct.transformed.1 h.distinct).1,
    isInvariant_marksBelow.changed h.below normal trivial⟩
  identity := trivial
  compose _ _ := trivial
  power _ _ := trivial

/-- Whether a unit is marked, with numbers below `n`. -/
structure IsMarked (n : Nat) (u : MeasureUnit) : Prop extends IsMarkable n u where
  self : (u == u) = true

theorem IsMarked.mono {m : Nat} (h : u.IsMarked n) (le : n ≤ m) : u.IsMarked m :=
  ⟨⟨h.distinct, h.below.mono le⟩, h.self⟩

theorem IsMarked.isDefinite (h : u.IsMarked n) : u.IsDefinite := .of_beq_self h.distinct h.self

theorem IsMarkable.isMarked_marked (h : u.IsMarkable n) :
    (u.marked.run n).1.IsMarked (u.marked.run n).2 :=
  ⟨⟨h.distinct.marked h.below, marksBelow_marked h.below⟩, marked_beq_self u n⟩

end MeasureUnit

namespace Workspace

open MeasureUnit

variable {w w' : Workspace} {u : MeasureUnit}

/-- Whether all units that a workspace keeps are marked, and with numbers that were given out. -/
structure IsMarked (w : Workspace) : Prop where
  units : ∀ entry ∈ w.units, entry.2.IsMarked w.marks
  symbols : ∀ entry ∈ w.symbols.units, entry.2.IsMarked w.marks

/-- The units that can be made in a workspace: those that it keeps, those that are read or built, and
what the operations make of them. -/
inductive Makes (w : Workspace) : MeasureUnit → Prop where
  | kept {name : String} {u : MeasureUnit} (found : w.unit? name = some u) : Makes w u
  | read {symbol : String} {u : MeasureUnit} (found : w.symbols.unit? symbol = some u) : Makes w u
  | built {u : MeasureUnit} (unit : u.IsBuilt) : Makes w u
  | alternate (symbol : String) {parent : MeasureUnit} (unit : Makes w parent) :
      Makes w (.alternate symbol parent)
  | product {fs : List (Factor MeasureUnit)} {u : MeasureUnit} (units : ∀ f ∈ fs, Makes w f.unit)
      (ok : ofProduct fs = .ok u) : Makes w u
  | mul {u v x : MeasureUnit} (left : Makes w u) (right : Makes w v) (ok : u.mul v = .ok x) :
      Makes w x
  | div {u v x : MeasureUnit} (left : Makes w u) (right : Makes w v) (ok : u.div v = .ok x) :
      Makes w x
  | pow {u x : MeasureUnit} (n : Power) (unit : Makes w u) (ok : u.pow n = .ok x) : Makes w x
  | root {u x : MeasureUnit} (n : Power) (unit : Makes w u) (ok : u.root? n = some x) : Makes w x
  | transform {u : MeasureUnit} (c : Converter) (unit : Makes w u) : Makes w (u.transform c)
  | shift {u : MeasureUnit} (x : Rat) (unit : Makes w u) : Makes w (u.shift x)
  | annotate {u x : MeasureUnit} (note : String) (unit : Makes w u)
      (ok : u.annotate note = .ok x) : Makes w x
  | system {u x : MeasureUnit} (unit : Makes w u) (ok : u.systemUnit = .ok x) : Makes w x

/-- What a workspace turns into as it takes up a unit, a converter, a symbol or a whole symbol map. -/
inductive Step (w : Workspace) : Workspace → Prop where
  | setUnit (name : String) {u : MeasureUnit} (made : w.Makes u) : Step w (w.setUnit name u)
  | setConverter (name : String) (c : Converter) : Step w (w.setConverter name c)
  | addLabel {u : MeasureUnit} (made : w.Makes u) (symbol : String) : Step w (w.addLabel u symbol)
  | addAlias {u : MeasureUnit} (made : w.Makes u) (symbol : String) : Step w (w.addAlias u symbol)
  | addMultiple (c : Converter) (symbol : String) :
      Step w (w.setSymbols (w.symbols.addMultiple c symbol))
  | addMultipleAlias (c : Converter) (symbol : String) :
      Step w (w.setSymbols (w.symbols.addMultipleAlias c symbol))
  | setSymbols {symbols : SymbolMap}
      (built : ∀ entry ∈ symbols.units, entry.2.IsBuilt ∧ (entry.2 == entry.2) = true) :
      Step w (w.setSymbols symbols)

/-- Whatever is made in a workspace can be marked with the numbers that it gives out next. -/
theorem IsMarked.isMarkable (h : w.IsMarked) (made : w.Makes u) : u.IsMarkable w.marks := by
  induction made with
  | kept found => exact (h.units _ (SymbolMap.mem_of_lookup_eq_some found)).toIsMarkable
  | read found =>
    rcases SymbolMap.unit?_eq_some found with member | ⟨multiple, -, entry, member, -, rfl⟩
    · exact (h.symbols _ member).toIsMarkable
    · exact isInvariant_isMarkable.transform (h.symbols _ member).toIsMarkable trivial
  | built unit => exact ⟨unit.isDistinct, unit.marksBelow⟩
  | alternate symbol _ ih => exact ⟨.alternate symbol ih.distinct, .alternate symbol ih.below⟩
  | product _ ok ih => exact isInvariant_isMarkable.ofProduct ih ok
  | mul _ _ ok left right => exact isInvariant_isMarkable.mul left right ok
  | div _ _ ok left right => exact isInvariant_isMarkable.div left right ok
  | pow n _ ok ih => exact isInvariant_isMarkable.pow ih ok
  | root n _ ok ih => exact isInvariant_isMarkable.root? ih ok
  | transform c _ ih => exact isInvariant_isMarkable.transform ih trivial
  | shift x _ ih => exact isInvariant_isMarkable.shift ih fun _ => trivial
  | annotate note _ ok ih =>
    obtain ⟨-, rfl⟩ := annotate_eq_ok.1 ok
    exact ⟨.noted note ih.distinct, .noted note ih.below⟩
  | system _ ok ih =>
    refine isInvariant_isMarkable.systemUnit ?_ ih ok
    intro actual note noted
    cases noted.distinct with | noted _ distinct =>
    cases noted.below with | noted _ below =>
    exact ⟨distinct, below⟩

theorem isMarked_empty : empty.IsMarked := ⟨List.forall_mem_nil _, List.forall_mem_nil _⟩

theorem IsMarked.mark (h : w.IsMarked) (u : MeasureUnit) : (w.mark u).2.IsMarked where
  units entry member := (h.units entry member).mono (le_marked u w.marks)
  symbols entry member := (h.symbols entry member).mono (le_marked u w.marks)

/-- A marked unit may be given a symbol. -/
theorem IsMarked.insert (h : w.IsMarked) (marked : u.IsMarked w.marks) (symbol : String) :
    (w.setSymbols (w.symbols.addAlias u symbol)).IsMarked := by
  refine ⟨h.units, List.forall_mem_cons.2 ⟨marked, fun entry member => ?_⟩⟩
  exact h.symbols entry (List.mem_of_mem_filter member)

/-- A step marks what it keeps, with numbers above all that were given out. -/
theorem IsMarked.step (h : w.IsMarked) (step : Step w w') : w'.IsMarked := by
  cases step with
  | setUnit name made =>
    have marked := (h.isMarkable made).isMarked_marked
    exact ⟨List.forall_mem_cons.2 ⟨marked, (h.mark _).units⟩, (h.mark _).symbols⟩
  | setConverter name c => exact ⟨h.units, h.symbols⟩
  | addLabel made symbol =>
    have kept := (h.mark _).insert (h.isMarkable made).isMarked_marked symbol
    exact ⟨kept.units, kept.symbols⟩
  | addAlias made symbol => exact (h.mark _).insert (h.isMarkable made).isMarked_marked symbol
  | addMultiple c symbol => exact ⟨h.units, h.symbols⟩
  | addMultipleAlias c symbol => exact ⟨h.units, h.symbols⟩
  | setSymbols built =>
    refine ⟨h.units, fun entry member => ?_⟩
    obtain ⟨unit, self⟩ := built entry member
    exact ⟨⟨unit.isDistinct, unit.marksBelow⟩, self⟩

/-- Whatever a workspace has come to keep is marked. -/
theorem isMarked_of_steps (steps : Relation.ReflTransGen Step empty w) : w.IsMarked := by
  induction steps with
  | refl => exact isMarked_empty
  | tail _ step ih => exact ih.step step

/-- A unit that a workspace has come to keep equals itself and is definite, and its system unit equals
itself. -/
theorem isDefinite_of_steps {name : String} (steps : Relation.ReflTransGen Step empty w)
    (found : w.unit? name = some u) :
    (u == u) = true ∧ u.IsDefinite ∧ ∀ s, u.systemUnit = .ok s → (s == s) = true := by
  have marked := (isMarked_of_steps steps).units _ (SymbolMap.mem_of_lookup_eq_some found)
  exact ⟨marked.self, marked.isDefinite, fun s => marked.isDefinite.systemUnit_beq_self⟩

end Workspace

end Metrology
