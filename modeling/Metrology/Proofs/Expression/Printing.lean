import Metrology.Proofs.Expression.Factors
import Metrology.Proofs.Expression.Notes
import Metrology.Proofs.MeasureUnit.Parts

/-!
# Printed units

What is printed for a unit is read back as that unit, if its leaves have symbols, the language
has words for its steps and its notes are on operands. The induction over the unit also says
that only a transformed unit is printed as a sum, so that an offset always finds an operand.
-/
namespace Metrology

/-- Whether the language has words for all steps in a unit. The magnitude of a power has to be
one itself. -/
inductive MeasureUnit.IsSpoken : MeasureUnit → Prop where
  | base (symbol : String) : IsSpoken (.base symbol)
  | alternate (symbol : String) (parent : MeasureUnit) : IsSpoken (.alternate symbol parent)
  | product {fs : List (Factor MeasureUnit)} (units : ∀ f ∈ fs, f.unit.IsSpoken)
      (powers : ∀ f ∈ fs, f.power.val ≠ -2147483648) : IsSpoken (.product fs)
  | transformed {parent : MeasureUnit} {c : Converter} (mark : Option Nat)
      (spoken : parent.IsSpoken) (steps : ∀ s ∈ c.steps, s.IsSpoken) :
      IsSpoken (.transformed parent c mark)
  | noted {actual : MeasureUnit} (note : String) (spoken : actual.IsSpoken) :
      IsSpoken (.noted actual note)

inductive MeasureUnit.IsUnnoted : MeasureUnit → Prop where
  | base (symbol : String) : IsUnnoted (.base symbol)
  | alternate (symbol : String) (parent : MeasureUnit) : IsUnnoted (.alternate symbol parent)
  | product {fs : List (Factor MeasureUnit)} (units : ∀ f ∈ fs, f.unit.IsUnnoted) :
      IsUnnoted (.product fs)
  | transformed {parent : MeasureUnit} (c : Converter) (mark : Option Nat)
      (unnoted : parent.IsUnnoted) : IsUnnoted (.transformed parent c mark)

theorem MeasureUnit.isHereditary_isUnnoted : IsHereditary IsUnnoted where
  product := ⟨fun | .product units => units, .product⟩
  transformed := ⟨fun | .transformed _ _ unnoted => unnoted, .transformed _ _⟩

/-- Whether all notes in a unit are related to what they are on. -/
inductive MeasureUnit.HasNotes (P : MeasureUnit → String → Prop) : MeasureUnit → Prop where
  | base (symbol : String) : HasNotes P (.base symbol)
  | alternate (symbol : String) (parent : MeasureUnit) : HasNotes P (.alternate symbol parent)
  | product {fs : List (Factor MeasureUnit)} (units : ∀ f ∈ fs, f.unit.HasNotes P) :
      HasNotes P (.product fs)
  | transformed {parent : MeasureUnit} (c : Converter) (mark : Option Nat)
      (inner : parent.HasNotes P) : HasNotes P (.transformed parent c mark)
  | noted {actual : MeasureUnit} {note : String} (inner : actual.HasNotes P)
      (outer : P actual note) : HasNotes P (.noted actual note)

theorem MeasureUnit.isHereditary_hasNotes (P : MeasureUnit → String → Prop) :
    IsHereditary (HasNotes P) where
  product := ⟨fun | .product units => units, .product⟩
  transformed := ⟨fun | .transformed _ _ inner => inner, .transformed _ _⟩

theorem MeasureUnit.hasNotes_of_isUnnoted {P : MeasureUnit → String → Prop} {u : MeasureUnit}
    (unnoted : u.IsUnnoted) : u.HasNotes P := by
  induction unnoted with
  | base symbol => exact .base symbol
  | alternate symbol parent => exact .alternate symbol parent
  | product _ ih => exact .product ih
  | transformed c mark _ ih => exact .transformed c mark ih

/-- Whether no note closes before its end. -/
def MeasureUnit.ClosesNotes (u : MeasureUnit) : Prop := u.HasNotes fun _ note => '\x7d' ∉ note.toList

inductive SymbolTable.Labels (table : SymbolTable) : MeasureUnit → Prop where
  | base {symbol : String} (label : (table.symbol? (.base symbol)).isSome = true) :
      table.Labels (.base symbol)
  | alternate {symbol : String} {parent : MeasureUnit}
      (label : (table.symbol? (.alternate symbol parent)).isSome = true) :
      table.Labels (.alternate symbol parent)
  | product {fs : List (Factor MeasureUnit)} (units : ∀ f ∈ fs, table.Labels f.unit) :
      table.Labels (.product fs)
  | transformed {parent : MeasureUnit} (c : Converter) (mark : Option Nat)
      (labels : table.Labels parent) : table.Labels (.transformed parent c mark)
  | noted {actual : MeasureUnit} (note : String) (labels : table.Labels actual) :
      table.Labels (.noted actual note)

theorem SymbolTable.isHereditary_labels (table : SymbolTable) : MeasureUnit.IsHereditary table.Labels where
  product := ⟨fun | .product units => units, .product⟩
  transformed := ⟨fun | .transformed _ _ labels => labels, .transformed _ _⟩

namespace Expression

/-- Whether the text of a unit says all of it: the magnitudes of powers are powers, the printed
steps have words, and notes are on operands. -/
inductive Printer.IsPrintable (p : Printer) : MeasureUnit → Prop where
  | base (symbol : String) : p.IsPrintable (.base symbol)
  | alternate (symbol : String) (parent : MeasureUnit) : p.IsPrintable (.alternate symbol parent)
  | product {fs : List (Factor MeasureUnit)} (units : ∀ f ∈ fs, p.IsPrintable f.unit)
      (powers : ∀ f ∈ fs, f.power.val ≠ -2147483648) : p.IsPrintable (.product fs)
  | transformed {parent : MeasureUnit} {c : Converter} (mark : Option Nat)
      (printable : p.IsPrintable parent) (proper : c.IsProper)
      (steps : ∀ s ∈ p.printedSteps parent c, s.IsSpoken) :
      p.IsPrintable (.transformed parent c mark)
  | noted {actual : MeasureUnit} {note : String} (printable : p.IsPrintable actual)
      (operand : p.isOperand actual = true) (closed : '\x7d' ∉ note.toList) :
      p.IsPrintable (.noted actual note)

def Printer.NotesOperands (p : Printer) (u : MeasureUnit) : Prop :=
  u.HasNotes fun actual _ => p.isOperand actual = true

/-- A unit is printable if the language has words for its steps and its notes are on operands. -/
theorem Printer.isPrintable_of_notesOperands (p : Printer) {u : MeasureUnit} (operands : p.NotesOperands u)
    (closed : u.ClosesNotes) (tidy : u.isTidy = true) (spoken : u.IsSpoken) : p.IsPrintable u := by
  induction operands with
  | base symbol => exact .base symbol
  | alternate symbol parent => exact .alternate symbol parent
  | product _ ih =>
    cases spoken with
    | product units powers =>
      cases closed with
      | product closed =>
        have tidy := (MeasureUnit.isTidy_product.1 tidy).2
        exact .product (fun f hf => ih f hf (closed f hf) (tidy f hf) (units f hf)) powers
  | @transformed parent c mark _ ih =>
    cases spoken with
    | transformed _ spoken steps =>
      cases closed with
      | transformed _ _ closed =>
        obtain ⟨tidy, -, ⟨normal, -⟩, -⟩ := MeasureUnit.isTidy_transformed.1 tidy
        have proper : c.IsProper := by
          rw [← (Converter.isNormal_of_normalize normal).2]
          exact isProper_ofSteps_of_isSpoken steps
        exact .transformed mark (ih closed tidy spoken) proper (isSpoken_printedSteps p normal steps)
  | noted _ operand ih =>
    cases spoken with
    | noted _ spoken =>
      cases closed with
      | noted inner outer => exact .noted (ih inner tidy spoken) operand outer

/-- A unit without notes is printable if the language has words for its steps. -/
theorem Printer.isPrintable_of_isSpoken (p : Printer) {u : MeasureUnit} (unnoted : u.IsUnnoted)
    (tidy : u.isTidy = true) (spoken : u.IsSpoken) : p.IsPrintable u :=
  p.isPrintable_of_notesOperands (MeasureUnit.hasNotes_of_isUnnoted unnoted)
    (MeasureUnit.hasNotes_of_isUnnoted unnoted) tidy spoken

open MeasureUnit

variable {printer : Printer} {u : MeasureUnit}

theorem renderFactors_eq_map (printer : Printer) (fs : List (Factor MeasureUnit)) :
    printer.renderFactors fs = fs.map fun f => ⟨printer.render f.unit, f.power⟩ := by
  induction fs with
  | nil => rfl
  | cons f fs ih =>
    obtain ⟨unit, power⟩ := f
    rw [Printer.renderFactors, ih, List.map_cons, Printer.renderFactor]

/-- A tidy transformed unit is its parent transformed. -/
theorem transform_eq_transformed {parent : MeasureUnit} {c : Converter} {mark : Option Nat}
    (tidy : (transformed parent c mark).isTidy = true) :
    parent.transform c = transformed parent c mark := by
  have isOver := isOver_transformed tidy
  rw [(isOver_self isOver.plain).transform, isOver.eq]
  change parent.overParent c.normalize = _
  rw [isOver.normal]

theorem render_of_symbol {s : String} (label : printer.table.symbol? u = some s) :
    printer.render u = .atom s := by
  cases u <;> rw [Printer.render, label] <;> rfl

/-- A unit with a symbol is read back from it. -/
theorem renders_of_symbol (faithful : printer.table.IsFaithful) {s : String}
    (label : printer.table.symbol? u = some s) :
    Renders printer.table (printer.render u) u ∧ (printer.render u).precedence ≠ .addition := by
  rw [render_of_symbol label]
  exact ⟨Or.inr (reads_label faithful label), nofun⟩

/-- A transformed unit without a symbol is read back as the steps from its parent, or from what
stands in for that. -/
theorem renders_transformed (faithful : printer.table.IsFaithful) {parent : MeasureUnit}
    {c : Converter} {mark : Option Nat} (tidy : (transformed parent c mark).isTidy = true)
    (label : printer.table.symbol? (transformed parent c mark) = none) (proper : c.IsProper)
    (steps : ∀ s ∈ printer.printedSteps parent c, s.IsSpoken)
    (renders : Renders printer.table (printer.render parent) parent)
    (strong : (printer.render parent).precedence ≠ .addition) :
    Renders printer.table (printer.render (transformed parent c mark))
      (transformed parent c mark) := by
  obtain ⟨-, plain, ⟨normal, -⟩, -⟩ := isTidy_transformed.1 tidy
  rw [Printer.render, label, ← transform_eq_transformed tidy]
  unfold Printer.printedSteps at steps
  cases found : printer.substituted? parent c with
  | some substitute =>
    obtain ⟨preferred, s, k⟩ := substitute
    rw [found] at steps
    exact renders_substituted faithful steps proper normal found
  | none =>
    rw [found] at steps
    exact renders_chainText faithful steps normal renders strong (isProper_of_plain plain)

/-- What is printed for a unit is read back. -/
theorem renders_render (faithful : printer.table.IsFaithful) (tidy : u.isTidy = true)
    (labels : printer.table.Labels u) (printable : printer.IsPrintable u) :
    Renders printer.table (printer.render u) u ∧
      (u.isTransformed = false → (printer.render u).precedence ≠ .addition) := by
  induction u with
  | base symbol | alternate symbol parent =>
    cases labels with | _ label =>
    obtain ⟨s, label⟩ := Option.isSome_iff_exists.1 label
    obtain ⟨renders, strong⟩ := renders_of_symbol faithful label
    exact ⟨renders, fun _ => strong⟩
  | product fs ih =>
    cases label : printer.table.symbol? (product fs) with
    | some s =>
      obtain ⟨renders, strong⟩ := renders_of_symbol faithful label
      exact ⟨renders, fun _ => strong⟩
    | none =>
      cases labels with | product labels =>
      cases printable with | product units powers =>
      have unitsTidy := (isTidy_product.1 tidy).2
      have renders := renders_product printer printer.render tidy
        (fun f hf => (ih f hf (unitsTidy f hf) (labels f hf) (units f hf)).1) powers
      rw [Printer.render, label, renderFactors_eq_map]
      exact ⟨renders, fun _ => nofun⟩
  | transformed parent c mark ih =>
    refine ⟨?_, nofun⟩
    cases label : printer.table.symbol? (transformed parent c mark) with
    | some s => exact (renders_of_symbol faithful label).1
    | none =>
      cases labels with | transformed _ _ labels =>
      cases printable with | transformed _ printable proper steps =>
      obtain ⟨parentTidy, plain, -, -⟩ := isTidy_transformed.1 tidy
      obtain ⟨renders, strong⟩ := ih parentTidy labels printable
      exact renders_transformed faithful tidy label proper steps renders (strong plain)
  | noted actual note ih =>
    cases label : printer.table.symbol? (noted actual note) with
    | some s =>
      obtain ⟨renders, strong⟩ := renders_of_symbol faithful label
      exact ⟨renders, fun _ => strong⟩
    | none =>
      cases labels with | noted _ labels =>
      cases printable with | noted printable operand closed =>
      obtain ⟨renders, -⟩ := ih tidy labels printable
      obtain ⟨t, notes⟩ := exists_notes renders operand closed
      rw [Printer.render, label]
      exact ⟨Or.inr notes.reads, fun _ => nofun⟩

end Expression

end Metrology
