import Metrology.Catalog.Text
import Metrology.Proofs.Expression.Printing
import Metrology.Proofs.SymbolMap.Lookup

/-!
# The symbols of the catalog

A symbol map is faithful if its entries agree with each other, which can be computed. Those of
the catalog do. The units that are built from the catalog are tidy, and their leaves have
symbols.
-/
namespace Metrology

/-! ### Faithful symbol maps -/

namespace SymbolMap

/-- Whether each label is read as its unit, and all that is read, with a multiple in front or
without one, is a tidy unit with an identifier for its symbol. -/
structure IsConsistent (m : SymbolMap) : Prop where
  labels : ∀ entry ∈ m.labels, (m.units.lookup entry.2).any (· == entry.1) = true
  tidy : ∀ entry ∈ m.units, entry.2.isTidy = true
  names : ∀ entry ∈ m.units, Lexeme.isName entry.1.toList = true
  multiples : ∀ multiple ∈ m.multiples, ∀ entry ∈ m.units,
    Lexeme.isName (multiple.1.toList ++ entry.1.toList) = true

theorem IsConsistent.isFaithful {m : SymbolMap} (h : m.IsConsistent) : m.table.IsFaithful where
  labelled := by
    intro u symbol label
    obtain ⟨entry, found, rfl⟩ := Option.map_eq_some_iff.1 label
    have same : (entry.1 == u) = true := by simpa using List.find?_some found
    have read := h.labels entry (List.mem_of_find?_eq_some found)
    obtain ⟨v, read, equal⟩ := (Option.any_eq_true _ _).1 read
    refine ⟨v, ?_, ?_⟩
    · change (m.units.lookup entry.2 <|> _) = _
      rw [read]
      rfl
    · exact MeasureUnit.beq_symm (h.tidy _ (mem_of_lookup_eq_some read))
        (MeasureUnit.beq_trans equal same)
  tidy := by
    intro symbol v read
    rcases unit?_eq_some read with mem | ⟨multiple, -, entry, mem, -, rfl⟩
    · exact h.tidy (symbol, v) mem
    · exact MeasureUnit.isTidy_transform (h.tidy entry mem) _
  name := by
    intro symbol v read
    rcases unit?_eq_some read with mem | ⟨multiple, mem', entry, mem, eq, -⟩
    · exact h.names (symbol, v) mem
    · rw [eq]
      exact h.multiples multiple mem' entry mem

end SymbolMap

namespace Catalog

theorem isConsistent_symbols : symbols.IsConsistent where
  labels := by decide +kernel
  tidy := by decide +kernel
  names := by decide +kernel
  multiples := by decide +kernel

theorem isFaithful_symbols : symbols.table.IsFaithful := isConsistent_symbols.isFaithful

/-! ### Units of the catalog -/

theorem isTidy_of_mem_labels : ∀ entry ∈ labels, entry.1.isTidy = true := by
  decide +kernel

theorem isSome_symbol?_of_mem_labels :
    ∀ entry ∈ labels, (symbols.table.symbol? entry.1).isSome = true := by
  decide +kernel

theorem labels_metre : symbols.table.Labels metre :=
  .base (isSome_symbol?_of_mem_labels (metre, "m") (by simp [labels]))

theorem labels_cubicMetre : symbols.table.Labels cubicMetre := by
  refine (SymbolTable.isHereditary_labels _).product.2 fun f hf => ?_
  cases List.mem_singleton.1 hf
  exact labels_metre

/-- The leaves of a unit of the catalog have symbols. -/
theorem labels_of_mem_labels : ∀ entry ∈ labels, symbols.table.Labels entry.1 := by
  have one := (SymbolTable.isHereditary_labels symbols.table).one
  have kilogram : symbols.table.Labels kilogram :=
    .base (isSome_symbol?_of_mem_labels (kilogram, "kg") (by simp [labels]))
  have second : symbols.table.Labels second :=
    .base (isSome_symbol?_of_mem_labels (second, "s") (by simp [labels]))
  have kelvin : symbols.table.Labels kelvin :=
    .base (isSome_symbol?_of_mem_labels (kelvin, "K") (by simp [labels]))
  intro entry member
  have some := isSome_symbol?_of_mem_labels entry member
  simp only [labels, List.mem_cons, List.not_mem_nil, or_false] at member
  rcases member with rfl | rfl | rfl | rfl | rfl | rfl | rfl | rfl | rfl | rfl | rfl | rfl | rfl |
    rfl | rfl | rfl | rfl | rfl | rfl | rfl
  all_goals first
    | exact .base some
    | exact .alternate some
    | exact .transformed _ _ kilogram
    | exact .transformed _ _ labels_cubicMetre
    | exact .transformed _ _ second
    | exact .transformed _ _ kelvin
    | exact .transformed _ _ one

/-- A unit of the catalog has no notes in it. -/
theorem isUnnoted_of_mem_labels : ∀ entry ∈ labels, entry.1.IsUnnoted := by
  have one := MeasureUnit.isHereditary_isUnnoted.one
  have cubicMetre : cubicMetre.IsUnnoted := by
    refine MeasureUnit.isHereditary_isUnnoted.product.2 fun f hf => ?_
    cases List.mem_singleton.1 hf
    exact .base _
  intro entry member
  simp only [labels, List.mem_cons, List.not_mem_nil, or_false] at member
  rcases member with rfl | rfl | rfl | rfl | rfl | rfl | rfl | rfl | rfl | rfl | rfl | rfl | rfl |
    rfl | rfl | rfl | rfl | rfl | rfl | rfl
  all_goals first
    | exact .base _
    | exact .alternate _ _
    | exact .transformed _ _ (.base _)
    | exact .transformed _ _ cubicMetre
    | exact .transformed _ _ one

end Catalog

end Metrology
