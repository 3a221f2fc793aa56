import Metrology.Proofs.Catalog.Symbols
import Metrology.Proofs.Expression.Texts

/-!
# Writing and reading back

A unit that is built from those of the catalog is read back from its text, whatever the style, if
the language has words for its steps and the text does not nest too deep.
-/
namespace Metrology.Catalog

open Expression (maxDepth)

/-- The units that are built from those of the catalog and the dimensionless unit. -/
inductive IsConstructible : MeasureUnit → Prop where
  | labelled {entry : MeasureUnit × String} (member : entry ∈ labels) : IsConstructible entry.1
  | cubicMetre : IsConstructible cubicMetre
  | one : IsConstructible MeasureUnit.one
  | mul {u v w : MeasureUnit} (left : IsConstructible u) (right : IsConstructible v)
      (ok : u.mul v = .ok w) : IsConstructible w
  | div {u v w : MeasureUnit} (left : IsConstructible u) (right : IsConstructible v)
      (ok : u.div v = .ok w) : IsConstructible w
  | pow {u w : MeasureUnit} (n : Power) (unit : IsConstructible u) (ok : u.pow n = .ok w) :
      IsConstructible w
  | reciprocal {u w : MeasureUnit} (unit : IsConstructible u) (ok : u.reciprocal = .ok w) :
      IsConstructible w
  | transform {u : MeasureUnit} (c : Converter) (unit : IsConstructible u) :
      IsConstructible (u.transform c)
  | shift {u : MeasureUnit} (x : Rat) (unit : IsConstructible u) : IsConstructible (u.shift x)

namespace IsConstructible

variable {u : MeasureUnit}

/-- Each operation keeps a unit tidy. -/
theorem isTidy (h : IsConstructible u) : u.isTidy = true := by
  induction h with
  | labelled member => exact isTidy_of_mem_labels _ member
  | cubicMetre => decide +kernel
  | one => exact MeasureUnit.isTidy_one
  | mul _ _ ok left right => exact MeasureUnit.isTidy_mul left right ok
  | div _ _ ok left right => exact MeasureUnit.isTidy_div left right ok
  | pow _ _ ok unit => exact MeasureUnit.isTidy_pow unit ok
  | reciprocal _ ok unit => exact MeasureUnit.isTidy_pow unit ok
  | transform c _ unit => exact MeasureUnit.isTidy_transform unit c
  | shift x _ unit => exact MeasureUnit.isTidy_shift unit x

/-- What the units of the catalog have and units get from their parts, all units have. -/
theorem of_isHereditary {P : MeasureUnit → Prop} (hereditary : MeasureUnit.IsHereditary P)
    (atoms : ∀ entry ∈ labels, P entry.1) (h : IsConstructible u) : P u := by
  induction h with
  | labelled member => exact atoms _ member
  | cubicMetre =>
    refine hereditary.product.2 fun f hf => ?_
    cases List.mem_singleton.1 hf
    exact atoms (metre, "m") (by simp [labels])
  | one => exact hereditary.one
  | mul _ _ ok left right => exact hereditary.mul left right ok
  | div _ _ ok left right => exact hereditary.div left right ok
  | pow _ _ ok unit => exact hereditary.pow unit ok
  | reciprocal _ ok unit => exact hereditary.pow unit ok
  | transform c _ unit => exact hereditary.transform unit c
  | shift x _ unit => exact hereditary.shift unit x

end IsConstructible

/-- The text of a unit without notes is what is printed for it. -/
theorem format_of_isUnnoted {printer : Expression.Printer} {u : MeasureUnit} (h : u.IsUnnoted) :
    Expression.format printer u = (printer.render u).text := by
  cases h <;> rfl

/-- A unit that is built from those of the catalog is read back from its text, in any style. -/
theorem exists_parse_format {u : MeasureUnit} (style : Expression.Style)
    (constructible : IsConstructible u) (spoken : u.IsSpoken)
    (shallow : nesting 0 false (Expression.format (printer style) u).toList < maxDepth) :
    ∃ v, parse (Expression.format (printer style) u) = .ok v ∧ (v == u) = true := by
  have tidy := constructible.isTidy
  have unnoted := constructible.of_isHereditary MeasureUnit.isHereditary_isUnnoted
    isUnnoted_of_mem_labels
  have labels := constructible.of_isHereditary (SymbolTable.isHereditary_labels symbols.table)
    labels_of_mem_labels
  have printable := (printer style).isPrintable_of_isSpoken unnoted tidy spoken
  obtain ⟨renders, -⟩ := Expression.renders_render isFaithful_symbols tidy labels printable
  rw [format_of_isUnnoted unnoted] at shallow ⊢
  exact Expression.parse_of_renders renders tidy shallow

/-- Kilometres per hour, which take a multiple and a label with a converter. -/
theorem exists_parse_format_speed :
    (metre.transform (powerOfTen 3)).div hour = .ok (.product
        [⟨.transformed metre (powerOfTen 3), Power.one⟩, ⟨hour, Power.negOne⟩]) ∧
      ∃ v, parse (Expression.format (printer {}) (.product
          [⟨.transformed metre (powerOfTen 3), Power.one⟩, ⟨hour, Power.negOne⟩])) = .ok v ∧
        (v == .product [⟨.transformed metre (powerOfTen 3), Power.one⟩, ⟨hour, Power.negOne⟩]) = true := by
  have ok : (metre.transform (powerOfTen 3)).div hour = .ok (.product
      [⟨.transformed metre (powerOfTen 3), Power.one⟩, ⟨hour, Power.negOne⟩]) := rfl
  have constructible : IsConstructible (.product
      [⟨.transformed metre (powerOfTen 3), Power.one⟩, ⟨hour, Power.negOne⟩]) :=
    .div (.transform _ (@IsConstructible.labelled (metre, "m") (by simp [labels])))
      (@IsConstructible.labelled (hour, "h") (by simp [labels])) ok
  have scaled : ∀ s ∈ (powerOfTen 3).steps, s.IsSpoken := by
    intro s hs
    cases List.mem_singleton.1 hs
    exact ⟨by decide, Nat.one_lt_two_pow (by decide)⟩
  have hours : ∀ s ∈ (Converter.ratio ⟨3600, 1, by decide, by decide, by decide⟩).steps,
      s.IsSpoken := by
    intro s hs
    cases List.mem_singleton.1 hs
    exact ⟨by decide, Nat.one_lt_two_pow (by decide)⟩
  refine ⟨ok, exists_parse_format {} constructible (.product ?_ ?_) (by decide +kernel)⟩
  · intro f hf
    simp only [List.mem_cons, List.not_mem_nil, or_false] at hf
    rcases hf with rfl | rfl
    · exact .transformed _ (.base _) scaled
    · exact .transformed _ (.base _) hours
  · decide

end Metrology.Catalog
