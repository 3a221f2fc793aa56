import Metrology.Proofs.Catalog.Symbols
import Metrology.Proofs.Expression.Exactness
import Metrology.Proofs.Expression.Styles

/-!
# Styles do not change the meaning

Whatever is printed for a unit in one style is read with the symbols of the catalog as what is
printed for it in any other: as an equal unit, or not at all. The unit need not be one that is read
back, and may have symbols and steps that the catalog does not know.
-/
namespace Metrology.Catalog

open Expression (Style IsWord)

/-! ### Symbols of the catalog -/

theorem isExact_symbols : symbols.table.IsExact := by
  have entries : ∀ entry ∈ symbols.units, entry.2.EveryConverter Converter.IsProper := by
    decide +kernel
  have multiples : ∀ multiple ∈ symbols.multiples, multiple.2.IsProper := by decide +kernel
  intro symbol v found
  rcases SymbolMap.unit?_eq_some found with mem | ⟨multiple, mem, entry, mem', -, rfl⟩
  · exact entries _ mem
  · exact Expression.isInvariant_exact.transform (entries _ mem') (multiples _ mem)

/-! ### Symbols of a unit -/

def IsIdentifier (symbol : String) : Prop :=
  tokenize symbol = .ok [⟨.identifier symbol, 0⟩, ⟨.endOfInput, symbol.length⟩]

theorem isWord_of_isIdentifier {symbol : String} (h : IsIdentifier symbol) : IsWord symbol := by
  unfold IsIdentifier tokenize at h
  cases scanned : (Scanner.ofText symbol).tokens with
  | error e =>
    rw [scanned] at h
    cases h
  | ok tokens =>
    rw [scanned] at h
    have tokens_eq : tokens = [⟨.identifier symbol, 0⟩] :=
      List.append_cancel_right (Except.ok.inj h)
    exact Expression.isWord_of_mem_tokens scanned ⟨.identifier symbol, 0⟩ (by simp [tokens_eq]) symbol rfl

/-- The texts of a unit in two styles are both read, as equal units, or both refused. -/
theorem parse_format_styles {u : MeasureUnit} (built : u.IsBuilt)
    (identifiers : u.EverySymbol IsIdentifier) (s s' : Style) :
    (∃ v w, parse (Expression.format (printer s) u) = .ok v ∧
      parse (Expression.format (printer s') u) = .ok w ∧ (v == w) = true) ∨
    ∃ e e', parse (Expression.format (printer s) u) = .error e ∧
      parse (Expression.format (printer s') u) = .error e' := by
  have words := identifiers.imp fun _ => isWord_of_isIdentifier
  have same := Expression.toOption_parse_format isFaithful_symbols words built.isRegular s s'
  change (parse (Expression.format (printer s) u)).toOption =
    (parse (Expression.format (printer s') u)).toOption at same
  cases first : parse (Expression.format (printer s) u) with
  | ok v =>
    rw [first] at same
    have second := toOption_eq_some_iff.1 same.symm
    exact Or.inl ⟨v, v, rfl, second, Expression.beq_self_of_parse isExact_symbols first⟩
  | error e =>
    cases second : parse (Expression.format (printer s') u) with
    | ok w =>
      rw [first, second] at same
      cases same
    | error e' => exact Or.inr ⟨e, e', rfl, rfl⟩

/-- A product with a power and a note, whose texts in two styles have different words. -/
theorem parse_format_styles_inertia :
    let inertia : MeasureUnit :=
      .noted (.product [⟨metre, ⟨2, by decide, by decide⟩⟩, ⟨kilogram, Power.one⟩]) "inertia"
    let plain : Style := ⟨.asterisk, .caret⟩
    let fine : Style := ⟨.middleDot, .superscript⟩
    Expression.format (printer plain) inertia = "m^2*kg\x7binertia\x7d" ∧
    Expression.format (printer fine) inertia = "m²·kg\x7binertia\x7d" ∧
    (inertia.IsBuilt ∧ inertia.EverySymbol IsIdentifier) ∧
    ((∃ v w, parse (Expression.format (printer plain) inertia) = .ok v ∧
      parse (Expression.format (printer fine) inertia) = .ok w ∧ (v == w) = true) ∨
    ∃ e e', parse (Expression.format (printer plain) inertia) = .error e ∧
      parse (Expression.format (printer fine) inertia) = .error e') := by
  intro inertia plain fine
  have square : metre.pow ⟨2, by decide, by decide⟩ =
      .ok (.product [⟨metre, ⟨2, by decide, by decide⟩⟩]) := rfl
  have product : MeasureUnit.mul (.product [⟨metre, ⟨2, by decide, by decide⟩⟩]) kilogram =
      .ok (.product [⟨metre, ⟨2, by decide, by decide⟩⟩, ⟨kilogram, Power.one⟩]) := rfl
  have noted : MeasureUnit.annotate (.product [⟨metre, ⟨2, by decide, by decide⟩⟩, ⟨kilogram, Power.one⟩])
      "inertia" = .ok inertia := rfl
  have built : inertia.IsBuilt :=
    .annotate _ (.mul (.pow _ (.base "m") square) (.base "kg") product) noted
  have m : IsIdentifier "m" := by
    have scanned : (Scanner.ofText "m").tokens = .ok [⟨.identifier "m", 0⟩] := by
      refine Scanner.tokens_of_next ⟨[], 1⟩ rfl (by simp) ?_
      exact Scanner.tokens_of_end ⟨[], 1⟩ rfl rfl
    rw [IsIdentifier, tokenize, scanned]
    rfl
  have kg : IsIdentifier "kg" := by
    have scanned : (Scanner.ofText "kg").tokens = .ok [⟨.identifier "kg", 0⟩] := by
      refine Scanner.tokens_of_next ⟨[], 2⟩ rfl (by simp) ?_
      exact Scanner.tokens_of_end ⟨[], 2⟩ rfl rfl
    rw [IsIdentifier, tokenize, scanned]
    rfl
  have identifiers : inertia.EverySymbol IsIdentifier := by
    refine .noted _ (.product fun f hf => ?_)
    simp only [List.mem_cons, List.not_mem_nil, or_false] at hf
    rcases hf with rfl | rfl
    · exact .base m
    · exact .base kg
  exact ⟨by decide +kernel, by decide +kernel, ⟨built, identifiers⟩,
    parse_format_styles built identifiers plain fine⟩

end Metrology.Catalog
