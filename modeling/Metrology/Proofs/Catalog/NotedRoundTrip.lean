import Metrology.Proofs.Catalog.Symbols
import Metrology.Proofs.Expression.OuterNotes

/-!
# Writing and reading back units with notes

A unit that is combined from those of the catalog, with notes on any of its parts, is read back
from its text if it keeps its notes there. Without that it need not be: a note on a quotient moves
to its divisor, and a third note behind a text is not read.
-/
namespace Metrology.Catalog

open Expression (maxDepth Tree leadingLexemes trailingLexemes noteLexemes Operator.lexeme
  Separator.lexeme parse_of_spells parseBody_of_spells)
open MeasureUnit

/-- The units that are combined from those of the catalog, with notes on any of them. -/
inductive IsCombined : MeasureUnit → Prop where
  | labelled {entry : MeasureUnit × String} (member : entry ∈ labels) : IsCombined entry.1
  | mul {u v w : MeasureUnit} (left : IsCombined u) (right : IsCombined v) (ok : u.mul v = .ok w) :
      IsCombined w
  | div {u v w : MeasureUnit} (left : IsCombined u) (right : IsCombined v) (ok : u.div v = .ok w) :
      IsCombined w
  | pow {u w : MeasureUnit} (n : Power) (unit : IsCombined u) (ok : u.pow n = .ok w) : IsCombined w
  | annotate {u w : MeasureUnit} (note : String) (unit : IsCombined u)
      (ok : u.annotate note = .ok w) : IsCombined w

namespace IsCombined

variable {u : MeasureUnit}

theorem isTidy (h : IsCombined u) : u.isTidy = true := by
  induction h with
  | labelled member => exact isTidy_of_mem_labels _ member
  | mul _ _ ok left right => exact isTidy_mul left right ok
  | div _ _ ok left right => exact isTidy_div left right ok
  | pow _ _ ok unit => exact isTidy_pow unit ok
  | annotate note _ ok unit =>
    obtain ⟨-, rfl⟩ := annotate_eq_ok.1 ok
    exact unit

/-- What the units of the catalog have, units get from their parts and a note without a closing
brace leaves them, all units have. -/
theorem of_isHereditary {P : MeasureUnit → Prop} (hereditary : IsHereditary P)
    (atoms : ∀ entry ∈ labels, P entry.1)
    (notes : ∀ {u : MeasureUnit} {note : String}, '\x7d' ∉ note.toList → P u → P (.noted u note))
    (h : IsCombined u) : P u := by
  induction h with
  | labelled member => exact atoms _ member
  | mul _ _ ok left right => exact hereditary.mul left right ok
  | div _ _ ok left right => exact hereditary.div left right ok
  | pow _ _ ok unit => exact hereditary.pow unit ok
  | annotate note _ ok unit =>
    obtain ⟨closed, rfl⟩ := annotate_eq_ok.1 ok
    exact notes closed unit

theorem labels (h : IsCombined u) : symbols.table.Labels u :=
  h.of_isHereditary (SymbolTable.isHereditary_labels _) labels_of_mem_labels
    fun _ labels => .noted _ labels

theorem closesNotes (h : IsCombined u) : u.ClosesNotes :=
  h.of_isHereditary (isHereditary_hasNotes _)
    (fun entry member => hasNotes_of_isUnnoted (isUnnoted_of_mem_labels entry member))
    fun closed inner => .noted inner closed

end IsCombined

/-- A unit that is combined from those of the catalog and keeps its notes in its text is read back
from it, in any style, if the language has words for its steps and the text does not nest too
deep. -/
theorem exists_parse_format_noted {u : MeasureUnit} (style : Expression.Style)
    (combined : IsCombined u) (spoken : u.IsSpoken) (keeps : (printer style).KeepsNotes u)
    (shallow : nesting 0 false (Expression.format (printer style) u).toList < maxDepth) :
    ∃ v, parse (Expression.format (printer style) u) = .ok v ∧ (v == u) = true :=
  Expression.exists_parse_of_keepsNotes isFaithful_symbols combined.isTidy combined.labels spoken
    combined.closesNotes keeps shallow

/-- Metres per second with a note on all of it and on the second. -/
theorem exists_parse_format_noted_speed :
    let tick : MeasureUnit := .noted second "tick"
    let speed : MeasureUnit := .noted (.product [⟨metre, Power.one⟩, ⟨tick, Power.negOne⟩]) "speed"
    (second.annotate "tick" = .ok tick ∧ metre.div tick =
      .ok (.product [⟨metre, Power.one⟩, ⟨tick, Power.negOne⟩])) ∧
    ∃ v, parse (Expression.format (printer {}) speed) = .ok v ∧ (v == speed) = true := by
  intro tick speed
  have annotated : second.annotate "tick" = .ok tick := rfl
  have quotient : metre.div tick = .ok (.product [⟨metre, Power.one⟩, ⟨tick, Power.negOne⟩]) := rfl
  have outer : MeasureUnit.annotate (.product [⟨metre, Power.one⟩, ⟨tick, Power.negOne⟩]) "speed" =
      .ok speed := rfl
  have combined : IsCombined speed := .annotate _ (.div
    (@IsCombined.labelled (metre, "m") (by simp [labels]))
    (.annotate _ (@IsCombined.labelled (second, "s") (by simp [labels])) annotated) quotient) outer
  refine ⟨⟨annotated, quotient⟩, exists_parse_format_noted {} combined ?_ (.once _ rfl ?_) ?_⟩
  · refine .noted _ (.product (fun f hf => ?_) (by decide))
    simp only [List.mem_cons, List.not_mem_nil, or_false] at hf
    rcases hf with rfl | rfl
    · exact .base _
    · exact .noted _ (.base _)
  · refine .product fun f hf => ?_
    simp only [List.mem_cons, List.not_mem_nil, or_false] at hf
    rcases hf with rfl | rfl
    · exact .base _
    · exact .noted (.base _) (by decide +kernel)
  · decide +kernel

/-- Metres per second with a note on all of it, times kilograms: the note is read as one on the
second, whose text it follows. -/
theorem parse_format_ne_of_noted_quotient :
    let speed : MeasureUnit := .noted (.product [⟨metre, Power.one⟩, ⟨second, Power.negOne⟩]) "speed"
    let moved : MeasureUnit := .product
      [⟨metre, Power.one⟩, ⟨.noted second "speed", Power.negOne⟩, ⟨kilogram, Power.one⟩]
    speed.mul kilogram = .ok (.product [⟨speed, Power.one⟩, ⟨kilogram, Power.one⟩]) ∧
    parse (format (.product [⟨speed, Power.one⟩, ⟨kilogram, Power.one⟩])) = .ok moved ∧
    (moved == .product [⟨speed, Power.one⟩, ⟨kilogram, Power.one⟩]) = false := by
  intro speed moved
  have text : format (.product [⟨speed, Power.one⟩, ⟨kilogram, Power.one⟩]) = "(m/s{speed})·kg" := by
    decide +kernel
  let quotient : Tree .addition := .sum none (.chain (.single (.power (.symbol "m" none) none)) .divide
    (.power (.symbol "s" (some "speed")) none)) none
  let whole : Tree .addition := .sum none (.chain (.single (.power (.enclosed quotient none) none))
    (.times .middleDot) (.power (.symbol "kg" none) none)) none
  have spells : Lexeme.Spells whole.lexemes "(m/s{speed})·kg".toList := by
    refine ⟨?_, by decide +kernel⟩
    simp only [whole, quotient, Tree.lexemes, leadingLexemes, trailingLexemes, noteLexemes,
      Operator.lexeme, Separator.lexeme, Lexeme.IsSpelled]
    simp
    decide +kernel
  have preferred : whole.IsPreferred := by
    simp only [whole, quotient, Tree.IsPreferred]
    decide
  have eval : whole.eval symbols.table = some moved := rfl
  refine ⟨rfl, ?_, by decide +kernel⟩
  rw [text]
  change Expression.parse symbols.table _ = _
  rw [parse_of_spells spells whole.lexemes_ne_nil rfl]
  exact parseBody_of_spells spells preferred eval (by decide +kernel)

end Metrology.Catalog
