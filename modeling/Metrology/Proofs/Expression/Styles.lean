import Metrology.Proofs.Expression.Inscriptions
import Metrology.Proofs.Expression.Printing
import Metrology.Proofs.Expression.Respelling
import Metrology.Proofs.MeasureUnit.Representation

/-!
# Units in print in any style

What is printed for a unit is one text in glyphs: the style spells factor signs and exponents and
decides nothing else. A symbol that takes a multiple has neither of them in it, and which units on
the way have symbols is no matter of style. Therefore the texts of a unit in two styles are read as
the same unit, or both are refused.
-/
namespace Metrology

/-- Whether the symbols of the base and alternate units in a unit are of a kind. What an alternate
unit stands for does not count. -/
inductive MeasureUnit.EverySymbol (P : String → Prop) : MeasureUnit → Prop where
  | base {symbol : String} (named : P symbol) : EverySymbol P (.base symbol)
  | alternate {symbol : String} (parent : MeasureUnit) (named : P symbol) :
      EverySymbol P (.alternate symbol parent)
  | product {fs : List (Factor MeasureUnit)} (units : ∀ f ∈ fs, f.unit.EverySymbol P) :
      EverySymbol P (.product fs)
  | transformed {parent : MeasureUnit} (c : Converter) (mark : Option Nat)
      (inner : parent.EverySymbol P) : EverySymbol P (.transformed parent c mark)
  | noted {actual : MeasureUnit} (note : String) (inner : actual.EverySymbol P) :
      EverySymbol P (.noted actual note)

theorem MeasureUnit.EverySymbol.imp {P Q : String → Prop} {u : MeasureUnit} (h : u.EverySymbol P)
    (imp : ∀ symbol, P symbol → Q symbol) : u.EverySymbol Q := by
  induction h with
  | base named => exact .base (imp _ named)
  | alternate parent named => exact .alternate parent (imp _ named)
  | product _ ih => exact .product ih
  | transformed c mark _ ih => exact .transformed c mark ih
  | noted note _ ih => exact .noted note ih

namespace Expression

open Glyph
open Lexeme (continuesIdentifier)

variable {table : SymbolTable} {r r' : Style → Rendered} {m : List Glyph} {p : Precedence}

/-! ### Multiples -/

theorem withMultiple?_eq_some {printer : Printer} {c : Converter} {parent : MeasureUnit}
    {rendered operand : Rendered} (h : printer.withMultiple? c parent operand = some rendered) :
    ∃ multiple v, rendered = .atom (multiple ++ operand.text) ∧
      printer.table.unit? (multiple ++ operand.text) = some v := by
  unfold Printer.withMultiple? at h
  split at h
  · simp only [Option.bind_eq_bind, Option.bind_eq_some_iff] at h
    obtain ⟨multiple, -, v, found, h⟩ := h
    split at h
    · cases h
      exact ⟨multiple, v, rfl, found⟩
    · cases h
  · cases h

theorem isWord_of_unit? (faithful : table.IsFaithful) {symbol : String} {v : MeasureUnit}
    (found : table.unit? symbol = some v) : IsWord symbol :=
  (Lexeme.isName_iff.1 (faithful.name found)).2.1

/-- A multiple is put in front of a symbol in all styles or in none. -/
theorem Prints.withMultiple (h : Prints r m p) (faithful : table.IsFaithful) (c : Converter)
    (parent : MeasureUnit) :
    (∀ s, Printer.withMultiple? ⟨table, s⟩ c parent (r s) = none) ∨ ∃ symbol, IsWord symbol ∧
      ∀ s, Printer.withMultiple? ⟨table, s⟩ c parent (r s) = some (.atom symbol) := by
  have all (s : Style) := all_spell continuesIdentifier (by decide) h.text.legible.written s
  cases word : m.all (isPlain continuesIdentifier) with
  | false =>
    -- With a factor sign or an exponent in it, it is no symbol.
    refine Or.inl fun s => Option.eq_none_iff_forall_ne_some.2 fun rendered multiple => ?_
    obtain ⟨front, v, -, found⟩ := withMultiple?_eq_some multiple
    have whole := isWord_of_unit? faithful found
    have back : (spell s m).all continuesIdentifier = true := by
      rw [← h.text.text s]
      exact List.all_eq_true.2 fun c hc => whole c (by simp [hc])
    rw [all s, word] at back
    cases back
  | true =>
    obtain ⟨l, rfl⟩ := exists_plain word
    have same (s : Style) : r s = ⟨String.ofList l, p⟩ := by
      have text : (r s).text = String.ofList l := by
        rw [← spell_plain s l, ← h.text.text s, String.ofList_toList]
      rw [← text, ← h.precedence s]
    simp only [same]
    cases multiple : Printer.withMultiple? ⟨table, {}⟩ c parent ⟨String.ofList l, p⟩ with
    | none => exact Or.inl fun s => multiple
    | some rendered =>
      obtain ⟨front, v, rfl, found⟩ := withMultiple?_eq_some multiple
      exact Or.inr ⟨_, isWord_of_unit? faithful found, fun s => multiple⟩

/-- A converter that is not a multiple is applied as such. -/
theorem IsUniform.convert_of (faithful : table.IsFaithful) (h : IsUniform r) {c : Converter}
    {parent : MeasureUnit} (applied : ∀ {m p}, Prints r m p → IsUniform r')
    (eq : ∀ s, Printer.withMultiple? ⟨table, s⟩ c parent (r s) = none →
      Printer.convert ⟨table, s⟩ c parent (r s) = r' s) :
    IsUniform fun s => Printer.convert ⟨table, s⟩ c parent (r s) := by
  obtain ⟨m, p, prints⟩ := h
  rcases prints.withMultiple faithful c parent with none | ⟨symbol, word, multiple⟩
  · exact (applied prints).congr fun s => eq s (none s)
  · refine (isUniform_atom word.isOrdinary).congr fun s => ?_
    unfold Printer.convert
    rw [multiple s]

theorem IsUniform.convert (faithful : table.IsFaithful) (h : IsUniform r) (c : Converter)
    (parent : MeasureUnit) : IsUniform fun s => Printer.convert ⟨table, s⟩ c parent (r s) := by
  induction c generalizing parent r with
  | pair outer inner ihOuter ihInner =>
    refine h.convert_of faithful (fun _ => ihInner (ihOuter h parent) (parent.transform outer))
      fun s none => ?_
    rw [Printer.convert, none]
  | identity =>
    refine h.convert_of faithful (fun _ => h) fun s none => ?_
    rw [Printer.convert, none]
  | add offset =>
    refine h.convert_of faithful (fun prints => prints.addOffset offset parent) fun s none => ?_
    rw [Printer.convert, none]
  | multiply factor =>
    refine h.convert_of faithful (fun prints => prints.addFactor table factor) fun s none => ?_
    rw [Printer.convert, none]
  | ratio q =>
    refine h.convert_of faithful (fun prints => prints.addRatio table q) fun s none => ?_
    rw [Printer.convert, none]
  | log base =>
    refine h.convert_of faithful (fun prints => prints.addLogarithm base) fun s none => ?_
    rw [Printer.convert, none]
  | exp base =>
    refine h.convert_of faithful (fun prints => prints.addExponential base parent) fun s none => ?_
    rw [Printer.convert, none]

/-! ### Chains -/

theorem isUniform_label (faithful : table.IsFaithful) {u : MeasureUnit} {symbol : String}
    (label : table.symbol? u = some symbol) : IsUniform fun _ => .atom symbol := by
  obtain ⟨v, found, -⟩ := faithful.labelled label
  exact isUniform_atom (isWord_of_unit? faithful found).isOrdinary

/-- Whether a chain starts from a unit with its symbol. -/
def IsNamed (table : SymbolTable) (chain : Printer.Chain) : Prop :=
  ∃ symbol, table.symbol? chain.unit = some symbol ∧ chain.rendered = .atom symbol

theorem isNamed_of_farthestNamed? {printer : Printer} {u : MeasureUnit} {steps : List Converter}
    {chain : Printer.Chain} (found : printer.farthestNamed? u steps = some chain) :
    IsNamed printer.table chain := by
  obtain ⟨n, -, named⟩ := List.exists_of_findSome?_eq_some found
  simp only [Printer.namedAfter?, Option.bind_eq_bind, Option.bind_eq_some_iff] at named
  obtain ⟨symbol, label, eq⟩ := named
  cases eq
  exact ⟨symbol, label, rfl⟩

theorem advance_of_none {printer : Printer} {chain : Printer.Chain}
    (h : printer.farthestNamed? chain.unit chain.steps = none) : chain.advance printer = chain := by
  rw [Printer.Chain.advance]
  split
  · rfl
  · rename_i found
    rw [h] at found
    cases found

theorem advance_of_some {printer : Printer} {chain next : Printer.Chain}
    (h : printer.farthestNamed? chain.unit chain.steps = some next) :
    chain.advance printer = next.advance printer := by
  rw [Printer.Chain.advance]
  split
  · rename_i found
    rw [h] at found
    cases found
  · rename_i found
    rw [h] at found
    cases found
    rfl

/-- Which units have symbols is no matter of style. -/
theorem advance_eq (table : SymbolTable) (s : Style) {chain : Printer.Chain}
    (named : IsNamed table chain) :
    chain.advance ⟨table, s⟩ = chain.advance ⟨table, {}⟩ ∧
      IsNamed table (chain.advance ⟨table, {}⟩) := by
  induction length : chain.steps.length using Nat.strongRecOn generalizing chain with
  | ind n ih =>
    subst length
    cases found : Printer.farthestNamed? ⟨table, {}⟩ chain.unit chain.steps with
    | none =>
      have found' : Printer.farthestNamed? ⟨table, s⟩ chain.unit chain.steps = none := found
      rw [advance_of_none found, advance_of_none found']
      exact ⟨rfl, named⟩
    | some next =>
      have found' : Printer.farthestNamed? ⟨table, s⟩ chain.unit chain.steps = some next := found
      rw [advance_of_some found, advance_of_some found']
      exact ih _ (Printer.length_steps_farthestNamed? found) (isNamed_of_farthestNamed? found) rfl

theorem IsUniform.chainText (faithful : table.IsFaithful) (h : IsUniform r) (parent : MeasureUnit)
    (c : Converter) : IsUniform fun s => Printer.chainText ⟨table, s⟩ parent (r s) c := by
  cases found : Printer.farthestNamed? ⟨table, {}⟩ parent c.steps with
  | none =>
    refine (h.convert faithful c parent).congr fun s => ?_
    have found : Printer.farthestNamed? ⟨table, s⟩ parent c.steps = none := found
    rw [Printer.chainText, found]
  | some chain =>
    have named := isNamed_of_farthestNamed? found
    obtain ⟨symbol, label, rendered⟩ := (advance_eq table {} named).2
    let last := chain.advance ⟨table, {}⟩
    have steps := (isUniform_label faithful label).convert faithful (Converter.ofSteps last.steps) last.unit
    refine steps.congr fun s => ?_
    have found : Printer.farthestNamed? ⟨table, s⟩ parent c.steps = some chain := found
    rw [Printer.chainText, found]
    dsimp only
    rw [(advance_eq table s named).1, rendered]

/-! ### Units -/

theorem isUniform_of_symbol (faithful : table.IsFaithful) {u : MeasureUnit} {symbol : String}
    (label : table.symbol? u = some symbol) : IsUniform fun s => Printer.render ⟨table, s⟩ u := by
  have rendered (s : Style) : Printer.render ⟨table, s⟩ u = .atom symbol := render_of_symbol label
  exact (isUniform_label faithful label).congr rendered

/-- What stands in for the parent of a transformed unit is no matter of style. -/
theorem isUniform_transformed (faithful : table.IsFaithful) {parent : MeasureUnit} (c : Converter)
    (mark : Option Nat) (inner : IsUniform fun s => Printer.render ⟨table, s⟩ parent) :
    IsUniform fun s => Printer.render ⟨table, s⟩ (.transformed parent c mark) := by
  cases label : table.symbol? (.transformed parent c mark) with
  | some name => exact isUniform_of_symbol faithful label
  | none =>
    simp only [Printer.render, label]
    cases found : Printer.substituted? ⟨table, {}⟩ parent c with
    | none =>
      refine (inner.chainText faithful parent c).congr fun s => ?_
      have found : Printer.substituted? ⟨table, s⟩ parent c = none := found
      rw [found]
    | some substitute =>
      obtain ⟨preferred, symbol, k⟩ := substitute
      obtain ⟨-, -, label, -⟩ := substituted?_eq_some found
      have start := isUniform_label faithful label
      refine (start.chainText faithful preferred k).congr fun s => ?_
      have found : Printer.substituted? ⟨table, s⟩ parent c = some (preferred, symbol, k) := found
      rw [found]

/-- What is printed for a unit in all styles differs in spelling alone, if it is written with
identifiers and its notes do not close early. -/
theorem isUniform_render (faithful : table.IsFaithful) {u : MeasureUnit}
    (symbols : u.EverySymbol IsWord) (regular : u.IsRegular) :
    IsUniform fun s => Printer.render ⟨table, s⟩ u := by
  induction u with
  | base symbol =>
    cases label : table.symbol? (.base symbol) with
    | some name => exact isUniform_of_symbol faithful label
    | none =>
      cases symbols with | base named =>
      simp only [Printer.render, label]
      exact isUniform_atom named.isOrdinary
  | alternate symbol parent =>
    cases label : table.symbol? (.alternate symbol parent) with
    | some name => exact isUniform_of_symbol faithful label
    | none =>
      cases symbols with | alternate _ named =>
      simp only [Printer.render, label]
      exact isUniform_atom named.isOrdinary
  | product fs ih =>
    cases label : table.symbol? (.product fs) with
    | some name => exact isUniform_of_symbol faithful label
    | none =>
      cases symbols with | product symbols =>
      cases regular with | product _ units =>
      have parts := isUniform_productText table (fun s => Printer.render ⟨table, s⟩) fs
        fun f hf => ih f hf (symbols f hf) (units f hf)
      simp only [Printer.render, label]
      exact parts.congr fun s => by rw [renderFactors_eq_map]
  | transformed parent c mark ih =>
    cases symbols with | transformed _ _ symbols =>
    cases regular with | transformed _ regular =>
    exact isUniform_transformed faithful c mark (ih symbols regular)
  | noted actual note ih =>
    cases label : table.symbol? (.noted actual note) with
    | some name => exact isUniform_of_symbol faithful label
    | none =>
      cases symbols with | noted _ symbols =>
      cases regular with | noted regular closed =>
      obtain ⟨m, p, prints⟩ := ih symbols regular
      obtain ⟨_, enclosed, firm⟩ := exists_enclosed (prints.text.noted closed)
      simp only [Printer.render, label]
      exact isUniform_of_firm enclosed firm .atom

/-- The text of a unit in all styles is one text in glyphs. -/
theorem exists_glyphs_format (faithful : table.IsFaithful) {u : MeasureUnit}
    (symbols : u.EverySymbol IsWord) (regular : u.IsRegular) :
    ∃ m, Inscribes (fun s => format ⟨table, s⟩ u) m := by
  induction u with
  | noted actual note ih =>
    cases symbols with
    | noted _ symbols =>
      cases regular with
      | noted regular closed =>
        obtain ⟨m, text⟩ := ih symbols regular
        exact ⟨_, (text.noted closed).congr fun s => by rw [format]⟩
  | _ =>
    obtain ⟨m, p, prints⟩ := isUniform_render faithful symbols regular
    exact ⟨m, prints.text⟩

/-- The texts of a unit in two styles are read as the same unit, or neither is read. -/
theorem toOption_parse_format (faithful : table.IsFaithful) {u : MeasureUnit}
    (symbols : u.EverySymbol IsWord) (regular : u.IsRegular) (s s' : Style) :
    (parse table (format ⟨table, s⟩ u)).toOption = (parse table (format ⟨table, s'⟩ u)).toOption := by
  obtain ⟨m, inscribes⟩ := exists_glyphs_format faithful symbols regular
  have text (s : Style) : format ⟨table, s⟩ u = String.ofList (spell s m) := by
    rw [← inscribes.text s, String.ofList_toList]
  rw [text s, text s']
  exact toOption_parse_spell table inscribes.legible s s'

end Expression

end Metrology
