import Metrology.Proofs.Expression.Wording
import Metrology.Proofs.MeasureUnit.Numbers
import Metrology.Proofs.Token.Decimals

/-!
# Texts that are read back

A text denotes a unit if it spells a derivation that means an equal unit. This module has one
lemma for each way in which the printer puts texts together. The text of a unit that is not a
number must also not be taken for an exponent or an offset where it is enclosed: its words are
unmistakable.
-/
namespace Metrology

/-- What printing needs of a symbol table: the symbol of a unit is read as that unit, and all
that is read is a tidy unit with an identifier for its symbol. -/
structure SymbolTable.IsFaithful (table : SymbolTable) : Prop where
  labelled : ∀ {u : MeasureUnit} {symbol : String}, table.symbol? u = some symbol →
    ∃ v, table.unit? symbol = some v ∧ (u == v) = true
  tidy : ∀ {symbol : String} {v : MeasureUnit}, table.unit? symbol = some v → v.isTidy = true
  name : ∀ {symbol : String} {v : MeasureUnit}, table.unit? symbol = some v →
    Lexeme.isName symbol.toList = true

namespace Expression

open Lexeme (Spells)
open Printer (isNumeric)

def Operator.text : Operator → String
  | times sign => sign.text
  | divide => "/"

variable {table : SymbolTable} {p q : Precedence} {text : String} {u : MeasureUnit}

/-! ### Unmistakable words -/

/-- Whether words start neither an exponent nor an offset, whatever follows them, and can stand
after a caret if they are an operand. -/
structure IsUnmistakable (p : Precedence) (l : List Lexeme) : Prop where
  exponent : ∀ rest, startsExponent (l ++ rest) = false
  offset : ∀ rest, startsOffset (l ++ rest) = false
  unit : p = .atom → startsUnit l = true

theorem IsUnmistakable.append {l : List Lexeme} (h : IsUnmistakable p l) (rest : List Lexeme)
    (weak : q ≠ .atom) : IsUnmistakable q (l ++ rest) where
  exponent more := by
    rw [List.append_assoc]
    exact h.exponent _
  offset more := by
    rw [List.append_assoc]
    exact h.offset _
  unit atom := absurd atom weak

theorem IsUnmistakable.of_ne {l : List Lexeme} (h : IsUnmistakable p l) (weak : q ≠ .atom) :
    IsUnmistakable q l := by
  have same := h.append [] weak
  rwa [List.append_nil] at same

/-! ### The last word -/

def endsWithNote (l : List Lexeme) : Bool :=
  match l.getLast? with
  | some (.note _) => true
  | _ => false

theorem endsWithNote_append {l l' : List Lexeme} (some : l' ≠ []) :
    endsWithNote (l ++ l') = endsWithNote l' := by
  rw [endsWithNote, List.getLast?_append_of_ne_nil _ some]
  rfl

@[simp] theorem endsWithNote_concat (l : List Lexeme) (x : Lexeme) :
    endsWithNote (l ++ [x]) = endsWithNote [x] :=
  endsWithNote_append (List.cons_ne_nil x [])

theorem endsWithNote_cons {x : Lexeme} {l : List Lexeme} (some : l ≠ []) :
    endsWithNote (x :: l) = endsWithNote l :=
  endsWithNote_append (l := [x]) some

theorem SignedNumber.endsWithNote_lexemes (n : SignedNumber) : endsWithNote n.lexemes = false :=
  endsWithNote_concat _ _

/-! ### Denoting -/

/-- Whether a derivation is spelled by a text without a note at its end and means a unit equal
to `u`. -/
structure Tree.Denotes (table : SymbolTable) (t : Tree p) (text : String) (u : MeasureUnit) :
    Prop where
  spells : Spells t.lexemes text.toList
  preferred : t.IsPreferred
  bare : endsWithNote t.lexemes = false
  value : ∃ v, t.eval table = some v ∧ (u == v) = true ∧ v.isTidy = true

/-- A derivation with the same words and the same meaning. -/
theorem Tree.Denotes.congr {t : Tree p} {t' : Tree q} (h : t.Denotes table text u)
    (words : t'.lexemes = t.lexemes) (preferred : t'.IsPreferred)
    (eval : t'.eval table = t.eval table) : t'.Denotes table text u where
  spells := by
    rw [words]
    exact h.spells
  preferred := preferred
  bare := by
    rw [words]
    exact h.bare
  value := by
    rw [eval]
    exact h.value

/-- Whether a text with an operator of some strength is read as a unit equal to `u`, and cannot
be mistaken unless `u` is a number. -/
def Reads (table : SymbolTable) (text : String) (p : Precedence) (u : MeasureUnit) : Prop :=
  ∃ t : Tree p, t.Denotes table text u ∧ (isNumeric u = false → IsUnmistakable p t.lexemes)

/-! ### Weaker operators -/

theorem startsOffset_product (t : Tree .product) : startsOffset t.lexemes = false := by
  rcases number_or_startsOffset_eq_false t with ⟨n, eq⟩ | none
  · have alone := startsOffset_number n []
    rw [List.append_nil] at alone
    rw [eq, alone]
    rfl
  · have alone := none []
    rwa [List.append_nil] at alone

theorem Reads.exponent (h : Reads table text .atom u) : Reads table text .exponent u := by
  obtain ⟨t, denotes, unmistakable⟩ := h
  have words : (Tree.power t none).lexemes = t.lexemes := List.append_nil _
  refine ⟨.power t none, denotes.congr words denotes.preferred rfl, fun plain => ?_⟩
  rw [words]
  exact (unmistakable plain).of_ne nofun

theorem Reads.product (h : Reads table text .exponent u) : Reads table text .product u := by
  obtain ⟨t, denotes, unmistakable⟩ := h
  exact ⟨.single t, denotes.congr rfl denotes.preferred rfl, fun plain =>
    (unmistakable plain).of_ne nofun⟩

theorem Tree.Denotes.sum {t : Tree .product} (h : t.Denotes table text u) :
    (Tree.sum none t none).Denotes table text u := by
  have words : (Tree.sum none t none).lexemes = t.lexemes := List.append_nil _
  refine h.congr words ⟨fun _ => ?_, h.preferred⟩ ?_
  · rw [trailingLexemes, List.append_nil]
    exact startsOffset_product t
  · simp [Tree.eval, leadingShift, trailingShift]

theorem Reads.addition (h : Reads table text .product u) : Reads table text .addition u := by
  obtain ⟨t, denotes, unmistakable⟩ := h
  have words : (Tree.sum none t none).lexemes = t.lexemes := List.append_nil _
  refine ⟨.sum none t none, denotes.sum, fun plain => ?_⟩
  rw [words]
  exact (unmistakable plain).of_ne nofun

/-- A text can stand where a weaker operator may. -/
theorem Reads.weaken (h : Reads table text p u) (weaker : q.strength ≤ p.strength) :
    Reads table text q u := by
  cases p with
  | atom =>
    cases q with
    | atom => exact h
    | exponent => exact h.exponent
    | product => exact h.exponent.product
    | addition => exact h.exponent.product.addition
  | exponent =>
    cases q with
    | atom => cases Nat.lt_irrefl _ weaker
    | exponent => exact h
    | product => exact h.product
    | addition => exact h.product.addition
  | product =>
    cases q with
    | product => exact h
    | addition => exact h.addition
    | _ => simp [Precedence.strength] at weaker
  | addition =>
    cases q with
    | addition => exact h
    | _ => simp [Precedence.strength] at weaker

/-! ### Operands -/

/-- A symbol that stands for an equal unit. -/
theorem reads_symbol (faithful : table.IsFaithful) {symbol : String} {v : MeasureUnit}
    (found : table.unit? symbol = some v) (same : (u == v) = true) : Reads table symbol .atom u := by
  refine ⟨.symbol symbol none, ⟨?_, trivial, rfl, v, ?_, same, faithful.tidy found⟩, fun _ =>
    ⟨fun _ => rfl, fun _ => rfl, fun _ => rfl⟩⟩
  · exact Lexeme.spells_singleton (x := .identifier symbol) (faithful.name found)
  · rw [Tree.eval, found]
    rfl

theorem reads_label (faithful : table.IsFaithful) {symbol : String}
    (label : table.symbol? u = some symbol) : Reads table symbol .atom u := by
  obtain ⟨v, found, same⟩ := faithful.labelled label
  exact reads_symbol faithful found same

theorem spells_enclosed {l : List Lexeme} (h : Spells l text.toList) :
    Spells (.openParen :: (l ++ [.closeParen])) (Rendered.enclosed text).toList := by
  have spells := Spells.cons (x := .openParen) trivial
    (h.append (Lexeme.spells_singleton (x := .closeParen) trivial))
  have eq : (Rendered.enclosed text).toList = '(' :: (text.toList ++ [')']) := by
    simp [Rendered.enclosed]
  rw [eq]
  exact spells

theorem Tree.Denotes.enclosed {t : Tree .addition} (h : t.Denotes table text u) :
    (Tree.enclosed t none).Denotes table (Rendered.enclosed text) u := by
  refine ⟨spells_enclosed h.spells, h.preferred, ?_, ?_⟩
  · rw [Tree.lexemes, endsWithNote_cons (by simp)]
    exact endsWithNote_concat _ _
  obtain ⟨v, eval, same⟩ := h.value
  exact ⟨v, by rw [Tree.eval, eval]; rfl, same⟩

/-- In parentheses any text is an operand. -/
theorem Reads.enclosed (h : Reads table text p u) : Reads table (Rendered.enclosed text) .atom u := by
  obtain ⟨t, denotes, unmistakable⟩ := h.weaken (q := .addition) (Nat.zero_le _)
  refine ⟨.enclosed t none, denotes.enclosed, fun plain => ⟨fun _ => rfl, fun _ => rfl, fun _ => ?_⟩⟩
  change (!startsExponent (t.lexemes ++ [.closeParen])) = true
  rw [(unmistakable plain).exponent]
  rfl

/-- In two pairs of parentheses it is an operand that can stand after a caret. -/
theorem Reads.enclosed_enclosed (h : Reads table text p u) :
    ∃ t : Tree .atom, t.Denotes table (Rendered.enclosed (Rendered.enclosed text)) u ∧
      startsUnit t.lexemes = true := by
  obtain ⟨t, denotes, -⟩ := h.weaken (q := .addition) (Nat.zero_le _)
  have inner : (Tree.single (.power (.enclosed t none) none)).Denotes table
      (Rendered.enclosed text) u :=
    denotes.enclosed.congr (List.append_nil _) denotes.preferred rfl
  exact ⟨.enclosed (.sum none (.single (.power (.enclosed t none) none)) none) none,
    inner.sum.enclosed, rfl⟩

/-! ### Numbers -/

/-- An integer other than zero is read as the unit of that number. -/
theorem denotes_int (table : SymbolTable) {k : Int} (nonzero : k ≠ 0) :
    (Tree.number (.ofInt k) none).Denotes table (toString k) (MeasureUnit.number k) ∧
      (Tree.number (.ofInt k) none).eval table = some (MeasureUnit.number k) := by
  have rational : (k : Rat) ≠ 0 := by exact_mod_cast nonzero
  have eval : (Tree.number (.ofInt k) none).eval table = some (MeasureUnit.number k) := by
    rw [Tree.eval, SignedNumber.value?_ofInt]
    simp only [Option.bind_eq_bind, Option.bind_some, Converter.scaling_eq rational]
    rfl
  have words : (Tree.number (.ofInt k) none).lexemes = (SignedNumber.ofInt k).lexemes :=
    List.append_nil _
  refine ⟨⟨?_, trivial, ?_, _, eval, ?_, ?_⟩, eval⟩
  · rw [words]
    exact SignedNumber.spells_ofInt k
  · rw [words]
    exact SignedNumber.endsWithNote_lexemes _
  · have one : (MeasureUnit.one == MeasureUnit.one) = true := rfl
    rw [(MeasureUnit.isOver_number k).eq]
    exact MeasureUnit.overParent_beq (Converter.isProper_scaleBy k) one
  · exact MeasureUnit.isTidy_transform MeasureUnit.isTidy_one _

theorem reads_int (table : SymbolTable) {k : Int} (nonzero : k ≠ 0) :
    Reads table (toString k) .atom (MeasureUnit.number k) := by
  refine ⟨.number (.ofInt k) none, (denotes_int table nonzero).1, fun plain => ?_⟩
  rw [MeasureUnit.isNumeric_number] at plain
  cases plain

theorem reads_one (table : SymbolTable) : Reads table "1" .atom MeasureUnit.one := by
  have one := reads_int table (k := 1) one_ne_zero
  rwa [Int.cast_one, MeasureUnit.number_one] at one

/-! ### Operators -/

theorem spells_factor {l l' : List Lexeme} {text' : String} (op : Operator)
    (h : Spells l text.toList) (h' : Spells l' text'.toList) :
    Spells (l ++ op.lexeme :: l') (text ++ op.text ++ text').toList := by
  have spells := h.append (Spells.cons (x := op.lexeme) (by rcases op with (- | -) | - <;> trivial) h')
  have eq : op.lexeme.spelling = op.text.toList := by rcases op with (- | -) | - <;> rfl
  rw [eq] at spells
  simpa using spells

theorem endsWithNote_chain (left : Tree .product) (op : Operator) (right : Tree .exponent) :
    endsWithNote (Tree.chain left op right).lexemes = endsWithNote right.lexemes := by
  rw [Tree.lexemes, endsWithNote_append (List.cons_ne_nil _ _),
    endsWithNote_cons right.lexemes_ne_nil]

theorem Tree.eval_chain {left : Tree .product} {right : Tree .exponent} {op : Operator}
    {v w x : MeasureUnit} (hl : left.eval table = some v) (hr : right.eval table = some w)
    (ok : op.apply v w = .ok x) : (Tree.chain left op right).eval table = some x := by
  rw [Tree.eval, hl, hr]
  change (op.apply v w).toOption = some x
  rw [ok]
  rfl

/-! ### Rendered units -/

theorem Reads.text_ne (h : Reads table text p u) : text ≠ "" := by
  rintro rfl
  obtain ⟨t, denotes, -⟩ := h
  obtain ⟨spelled, spelling⟩ := denotes.spells
  obtain ⟨x, l, words⟩ := List.exists_cons_of_ne_nil t.lexemes_ne_nil
  rw [words] at spelled spelling
  obtain ⟨c, tail, eq, -⟩ := Lexeme.exists_cons_spelling (spelled x (by simp))
  rw [List.flatMap_cons, eq] at spelling
  cases spelling

/-- Whether what was printed for a unit is read back. The dimensionless unit has no text. -/
def Renders (table : SymbolTable) (r : Rendered) (u : MeasureUnit) : Prop :=
  (u = MeasureUnit.one ∧ r = ⟨"", .product⟩) ∨ Reads table r.text r.precedence u

theorem Reads.renders (h : Reads table text p u) : Renders table ⟨text, p⟩ u := Or.inr h

section Rendered

variable {r : Rendered}

/-- With a one for the dimensionless unit every text is read. -/
theorem Renders.textOrOne (h : Renders table r u) :
    ∃ p : Precedence, r.precedence.strength ≤ p.strength ∧ Reads table r.textOrOne p u := by
  rcases h with ⟨rfl, rfl⟩ | h
  · exact ⟨.atom, by decide, reads_one table⟩
  · have text : r.textOrOne = r.text := by
      rw [Rendered.textOrOne, if_neg (by simpa using h.text_ne)]
    rw [text]
    exact ⟨r.precedence, Nat.le_refl _, h⟩

theorem Renders.reads (h : Renders table r u) (plain : isNumeric u = false) :
    Reads table r.text r.precedence u := by
  rcases h with ⟨rfl, -⟩ | h
  · cases plain
  · exact h

theorem Reads.textFor (h : Reads table r.text r.precedence u) (needed : Precedence) :
    Reads table (r.textFor needed) needed u := by
  unfold Rendered.textFor
  split
  · refine h.enclosed.weaken ?_
    cases needed <;> decide
  · rename_i strong
    exact h.weaken (Nat.le_of_not_lt strong)

end Rendered

end Expression

end Metrology
