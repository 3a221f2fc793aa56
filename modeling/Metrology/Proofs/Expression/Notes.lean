import Metrology.Proofs.Expression.Chains

/-!
# Notes in print

A note belongs to the operand in front of it. Behind the text of a unit it therefore belongs to
the whole unit only where that text is an operand, or where there is none.
-/
namespace Metrology.Expression

open Lexeme (Spells)
open MeasureUnit
open Converter (scaleBy scaleBy_toRat)

variable {printer : Printer} {table : SymbolTable} {text note : String} {u : MeasureUnit}

/-- Whether a note behind the text of a unit belongs to all of it: the text is a symbol or in
parentheses, it consists of digits, or there is none. -/
def Printer.isOperand (p : Printer) (u : MeasureUnit) : Bool :=
  (p.render u).precedence = .atom || (p.render u).text.toList.all Char.isDigit

/-! ### Operands with a note -/

def Tree.withNote (note : String) : Tree .atom → Tree .atom
  | .number n _ => .number n (some note)
  | .symbol name _ => .symbol name (some note)
  | .enclosed inner _ => .enclosed inner (some note)
  | .bareNote text => .bareNote text

/-- An operand without a note has the same words with one, and then the note. -/
theorem withNote_of_bare {t : Tree .atom} (table : SymbolTable) (note : String) (bare : endsWithNote t.lexemes = false) :
    (t.withNote note).lexemes = t.lexemes ++ [.note note] ∧
      (t.withNote note).eval table =
        (t.eval table).bind fun v => annotated? v (some note) := by
  cases t with
  | number n other =>
    cases other with
    | some s => cases (endsWithNote_concat n.lexemes (.note s)).symm.trans bare
    | none =>
      refine ⟨by simp [Tree.withNote, Tree.lexemes, noteLexemes], ?_⟩
      simp only [Tree.withNote, Tree.eval, annotated?, Option.bind_eq_bind, Option.bind_assoc,
        Option.bind_some]
  | symbol name other =>
    cases other with
    | some s => cases bare
    | none =>
      refine ⟨rfl, ?_⟩
      simp only [Tree.withNote, Tree.eval, annotated?, Option.bind_eq_bind, Option.bind_assoc,
        Option.bind_some]
  | enclosed inner other =>
    cases other with
    | some s =>
      have last : endsWithNote (Tree.enclosed inner (some s)).lexemes = true := by
        rw [Tree.lexemes, endsWithNote_cons (by simp), noteLexemes]
        exact (endsWithNote_append (List.cons_ne_nil _ _)).trans rfl
      rw [last] at bare
      cases bare
    | none =>
      refine ⟨by simp [Tree.withNote, Tree.lexemes, noteLexemes], ?_⟩
      simp only [Tree.withNote, Tree.eval, annotated?, Option.bind_eq_bind, Option.bind_assoc,
        Option.bind_some]
  | bareNote text => cases bare

theorem isPreferred_withNote {t : Tree .atom} (note : String) (h : t.IsPreferred) :
    (t.withNote note).IsPreferred := by
  cases t <;> exact h

/-- An operand with a note is not taken for an exponent. -/
theorem startsExponent_withNote (t : Tree .atom) (note : String) (rest : List Lexeme) :
    startsExponent ((t.withNote note).lexemes ++ rest) = false := by
  cases t with
  | number n other =>
    obtain ⟨sign, literal⟩ := n
    rcases sign with - | (- | -) <;> cases integer : literal.isInteger <;>
      simp [Tree.withNote, Tree.lexemes, SignedNumber.lexemes, noteLexemes, startsExponent,
        skipInteger?, skipSign, Sign.lexeme, Lexeme.sign?, Lexeme.integer?, integer]
  | _ => rfl

/-- Whether a derivation of an operand is spelled by a text with a note behind it, means the unit
with the note, and is not taken for an exponent. -/
structure Tree.Notes (table : SymbolTable) (t : Tree .atom) (text : String) (u : MeasureUnit)
    (note : String) : Prop where
  spells : Spells t.lexemes (text ++ "\x7b" ++ note ++ "\x7d").toList
  preferred : t.IsPreferred
  value : ∃ v, t.eval table = some v ∧ (noted u note == v) = true ∧ v.isTidy = true
  exponent : ∀ rest, startsExponent (t.lexemes ++ rest) = false

theorem spells_note {l : List Lexeme} (h : Spells l text.toList) (closed : '\x7d' ∉ note.toList) :
    Spells (l ++ [.note note]) (text ++ "\x7b" ++ note ++ "\x7d").toList := by
  have spells := h.append (Lexeme.spells_singleton (x := .note note) closed)
  simpa [Lexeme.spelling] using spells

theorem annotated?_note {v : MeasureUnit} (closed : '\x7d' ∉ note.toList) :
    annotated? v (some note) = some (noted v note) := by
  rw [annotated?, annotate, if_neg (by simpa using closed)]
  rfl

/-- The note belongs to an operand in front of it. -/
theorem Tree.Denotes.notes {t : Tree .atom} (h : t.Denotes table text u)
    (closed : '\x7d' ∉ note.toList) : (t.withNote note).Notes table text u note := by
  obtain ⟨words, noted⟩ := withNote_of_bare table note h.bare
  obtain ⟨v, eval, same, tidy⟩ := h.value
  refine ⟨?_, isPreferred_withNote note h.preferred, ⟨.noted v note, ?_, ?_, tidy⟩,
    startsExponent_withNote t note⟩
  · rw [words]
    exact spells_note h.spells closed
  · rw [noted, eval, Option.bind_some, annotated?_note closed]
  · rw [noted_beq_noted, same, beq_self_eq_true]
    rfl

/-- A note without an operand is one on the dimensionless unit. -/
theorem notes_one (table : SymbolTable) (closed : '\x7d' ∉ note.toList) :
    (Tree.bareNote note).Notes table "" one note := by
  refine ⟨?_, trivial, ⟨.noted one note, ?_, ?_, isTidy_one⟩, fun _ => rfl⟩
  · have none : Spells [] "".toList := Lexeme.spells_nil
    exact spells_note none closed
  · rw [Tree.eval, annotate, if_neg (by simpa using closed)]
    rfl
  · rw [noted_beq_noted, show (one == one) = true from rfl, beq_self_eq_true]
    rfl

/-! ### Units with a note -/

/-- A word of digits is a number without a fraction. -/
theorem eq_number_of_isDigit {x : Lexeme} (spelled : x.IsSpelled)
    (digits : ∀ c ∈ x.spelling, c.isDigit = true) : ∃ literal, x = .number literal := by
  cases x with
  | number literal => exact ⟨literal, rfl⟩
  | identifier name =>
    obtain ⟨⟨c, tail, eq, starts⟩, -⟩ := Lexeme.isName_iff.1 spelled
    have digit := digits c (by simp [Lexeme.spelling, Lexeme.value, eq])
    rw [(Lexeme.startsIdentifier_facts starts).2.2.2.2.1] at digit
    cases digit
  | superscript ds =>
    obtain ⟨d, tail, rfl⟩ := List.exists_cons_of_ne_nil spelled.1
    have digit := digits (Text.toSuperscript d) (by simp [Lexeme.spelling])
    obtain ⟨-, -, -, continues, -⟩ := Lexeme.toSuperscript_facts (spelled.2 d (by simp))
    rw [Lexeme.not_isDigit_of_continues continues] at digit
    cases digit
  | logarithm base => cases base <;> cases digits 'l' (by simp [Lexeme.spelling])
  | note text => cases digits '\x7b' (by simp [Lexeme.spelling])
  | endOfInput => exact spelled.elim
  | _ => cases digits _ (List.mem_singleton_self _)

/-- A derivation that is spelled by digits derives a single number. -/
theorem exists_number_of_isDigit {p : Precedence} {t : Tree p} {text : List Char}
    (spells : Spells t.lexemes text) (digits : text.all Char.isDigit = true) :
    ∃ literal, t.lexemes = [.number literal] := by
  have apart : Lexeme.AreApart t.lexemes := by
    have words := t.areApart [] trivial (borders_none _)
    rwa [List.append_nil] at words
  obtain ⟨spelled, rfl⟩ := spells
  have number (x : Lexeme) (hx : x ∈ t.lexemes) : ∃ literal, x = .number literal :=
    eq_number_of_isDigit (spelled x hx) fun c hc =>
      List.all_eq_true.1 digits c (List.mem_flatMap.2 ⟨x, hx, hc⟩)
  obtain ⟨x, l, words⟩ := List.exists_cons_of_ne_nil t.lexemes_ne_nil
  rw [words] at apart number ⊢
  obtain ⟨literal, rfl⟩ := number x (by simp)
  cases l with
  | nil => exact ⟨literal, rfl⟩
  | cons y l =>
    obtain ⟨other, rfl⟩ := number y (by simp)
    cases apart.1

theorem Suffix.lexemes_ne_nil (s : Suffix) : s.lexemes ≠ [] := by
  rcases s with - | ⟨-, - | -⟩ | - <;> nofun

/-- All that a single number derives means that number. -/
theorem Tree.eval_of_number {literal : Numeral} : {p : Precedence} → (t : Tree p) →
    t.lexemes = [.number literal] →
    t.eval table = (Tree.number ⟨none, literal⟩ none).eval table
  | _, .number ⟨none, other⟩ none, h => by
    cases h
    rfl
  | _, .number ⟨none, other⟩ (some s), h => by cases h
  | _, .number ⟨some .plus, other⟩ note, h => by cases h
  | _, .number ⟨some .minus, other⟩ note, h => by cases h
  | _, .power operand none, h => operand.eval_of_number (by simpa [lexemes] using h)
  | _, .power operand (some suffix), h => by
    have length := congrArg List.length h
    have first := List.length_pos_of_ne_nil operand.lexemes_ne_nil
    have second := List.length_pos_of_ne_nil suffix.lexemes_ne_nil
    simp only [lexemes, Option.map_some, Option.getD_some, List.length_append,
      List.length_singleton] at length
    omega
  | _, .single factor, h => factor.eval_of_number h
  | _, .chain left op right, h => by
    have length := congrArg List.length h
    have first := List.length_pos_of_ne_nil left.lexemes_ne_nil
    simp only [lexemes, List.length_append, List.length_cons, List.length_nil] at length
    omega
  | _, .sum leading factors trailing, h => by
    have length := congrArg List.length h
    have some := List.length_pos_of_ne_nil factors.lexemes_ne_nil
    simp only [lexemes, List.length_append, List.length_singleton] at length
    rcases leading with - | ⟨n, sign⟩
    · rcases trailing with - | ⟨sign, n⟩
      · rw [← factors.eval_of_number (by simpa [lexemes, leadingLexemes, trailingLexemes] using h)]
        simp [eval, leadingShift, trailingShift]
      · simp only [trailingLexemes, List.length_cons] at length
        omega
    · simp only [leadingLexemes, List.length_append, List.length_singleton] at length
      omega

/-- The text of an operand, or none, with a note behind it. -/
theorem exists_notes (h : Renders printer.table (printer.render u) u)
    (operand : printer.isOperand u = true) (closed : '\x7d' ∉ note.toList) :
    ∃ t : Tree .atom, t.Notes printer.table (printer.render u).text u note := by
  rcases h with ⟨rfl, text⟩ | h
  · rw [text]
    exact ⟨_, notes_one printer.table closed⟩
  · rw [Printer.isOperand, Bool.or_eq_true, decide_eq_true_eq] at operand
    rcases operand with atom | digits
    · rw [atom] at h
      obtain ⟨t, denotes, -⟩ := h
      exact ⟨_, denotes.notes closed⟩
    · obtain ⟨t, denotes, -⟩ := h
      obtain ⟨literal, words⟩ := exists_number_of_isDigit denotes.spells digits
      have number : (Tree.number ⟨none, literal⟩ none).Denotes printer.table
          (printer.render u).text u :=
        denotes.congr words.symm trivial (t.eval_of_number words).symm
      exact ⟨_, number.notes closed⟩

def Tree.alone (t : Tree .atom) : Tree .addition := .sum none (.single (.power t none)) none

theorem Tree.lexemes_alone (t : Tree .atom) : t.alone.lexemes = t.lexemes := by
  simp [Tree.alone, Tree.lexemes, leadingLexemes, trailingLexemes]

theorem Tree.isPreferred_alone {t : Tree .atom} (h : t.IsPreferred) : t.alone.IsPreferred := by
  refine ⟨fun _ => ?_, h⟩
  rw [trailingLexemes, List.append_nil]
  exact startsOffset_product _

theorem Tree.eval_alone (t : Tree .atom) : t.alone.eval table = t.eval table := by
  simp [Tree.alone, Tree.eval, leadingShift, trailingShift]

/-- In parentheses a unit with a note is an operand. -/
theorem Tree.Notes.reads {t : Tree .atom} (h : t.Notes table text u note) :
    Reads table (Rendered.enclosed (text ++ "\x7b" ++ note ++ "\x7d")) .atom (noted u note) := by
  refine ⟨.enclosed t.alone none, ⟨?_, t.isPreferred_alone h.preferred, ?_, ?_⟩, fun _ =>
    ⟨fun _ => rfl, fun _ => rfl, fun _ => ?_⟩⟩
  · have spells := spells_enclosed h.spells
    rw [← t.lexemes_alone] at spells
    exact spells
  · rw [Tree.lexemes, endsWithNote_cons (by simp)]
    exact endsWithNote_concat _ _
  · obtain ⟨v, eval, same⟩ := h.value
    refine ⟨v, ?_, same⟩
    rw [Tree.eval, t.eval_alone, eval]
    rfl
  · change (!startsExponent (_ ++ [.closeParen])) = true
    rw [t.lexemes_alone, h.exponent]
    rfl

end Metrology.Expression
