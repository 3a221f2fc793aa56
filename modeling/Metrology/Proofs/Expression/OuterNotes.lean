import Metrology.Proofs.Expression.Printing
import Metrology.Proofs.Expression.Texts

/-!
# Units with notes

Inside a text a note belongs to the operand in front of it. At the end of a text one more note is
split off, which belongs to all of the rest. A unit with notes is therefore read back if its notes
are on operands, the last one apart, and if there is no third note behind its text.
-/
namespace Metrology.Expression

open Lexeme (Spells)
open MeasureUnit

variable {printer : Printer} {u : MeasureUnit} {note : String}

/-- Whether the notes of a unit stay where they are when it is written: there are at most two
behind the text, and all but the last one are on operands. -/
inductive Printer.KeepsNotes (p : Printer) : MeasureUnit → Prop
  | bare {u : MeasureUnit} (bare : u.note? = none) (inner : p.NotesOperands u) : p.KeepsNotes u
  | once {u : MeasureUnit} (note : String) (bare : u.note? = none) (inner : p.NotesOperands u) :
      p.KeepsNotes (.noted u note)
  | twice {u : MeasureUnit} (first second : String) (bare : u.note? = none)
      (inner : p.NotesOperands (.noted u first)) : p.KeepsNotes (.noted (.noted u first) second)

/-- The text of a unit without a note on all of it is what is printed for it. -/
theorem format_of_note? (bare : u.note? = none) : format printer u = (printer.render u).text := by
  cases u <;> first | rfl | cases bare

/-- A unit is read back from its text with a note behind it. -/
theorem exists_parse_note (h : Renders printer.table (printer.render u) u) (tidy : u.isTidy = true)
    (closed : '\x7d' ∉ note.toList)
    (shallow : nesting 0 false ((printer.render u).text ++ "\x7b" ++ note ++ "\x7d").toList < maxDepth) :
    ∃ v, parse printer.table ((printer.render u).text ++ "\x7b" ++ note ++ "\x7d") = .ok v ∧
      (v == noted u note) = true := by
  rcases h with ⟨rfl, text⟩ | h
  · have none : Spells [] "".toList := Lexeme.spells_nil
    have ended : (Scanner.ofText "").tokens = .ok [] :=
      Scanner.tokens_of_end ⟨[], 0⟩ (t := ⟨.endOfInput, 0⟩) rfl rfl
    rw [text, parse_note none closed, parseBody_nil ended]
    exact ⟨.noted one note, rfl, by simp [noted_beq_noted, show (one == one) = true from rfl]⟩
  · obtain ⟨t, ⟨spells, preferred, -, v, eval, same, -⟩, -⟩ :=
      h.weaken (q := .addition) (Nat.zero_le _)
    refine ⟨.noted v note, parse_note_of_derivation spells preferred eval closed shallow, ?_⟩
    simp [noted_beq_noted, beq_symm tidy same]

/-- A unit is read back from its text with two notes behind it, if the text is an operand. -/
theorem exists_parse_notes {first : String} (h : Renders printer.table (printer.render u) u)
    (tidy : u.isTidy = true) (operand : printer.isOperand u = true) (inside : '\x7d' ∉ first.toList)
    (closed : '\x7d' ∉ note.toList)
    (shallow : nesting 0 false ((printer.render u).text ++ "\x7b" ++ first ++ "\x7d" ++ "\x7b" ++
      note ++ "\x7d").toList < maxDepth) :
    ∃ v, parse printer.table ((printer.render u).text ++ "\x7b" ++ first ++ "\x7d" ++ "\x7b" ++ note ++
      "\x7d") = .ok v ∧ (v == noted (noted u first) note) = true := by
  obtain ⟨t, ⟨spells, preferred, ⟨v, eval, same, -⟩, -⟩⟩ := exists_notes h operand inside
  rw [← t.lexemes_alone] at spells
  rw [← t.eval_alone] at eval
  refine ⟨.noted v note, parse_note_of_derivation spells (t.isPreferred_alone preferred) eval closed
    shallow, ?_⟩
  have tidy : (noted u first).isTidy = true := tidy
  simp [noted_beq_noted, beq_symm tidy same]

/-- A unit that keeps its notes is read back from its text. -/
theorem exists_parse_of_keepsNotes (faithful : printer.table.IsFaithful) (tidy : u.isTidy = true)
    (labels : printer.table.Labels u) (spoken : u.IsSpoken) (closed : u.ClosesNotes)
    (keeps : printer.KeepsNotes u)
    (shallow : nesting 0 false (format printer u).toList < maxDepth) :
    ∃ v, parse printer.table (format printer u) = .ok v ∧ (v == u) = true := by
  -- What stands in front of the notes is printed and read as an expression.
  have renders {w : MeasureUnit} (operands : printer.NotesOperands w) (tidy : w.isTidy = true)
      (labels : printer.table.Labels w) (spoken : w.IsSpoken) (closed : w.ClosesNotes) :
      Renders printer.table (printer.render w) w :=
    (renders_render faithful tidy labels
      (printer.isPrintable_of_notesOperands operands closed tidy spoken)).1
  cases keeps with
  | bare bare inner =>
    rw [format_of_note? bare] at shallow ⊢
    exact parse_of_renders (renders inner tidy labels spoken closed) tidy shallow
  | once note bare inner =>
    cases labels with
    | noted _ labels =>
      cases spoken with
      | noted _ spoken =>
        cases closed with
        | noted closed outer =>
          rw [format, format_of_note? bare] at shallow ⊢
          exact exists_parse_note (renders inner tidy labels spoken closed) tidy outer shallow
  | twice first second bare inner =>
    cases labels with
    | noted _ labels =>
      cases spoken with
      | noted _ spoken =>
        cases closed with
        | noted closed outer =>
          cases labels with
          | noted _ labels =>
            cases spoken with
            | noted _ spoken =>
              cases closed with
              | noted closed inside =>
                cases inner with
                | noted inner operand =>
                  rw [format, format, format_of_note? bare] at shallow ⊢
                  exact exists_parse_notes (renders inner tidy labels spoken closed) tidy operand
                    inside outer shallow

end Metrology.Expression
