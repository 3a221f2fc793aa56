import Metrology.Proofs.Expression.Glyphs
import Metrology.Proofs.Expression.Texts

/-!
# Reading in any style

A text in glyphs is read as the same unit in all styles, or refused in all of them. Its tokens mean
the same, and what is looked at before there are tokens, blanks and the note at the end, has nothing
to do with factor signs and exponents.
-/
namespace Metrology.Expression

open Glyph
open Lexeme (isInk)

variable {m : List Glyph} {x : Glyph}

/-! ### Before there are tokens -/

namespace Glyph

theorem IsLegible.init {m' : List Glyph} (h : IsLegible (m ++ m')) : IsLegible m :=
  ⟨fun x hx => h.written x (List.mem_append_left m' hx), List.IsChain.left_of_append h.apart⟩

/-- Factor signs and exponents have neither blanks nor braces in them. -/
theorem isInk_of_mem_text (written : x.IsWritten) (word : x = times ∨ ∃ digits, x = exponent digits)
    (s : Style) : x.text s ≠ [] ∧ ∀ c ∈ x.text s, isInk c = true := by
  rcases word with rfl | ⟨digits, rfl⟩
  · refine ⟨nofun, fun c hc => ?_⟩
    cases List.mem_singleton.1 hc
    cases s.separator <;> decide
  · obtain ⟨some, all⟩ := written
    obtain ⟨separator, exponents⟩ := s
    cases exponents with
    | caret =>
      refine ⟨nofun, List.forall_mem_cons.2 ⟨by decide, fun c hc => ?_⟩⟩
      exact Lexeme.isInk_of_isDigit (all c hc)
    | superscript =>
      refine ⟨fun none => some (List.map_eq_nil_iff.1 none), fun c hc => ?_⟩
      obtain ⟨d, hd, rfl⟩ := List.mem_map.1 hc
      exact Lexeme.isInk_of_isSuperscript (Lexeme.isSuperscript_toSuperscript (all d hd))

theorem ne_brace_of_isOrdinary {c : Char} (h : isOrdinary c = true) : c ≠ '\x7b' ∧ c ≠ '\x7d' := by
  simp only [isOrdinary, Bool.and_eq_true, bne_iff_ne] at h
  exact h.1

theorem isShut_spell (written : ∀ x ∈ m, x.IsWritten) (s : Style) : IsShut (spell s m) := by
  induction m using List.reverseRecOn with
  | nil => exact isShut_nil
  | append_singleton m x ih =>
    have ih := ih fun y hy => written y (by simp [hy])
    have last : x.IsWritten := written x (by simp)
    have word (h : x = times ∨ ∃ digits, x = exponent digits) : IsShut (spell s m ++ x.text s) :=
      ih.append fun c hc => Lexeme.ne_brace_of_isInk ((isInk_of_mem_text last h s).2 c hc)
    rw [spell_concat]
    cases x with
    | plain c => exact ih.append fun d hd => List.mem_singleton.1 hd ▸ ne_brace_of_isOrdinary last
    | note text =>
      rw [Glyph.text, ← List.cons_append, ← List.append_assoc]
      exact isShut_concat _
    | times => exact word (Or.inl rfl)
    | exponent digits => exact word (Or.inr ⟨digits, rfl⟩)

/-- The note at the end of a text is the same in all styles. -/
theorem splitNote?_spell (h : IsLegible m) :
    (∀ s, splitNote? (spell s m) = none) ∨
      ∃ m' note, IsLegible m' ∧ ∀ s, splitNote? (spell s m) = some (spell s m', note) := by
  induction m using List.reverseRecOn with
  | nil => exact Or.inl fun s => rfl
  | append_singleton m x ih =>
    have last : x.IsWritten := h.written x (by simp)
    have word (kind : x = times ∨ ∃ digits, x = exponent digits) (s : Style) :
        splitNote? (spell s m ++ x.text s) = none := by
      obtain ⟨some, ink⟩ := isInk_of_mem_text last kind s
      obtain ⟨front, c, eq⟩ := (List.eq_nil_or_concat' (x.text s)).resolve_left some
      rw [eq, ← List.append_assoc]
      exact splitNote?_concat (ink c (by simp [eq]))
    simp only [spell_concat]
    cases x with
    | plain c =>
      cases blank : Text.isBlank c with
      | true =>
        have same (s : Style) : splitNote? (spell s m ++ (plain c).text s) = splitNote? (spell s m) := by
          rw [splitNote?, splitNote?, Text.trimEnd, Text.trimEnd, Glyph.text, List.reverse_concat,
            List.dropWhile_cons_of_pos blank]
        simp only [same]
        exact ih h.init
      | false =>
        have ink : isInk c = true := by
          have brace := ne_brace_of_isOrdinary last
          simp [isInk, blank, brace]
        exact Or.inl fun s => splitNote?_concat ink
    | note text =>
      exact Or.inr ⟨m, text, h.init, fun s => splitNote?_append (isShut_spell h.init.written s) last⟩
    | times => exact Or.inl (word (Or.inl rfl))
    | exponent digits => exact Or.inl (word (Or.inr ⟨digits, rfl⟩))

end Glyph

/-! ### Reading tokens that mean the same -/

theorem parseBody_of_error {table : SymbolTable} {text : String} {e : Error}
    (failed : (Scanner.ofText text).tokens = .error e) : parseBody table text = .error e := by
  rw [parseBody, Cursor.ofText, failed]
  rfl

theorem toOption_parseBody_of_agree (table : SymbolTable) {a b : String}
    (h : Agree (Scanner.ofText a).tokens (Scanner.ofText b).tokens) :
    (parseBody table a).toOption = (parseBody table b).toOption := by
  generalize scanned : (Scanner.ofText a).tokens = r at h
  generalize scanned' : (Scanner.ofText b).tokens = r' at h
  cases h with
  | error e e' => rw [parseBody_of_error scanned, parseBody_of_error scanned']; rfl
  | @ok l l' alike =>
    have matched : respelled.Matches ⟨l, a.length, 0⟩ ⟨l', b.length, 0⟩ := ⟨alike, trivial⟩
    have outcome := Latitude.outcome_readExpression table matched (Or.inl rfl)
    rw [parseBody_eq scanned, parseBody_eq scanned', Cursor.read, Cursor.read]
    generalize readExpression table ⟨l, a.length, 0⟩ = read at outcome
    generalize readExpression table ⟨l', b.length, 0⟩ = read' at outcome
    cases outcome with
    | ok => rfl
    | error => rfl
    | excused excused => exact excused.elim

theorem toOption_parseBody_spell (table : SymbolTable) (h : IsLegible m) (s s' : Style) :
    (parseBody table (String.ofList (spell s m))).toOption =
      (parseBody table (String.ofList (spell s' m))).toOption := by
  have raised (s : Style) : (parseBody table (String.ofList (spell s m))).toOption =
      (parseBody table (String.ofList (spell raised m))).toOption := by
    apply toOption_parseBody_of_agree
    rw [Scanner.ofText, Scanner.ofText, String.toList_ofList, String.toList_ofList]
    exact agree_tokens h s 0 0
  exact (raised s).trans (raised s').symm

/-- A text in glyphs is read as the same unit in all styles, or in none. -/
theorem toOption_parse_spell (table : SymbolTable) (h : IsLegible m) (s s' : Style) :
    (parse table (String.ofList (spell s m))).toOption =
      (parse table (String.ofList (spell s' m))).toOption := by
  have blank (s : Style) : (spell s m).all Text.isBlank = m.all (isPlain Text.isBlank) :=
    all_spell Text.isBlank (by decide) h.written s
  simp only [parse, String.toList_ofList, blank]
  cases m.all (isPlain Text.isBlank) with
  | true => rfl
  | false =>
    rcases splitNote?_spell h with none | ⟨m', note, legible, some⟩
    · rw [none s, none s']
      exact toOption_parseBody_spell table h s s'
    · rw [some s, some s']
      have body := toOption_parseBody_spell table legible s s'
      dsimp only
      generalize parseBody table (String.ofList (spell s m')) = r at body ⊢
      generalize parseBody table (String.ofList (spell s' m')) = r' at body ⊢
      cases r <;> cases r' <;> cases body <;> rfl

end Metrology.Expression
