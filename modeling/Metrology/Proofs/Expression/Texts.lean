import Mathlib.Data.List.TakeWhile
import Metrology.Expression.Format
import Metrology.Proofs.Expression.Notes

/-!
# Texts with a note at their end

A note at the end of a text is split off by its characters, before there are any words. Where
the rest of the text is made of words, it is split off where it was put on, whatever braces
open in it: a brace that opens in the rest belongs to a note, which has closed.
-/
namespace Metrology.Expression

open Lexeme (Spells isBlank_of_isInk isInk isInk_of_mem_spelling)

variable {table : SymbolTable} {p : Precedence} {text : String} {u : MeasureUnit}

/-! ### The last character -/

theorem trimEnd_concat {text : List Char} {c : Char} (ink : Text.isBlank c = false) :
    Text.trimEnd (text ++ [c]) = text ++ [c] := by
  rw [Text.trimEnd, List.reverse_concat, List.dropWhile_cons_of_neg (by simp [ink]),
    List.reverse_cons, List.reverse_reverse]

/-- A text that ends with neither a blank nor a brace has no note at its end. -/
theorem splitNote?_concat {text : List Char} {c : Char} (ink : isInk c = true) :
    splitNote? (text ++ [c]) = none := by
  rw [splitNote?, trimEnd_concat (isBlank_of_isInk ink), List.reverse_concat]
  split
  · rename_i eq
    cases eq
    cases ink
  · rfl

/-- A text whose last word is no note has none at its end. -/
theorem splitNote?_of_spells {l : List Lexeme} {text : List Char} (spells : Spells l text)
    (bare : endsWithNote l = false) : splitNote? text = none := by
  obtain ⟨spelled, rfl⟩ := spells
  cases l using List.reverseRecOn with
  | nil => rfl
  | append_singleton l x =>
    have plain : ∀ s, x ≠ .note s := by
      rintro s rfl
      rw [endsWithNote_concat] at bare
      cases bare
    obtain ⟨c, tail, eq, -⟩ := Lexeme.exists_cons_spelling (spelled x (by simp))
    obtain ⟨front, last, spelling⟩ : ∃ front last, x.spelling = front ++ [last] :=
      (List.eq_nil_or_concat' x.spelling).resolve_left (by simp [eq])
    have ink : isInk last = true :=
      isInk_of_mem_spelling (spelled x (by simp)) plain last (by simp [spelling])
    rw [List.flatMap_append, List.flatMap_singleton, spelling, ← List.append_assoc,
      splitNote?_concat ink]

/-- Whether no brace opens in a text behind the last one that closes. -/
def IsShut (text : List Char) : Prop :=
  ∀ c ∈ text.reverse.takeWhile (· != '\x7d'), (c != '\x7b') = true

theorem isShut_nil : IsShut [] := nofun

theorem IsShut.append {text part : List Char} (h : IsShut text)
    (plain : ∀ c ∈ part, c ≠ '\x7b' ∧ c ≠ '\x7d') : IsShut (text ++ part) := by
  rw [IsShut, List.reverse_append, List.takeWhile_append_of_pos fun c hc => ?_]
  · intro c hc
    rcases List.mem_append.1 hc with hc | hc
    · exact bne_iff_ne.2 (plain c (List.mem_reverse.1 hc)).1
    · exact h c hc
  · exact bne_iff_ne.2 (plain c (List.mem_reverse.1 hc)).2

theorem isShut_concat (text : List Char) : IsShut (text ++ ['\x7d']) := by
  simp [IsShut]

/-- Notes are closed in the texts of words. -/
theorem isShut_of_spells {l : List Lexeme} {text : List Char} (spells : Spells l text) :
    IsShut text := by
  obtain ⟨spelled, rfl⟩ := spells
  induction l using List.reverseRecOn with
  | nil => exact isShut_nil
  | append_singleton l x ih =>
    rw [List.flatMap_append, List.flatMap_singleton]
    by_cases note : ∃ s, x = .note s
    · obtain ⟨s, rfl⟩ := note
      rw [Lexeme.spelling, ← List.cons_append, ← List.append_assoc]
      exact isShut_concat _
    · refine (ih fun y hy => spelled y (by simp [hy])).append fun c hc => Lexeme.ne_brace_of_isInk ?_
      exact isInk_of_mem_spelling (spelled x (by simp)) (fun s eq => note ⟨s, eq⟩) c hc

theorem forall_ne_closing {note : List Char} (closed : '\x7d' ∉ note) :
    ∀ c ∈ note.reverse ++ ['\x7b'], (c != '\x7d') = true := by
  intro c hc
  simp only [List.mem_append, List.mem_reverse, List.mem_singleton, bne_iff_ne] at hc ⊢
  rcases hc with hc | rfl
  · exact ne_of_mem_of_not_mem hc closed
  · decide

/-- A note is split off as it was put on, unless a brace is open in front of it. -/
theorem splitNote?_append {text note : List Char} (shut : IsShut text) (closed : '\x7d' ∉ note) :
    splitNote? (text ++ '\x7b' :: (note ++ ['\x7d'])) = some (text, note) := by
  have inside := forall_ne_closing closed
  have opens : ∀ c ∈ ('\x7b' :: note).head?, (c != '\x7b') = false := by
    intro c hc
    cases hc
    rfl
  -- The rest is what is in front of its last brace that closes, and what is behind.
  obtain ⟨back, backEq⟩ : ∃ back, text.reverse.takeWhile (· != '\x7d') = back := ⟨_, rfl⟩
  obtain ⟨front, frontEq⟩ : ∃ front, text.reverse.dropWhile (· != '\x7d') = front := ⟨_, rfl⟩
  have back_open : ∀ c ∈ back.reverse, (c != '\x7b') = true := fun c hc =>
    shut c (backEq ▸ List.mem_reverse.1 hc)
  have parts : front.reverse ++ back.reverse = text := by
    rw [← backEq, ← frontEq, ← List.reverse_append, List.takeWhile_append_dropWhile,
      List.reverse_reverse]
  have whole : text ++ '\x7b' :: (note ++ ['\x7d']) = (text ++ '\x7b' :: note) ++ ['\x7d'] := by simp
  have reversed : (text ++ '\x7b' :: note).reverse = (note.reverse ++ ['\x7b']) ++ text.reverse := by
    simp
  have tail : ((note.reverse ++ ['\x7b']) ++ back).reverse = back.reverse ++ '\x7b' :: note := by simp
  rw [whole, splitNote?, trimEnd_concat (by decide), List.reverse_concat]
  simp only [reversed, List.takeWhile_append_of_pos inside, List.dropWhile_append_of_pos inside, backEq,
    frontEq, tail, dropWhile_append back_open opens, takeWhile_append back_open opens, parts]

/-! ### A note that is split off -/

/-- A note that is split off has no closing brace in it. -/
theorem not_mem_of_splitNote? {text body note : List Char} (h : splitNote? text = some (body, note)) :
    '\x7d' ∉ note := by
  unfold splitNote? at h
  split at h
  · rename_i reversed _
    simp only at h
    split at h
    · cases h
    · rename_i c note' eq
      cases h
      intro closed
      have tail : '\x7d' ∈ (reversed.takeWhile (· != '\x7d')).reverse :=
        (List.dropWhile_sublist _).subset (eq ▸ List.mem_cons_of_mem c closed)
      simpa using List.mem_takeWhile_imp (List.mem_reverse.1 tail)
  · cases h

/-- A text is what is left of it with blanks behind. -/
theorem exists_trimEnd_append (text : List Char) :
    ∃ blanks, text = Text.trimEnd text ++ blanks ∧ ∀ c ∈ blanks, Text.isBlank c = true := by
  refine ⟨(text.reverse.takeWhile Text.isBlank).reverse, ?_, fun c hc => ?_⟩
  · rw [Text.trimEnd, ← List.reverse_append, List.takeWhile_append_dropWhile, List.reverse_reverse]
  · exact List.mem_takeWhile_imp (List.mem_reverse.1 hc)

theorem isShut_dropWhile (reversed : List Char) :
    IsShut (reversed.dropWhile (· != '\x7d')).reverse := by
  have stop := List.head?_dropWhile_not (· != '\x7d') reversed
  cases head : reversed.dropWhile (· != '\x7d') with
  | nil => exact isShut_nil
  | cons c front =>
    rw [head] at stop
    have closing : c = '\x7d' := by simpa using stop
    rw [closing, List.reverse_cons]
    exact isShut_concat _

/-- A note that is split off stands at the end of the text, and no brace is open in front of it. -/
theorem splitNote?_eq_some {text body note : List Char} (h : splitNote? text = some (body, note)) :
    ∃ blanks, text = body ++ '\x7b' :: (note ++ '\x7d' :: blanks) ∧
      (∀ c ∈ blanks, Text.isBlank c = true) ∧ IsShut body := by
  obtain ⟨blanks, trimmed, blank⟩ := exists_trimEnd_append text
  refine ⟨blanks, ?_⟩
  unfold splitNote? at h
  split at h
  · rename_i reversed ends
    simp only at h
    split at h
    · cases h
    · rename_i c note' opens
      cases h
      have brace : c = '\x7b' := by
        have stop := List.head?_dropWhile_not (· != '\x7b') (reversed.takeWhile (· != '\x7d')).reverse
        simpa [opens] using stop
      subst brace
      -- The note is found from the end: behind the last other brace that closes, where one opens.
      obtain ⟨tail, tailEq⟩ : ∃ tail, (reversed.takeWhile (· != '\x7d')).reverse = tail := ⟨_, rfl⟩
      obtain ⟨head, headEq⟩ : ∃ head, reversed.dropWhile (· != '\x7d') = head := ⟨_, rfl⟩
      obtain ⟨front, frontEq⟩ : ∃ front, tail.takeWhile (· != '\x7b') = front := ⟨_, rfl⟩
      have parts : head.reverse ++ (front ++ '\x7b' :: note) = reversed.reverse := by
        rw [← frontEq, ← opens, tailEq, List.takeWhile_append_dropWhile, ← tailEq, ← headEq,
          ← List.reverse_append, List.takeWhile_append_dropWhile]
      have ended : Text.trimEnd text = reversed.reverse ++ ['\x7d'] := by
        rw [← List.reverse_cons, ← ends, List.reverse_reverse]
      have shut : IsShut head.reverse := by
        rw [← headEq]
        exact isShut_dropWhile reversed
      have plain : ∀ c ∈ front, c ≠ '\x7b' ∧ c ≠ '\x7d' := by
        intro c hc
        have inTail : c ∈ tail := (List.takeWhile_sublist _).subset (frontEq ▸ hc)
        rw [← frontEq] at hc
        rw [← tailEq, List.mem_reverse] at inTail
        exact ⟨by simpa using List.mem_takeWhile_imp hc, by simpa using List.mem_takeWhile_imp inTail⟩
      rw [tailEq, headEq, frontEq]
      refine ⟨?_, blank, shut.append plain⟩
      rw [trimmed, ended, ← parts]
      simp
  · cases h

/-- In a shut text what opens has closed. -/
theorem IsShut.mem_of_suffix {text rest : List Char} (shut : IsShut text)
    (suffix : '\x7b' :: rest <:+ text) : '\x7d' ∈ rest := by
  obtain ⟨front, rfl⟩ := suffix
  by_contra unclosed
  have inside := forall_ne_closing unclosed
  have reversed : (front ++ '\x7b' :: rest).reverse = (rest.reverse ++ ['\x7b']) ++ front.reverse := by
    simp
  have opening := shut '\x7b' (by rw [reversed, List.takeWhile_append_of_pos inside]; simp)
  cases opening

/-! ### Reading texts -/

theorem not_blank_of_spells {l : List Lexeme} {text : List Char} (spells : Spells l text)
    (some : l ≠ []) : text.all Text.isBlank = false := by
  obtain ⟨x, l, rfl⟩ := List.exists_cons_of_ne_nil some
  obtain ⟨spelled, rfl⟩ := spells
  obtain ⟨c, tail, eq, blank, -⟩ := Lexeme.exists_cons_spelling (spelled x (by simp))
  simp [eq, blank]

/-- A text without a note at its end is read word by word. -/
theorem parse_of_spells {l : List Lexeme} (spells : Spells l text.toList) (some : l ≠ [])
    (bare : endsWithNote l = false) : parse table text = parseBody table text := by
  rw [parse, not_blank_of_spells spells some, splitNote?_of_spells spells bare]
  rfl

/-- The note at the end of a text is put on what the rest of it is read as. -/
theorem parse_note {l : List Lexeme} {note : String} (spells : Spells l text.toList)
    (closed : '\x7d' ∉ note.toList) :
    parse table (text ++ "\x7b" ++ note ++ "\x7d") =
      (parseBody table text).map fun v => .noted v note := by
  have chars : (text ++ "\x7b" ++ note ++ "\x7d").toList =
      text.toList ++ '\x7b' :: (note.toList ++ ['\x7d']) := by simp
  have blank : (text.toList ++ '\x7b' :: (note.toList ++ ['\x7d'])).all Text.isBlank = false := by
    have brace : Text.isBlank '\x7b' = false := by decide
    simp [brace]
  rw [parse, chars, blank, splitNote?_append (isShut_of_spells spells) closed]
  simp only [String.ofList_toList]
  cases parseBody table text with
  | error e => rfl
  | ok v =>
    change v.annotate note = _
    rw [MeasureUnit.annotate, if_neg (by simpa using closed)]
    rfl

theorem wordNesting_concat_note (l : List Lexeme) (level : Nat) (note : String) :
    wordNesting level (l ++ [.note note]) = wordNesting level l := by
  induction l generalizing level with
  | nil => rfl
  | cons x l ih => cases x <;> simp [wordNesting, ih]

/-- A note does not count for nesting. -/
theorem nesting_note {l : List Lexeme} {note : String} (spells : Spells l text.toList)
    (closed : '\x7d' ∉ note.toList) :
    nesting 0 false (text ++ "\x7b" ++ note ++ "\x7d").toList = nesting 0 false text.toList := by
  obtain ⟨spelled, eq⟩ := spells_note spells closed
  rw [← eq, ← spells.2, nesting_spelling 0 spelled, nesting_spelling 0 spells.1,
    wordNesting_concat_note]

/-- The spelling of a derivation with a note behind it is read as its meaning with the note. -/
theorem parse_note_of_derivation {t : Tree .addition} {v : MeasureUnit} {note : String}
    (spells : Spells t.lexemes text.toList) (preferred : t.IsPreferred)
    (eval : t.eval table = some v) (closed : '\x7d' ∉ note.toList)
    (shallow : nesting 0 false (text ++ "\x7b" ++ note ++ "\x7d").toList < maxDepth) :
    parse table (text ++ "\x7b" ++ note ++ "\x7d") = .ok (.noted v note) := by
  rw [nesting_note spells closed] at shallow
  rw [parse_note spells closed, parseBody_of_spells spells preferred eval shallow]
  rfl

/-- What is printed for a unit is read back. -/
theorem parse_of_renders {r : Rendered} (h : Renders table r u) (tidy : u.isTidy = true)
    (shallow : nesting 0 false r.text.toList < maxDepth) :
    ∃ v, parse table r.text = .ok v ∧ (v == u) = true := by
  rcases h with ⟨rfl, rfl⟩ | h
  · exact ⟨MeasureUnit.one, rfl, rfl⟩
  · obtain ⟨t, ⟨spells, preferred, bare, v, eval, same, -⟩, -⟩ :=
      h.weaken (q := .addition) (Nat.zero_le _)
    refine ⟨v, ?_, MeasureUnit.beq_symm tidy same⟩
    rw [parse_of_spells spells t.lexemes_ne_nil bare]
    exact parseBody_of_spells spells preferred eval shallow

end Metrology.Expression
