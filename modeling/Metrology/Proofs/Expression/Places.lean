import Metrology.Proofs.Expression.Explanations

/-!
# The places of errors

Every error that has a position stands in the text: at one of its words, at the first character that is
refused, or where the expression ends. The expression is what is left when the note at the end of the
text is split off, and starts where the text does, so that places in it are places in the text. A text
that is not cut into words is refused at the same character whether its note is split off or not.
-/
namespace Metrology

/-! ### Longer texts -/

namespace Text

open Relation (ReflTransGen)

variable {text rest more : List Char} {c : Char}

/-- What is put behind a text can complete a note or a number in it, and makes nothing worse. -/
theorem IsRefused.of_append (refused : IsRefused (c :: (rest ++ more))) : IsRefused (c :: rest) := by
  rcases refused with closing | ⟨brace, unclosed⟩ | ⟨point, plain⟩ | control
  · exact Or.inl closing
  · exact Or.inr (Or.inl ⟨brace, fun closed => unclosed (List.mem_append_left more closed)⟩)
  · refine Or.inr (Or.inr (Or.inl ⟨point, fun d hd => plain d ?_⟩))
    cases rest with
    | nil => cases hd
    | cons => exact hd
  · exact Or.inr (Or.inr (Or.inr control))

theorem IsClean.append (h : IsClean text rest) (more : List Char) :
    IsClean (text ++ more) (rest ++ more) := by
  refine ReflTransGen.lift (· ++ more) (fun t u step => ?_) _ _ h
  obtain ⟨behind, accepted⟩ := step
  cases behind with
  | @note inner u closed =>
    have behind : Behind ('\x7b' :: (inner ++ '\x7d' :: (u ++ more))) (u ++ more) := .note closed
    exact ⟨by simpa using behind, fun refused => accepted refused.of_append⟩
  | @char c u plain =>
    -- A brace that is never closed is refused, so that the character is another one.
    have other : c ≠ '\x7b' := fun brace => accepted (Or.inr (Or.inl ⟨brace, plain brace⟩))
    exact ⟨.char fun brace => absurd brace other, fun refused => accepted refused.of_append⟩

/-- Unless a brace is open in it, a text stays refused in front of a note. -/
theorem IsRefused.append_note (refused : IsRefused (c :: rest)) (shut : c = '\x7b' → '\x7d' ∈ rest) :
    IsRefused (c :: (rest ++ '\x7b' :: more)) := by
  rcases refused with closing | ⟨brace, unclosed⟩ | ⟨point, plain⟩ | control
  · exact Or.inl closing
  · exact absurd (shut brace) unclosed
  · refine Or.inr (Or.inr (Or.inl ⟨point, fun d hd => ?_⟩))
    cases rest with
    | nil =>
      cases hd
      rfl
    | cons => exact plain d hd
  · exact Or.inr (Or.inr (Or.inr control))

end Text

namespace Expression

open Text (isBlank IsClean IsRefused RefusesAt)

/-! ### The expression in a text -/

/-- What is read as an expression: the text without the note at its end. -/
def withoutNote (text : List Char) : List Char :=
  match splitNote? text with
  | some (body, _) => body
  | none => text

/-! ### Texts that are refused -/

theorem clean_note {note blanks : List Char} (closed : '\x7d' ∉ note)
    (blank : ∀ c ∈ blanks, isBlank c = true) :
    IsClean ('\x7b' :: (note ++ '\x7d' :: blanks)) [] := by
  have run := IsClean.run (p := isBlank) (fun _ => isHarmless_of_isBlank) blanks
  rw [List.dropWhile_eq_nil_iff.2 blank] at run
  exact (IsClean.note closed).trans run

/-- A text with a note behind it is cut into words if the text is, and is refused where the text is. -/
theorem refusesAt_body {text : String} {body note blanks : List Char} {n : Nat} {c : Char}
    (chars : text.toList = body ++ '\x7b' :: (note ++ '\x7d' :: blanks)) (shut : IsShut body)
    (closed : '\x7d' ∉ note) (blank : ∀ c ∈ blanks, isBlank c = true)
    (here : RefusesAt text.toList n c) (first : ∀ m d, RefusesAt text.toList m d → n ≤ m) :
    (Scanner.ofText (String.ofList body)).tokens = .error (.malformed n (Lexeme.refusal c)) := by
  have whole : (Scanner.ofText (String.ofList body)).rest = body := String.toList_ofList
  cases scanned : (Scanner.ofText (String.ofList body)).tokens with
  | ok tokens =>
    have clean := Scanner.clean_of_tokens scanned
    rw [whole] at clean
    have through : IsClean text.toList [] := by
      rw [chars]
      exact (clean.append _).trans (clean_note closed blank)
    exact absurd here (through.not_refusesAt n c)
  | error e =>
    obtain ⟨d, rest, m, clean, refused, place, rfl⟩ := Scanner.refused_of_tokens scanned
    rw [whole] at clean place
    have shutRest : d = '\x7b' → '\x7d' ∈ rest := by
      rintro rfl
      exact shut.mem_of_suffix clean.isOutside.suffix
    have cleanText := clean.append ('\x7b' :: (note ++ '\x7d' :: blanks))
    rw [← chars] at cleanText
    have placeText : m + (d :: (rest ++ '\x7b' :: (note ++ '\x7d' :: blanks))).length =
        text.toList.length := by
      rw [chars, List.length_append, ← List.cons_append, List.length_append, ← Nat.add_assoc, place]
      rw [Scanner.ofText, Nat.zero_add]
    obtain ⟨there, first'⟩ := cleanText.refusesAt (refused.append_note shutRest) placeText
    obtain rfl : m = n := Nat.le_antisymm (first' n c here) (first m d there)
    rw [Option.some.inj (there.getElem?.symm.trans here.getElem?)]

/-- Splitting off the note at the end of a text changes nothing of where the text is refused. -/
theorem parse_of_tokens_error (table : SymbolTable) {text : String} {e : Error}
    (failed : (Scanner.ofText text).tokens = .error e) : parse table text = .error e := by
  have visible : text.toList.all isBlank = false := by
    refine Bool.eq_false_iff.2 fun blank => ?_
    have ended := Scanner.tokens_of_blank 0 (List.all_eq_true.1 blank)
    cases failed.symm.trans ended
  rw [parse, visible]
  cases split : splitNote? text.toList with
  | none => exact parseBody_of_error failed
  | some parts =>
    obtain ⟨body, note⟩ := parts
    obtain ⟨blanks, chars, blank, shut⟩ := splitNote?_eq_some split
    obtain ⟨n, c, rfl, here, first⟩ := Scanner.refusesAt_of_tokens failed
    have body := refusesAt_body chars shut (not_mem_of_splitNote? split) blank here first
    simp only [Bool.false_eq_true, if_false, parseBody_of_error body]
    rfl

/-! ### Texts that are cut into words -/

variable {text : String} {tokens : List Token} {e : Error}

theorem withoutNote_of_last_note {front : List Token} {a : String} {p : Nat}
    (scanned : (Scanner.ofText text).tokens = .ok (front ++ [⟨.note a, p⟩])) :
    withoutNote text.toList = text.toList.take p := by
  rw [withoutNote, (splitNote?_of_last_note scanned).1]

theorem withoutNote_of_no_last_note (scanned : (Scanner.ofText text).tokens = .ok tokens)
    (some : tokens ≠ []) (plain : ∀ front a p, tokens ≠ front ++ [⟨.note a, p⟩]) :
    withoutNote text.toList = text.toList := by
  rw [withoutNote, splitNote?_of_tokens scanned some plain]

/-- The error of a text that is cut into words is accounted for by the words of the expression. -/
theorem exists_explains_of_parse {table : SymbolTable}
    (scanned : (Scanner.ofText text).tokens = .ok tokens) (failed : parse table text = .error e) :
    ∃ s : Passage, s.table = table ∧ s.tokens <+: tokens ∧
      s.stop = (withoutNote text.toList).length ∧ s.Explains e := by
  by_cases last : ∃ front a p, tokens = front ++ [⟨.note a, p⟩]
  · obtain ⟨front, a, p, rfl⟩ := last
    have before := tokens_take_of_last_note scanned
    rw [parse_of_last_note table scanned, parseBody_eq before] at failed
    have failed : (Cursor.read table
        ⟨front, (String.ofList (text.toList.take p)).length, 0⟩).1 = .error e := by
      generalize (Cursor.read table _).1 = outcome at failed ⊢
      cases outcome <;> cases failed
      rfl
    refine ⟨.ofText table before, rfl, List.prefix_append _ _, ?_,
      (Passage.isAt_ofText table before).read.2 e failed⟩
    rw [withoutNote_of_last_note scanned]
    exact String.length_ofList
  · have plain : ∀ front a p, tokens ≠ front ++ [⟨.note a, p⟩] := fun front a p eq =>
      last ⟨front, a, p, eq⟩
    rw [parse_of_no_last_note table scanned plain] at failed
    have some : tokens ≠ [] := by
      rintro rfl
      cases (parseBody_nil scanned).symm.trans failed
    rw [parseBody_eq scanned] at failed
    refine ⟨.ofText table scanned, rfl, List.prefix_rfl, ?_,
      (Passage.isAt_ofText table scanned).read.2 e failed⟩
    rw [withoutNote_of_no_last_note scanned some plain]
    exact String.length_toList.symm

theorem length_withoutNote_le (text : List Char) : (withoutNote text).length ≤ text.length := by
  rw [withoutNote]
  split
  · rename_i split
    obtain ⟨blanks, chars, -⟩ := splitNote?_eq_some split
    simp [chars]
  · exact Nat.le_refl _

/-- The places in a text where a fault can be. -/
inductive IsFaultAt (text : String) (fault : Fault) (p : Nat) : Prop where
  /-- A word starts there. -/
  | word {tokens : List Token} {x : Lexeme} (cut : tokenize text = .ok tokens)
      (member : ⟨x, p⟩ ∈ tokens) (notEnd : x ≠ .endOfInput)
  /-- There is the first character that can be in no word, and the fault names it. -/
  | refused {c : Char} (names : fault = Lexeme.refusal c) (here : RefusesAt text.toList p c)
      (first : ∀ m d, RefusesAt text.toList m d → p ≤ m)
  /-- The expression ends there. -/
  | ended (stop : p = (withoutNote text.toList).length)

/-- Errors are where their causes are. The symbol of an unknown unit stands in the text at the position
of the error, and is not in the table. The position of a fault is at most the length of the text, and a
word starts there, or a character stands there that can be in no word, or the expression ends there. -/
theorem parse_error_places (table : SymbolTable) (text : String) :
    (∀ symbol p, parse table text = .error (.unknownUnit symbol p) →
      (∃ front back, text.toList = front ++ symbol.toList ++ back ∧ front.length = p) ∧
      table.unit? symbol = none) ∧
    ∀ p fault, parse table text = .error (.malformed p fault) →
      p ≤ text.length ∧ IsFaultAt text fault p := by
  cases scanned : (Scanner.ofText text).tokens with
  | error e =>
    have refused := parse_of_tokens_error table scanned
    obtain ⟨n, c, rfl, here, first⟩ := Scanner.refusesAt_of_tokens scanned
    refine ⟨fun symbol p failed => ?_, fun p fault failed => ?_⟩
    · cases refused.symm.trans failed
    · cases refused.symm.trans failed
      have within : n < text.toList.length := (List.getElem?_eq_some_iff.1 here.getElem?).1
      rw [String.length_toList] at within
      exact ⟨Nat.le_of_lt within, .refused rfl here first⟩
  | ok tokens =>
    refine ⟨fun symbol p failed => ?_, fun p fault failed => ?_⟩
    · obtain ⟨s, rfl, before, -, explains⟩ := exists_explains_of_parse scanned failed
      cases explains with
      | unknownUnit member missing =>
        obtain ⟨front, word, back, chars, position, spelled⟩ :=
          Scanner.exists_spelling_of_mem scanned (before.subset member)
        obtain rfl : word = symbol.toList := List.mem_singleton.1 spelled
        exact ⟨⟨front, back, chars, position⟩, missing⟩
    · obtain ⟨s, rfl, before, stop, explains⟩ := exists_explains_of_parse scanned failed
      cases explains with
      | malformed _ place =>
        obtain ⟨t, member | rfl, rfl⟩ := place
        · have member := before.subset member
          obtain ⟨front, word, back, chars, position, -⟩ := Scanner.exists_spelling_of_mem scanned member
          have within : front.length ≤ text.toList.length := by simp [chars]
          rw [position, String.length_toList] at within
          exact ⟨within, .word (Scanner.tokenize_of_tokens scanned) (List.mem_append_left _ member)
            (Scanner.lexeme_ne_endOfInput scanned t member)⟩
        · have within := length_withoutNote_le text.toList
          rw [← stop, String.length_toList] at within
          exact ⟨within, .ended stop⟩

/-- A symbol behind a blank and in front of a note, a brace that closes nothing, and a divisor that is
missing in front of a note. -/
theorem parse_error_places_metre :
    let table := (SymbolMap.empty.addLabel (.base "m") "m").table
    let brace : Fault := .unexpectedCharacter '\x7d'
    let divisor : Fault := .expected .operand .endOfInput
    (parse table " m·q\x7bn\x7d" = .error (.unknownUnit "q" 3) ∧
      (∃ front back, " m·q\x7bn\x7d".toList = front ++ "q".toList ++ back ∧ front.length = 3) ∧
      table.unit? "q" = none) ∧
    (parse table "m\x7d·\x7bn\x7d" = .error (.malformed 1 brace) ∧ IsFaultAt "m\x7d·\x7bn\x7d" brace 1) ∧
    parse table "m/\x7bn\x7d " = .error (.malformed 2 divisor) ∧ IsFaultAt "m/\x7bn\x7d " divisor 2 := by
  intro table brace divisor
  have unknown : parse table " m·q\x7bn\x7d" = .error (.unknownUnit "q" 3) := by
    have scanned : (Scanner.ofText " m·q\x7bn\x7d").tokens = .ok
        ([⟨.identifier "m", 1⟩, ⟨.middleDot, 2⟩, ⟨.identifier "q", 3⟩] ++ [⟨.note "n", 4⟩]) := by
      refine Scanner.tokens_of_next ⟨_, 2⟩ rfl (by decide) ?_
      refine Scanner.tokens_of_next ⟨_, 3⟩ rfl (by decide) ?_
      refine Scanner.tokens_of_next ⟨_, 4⟩ rfl (by decide) ?_
      refine Scanner.tokens_of_next ⟨_, 7⟩ rfl (by decide) ?_
      exact Scanner.tokens_of_end ⟨[], 7⟩ rfl rfl
    rw [parse_of_last_note table scanned, parseBody_eq (tokens_take_of_last_note scanned)]
    rfl
  have refused : parse table "m\x7d·\x7bn\x7d" = .error (.malformed 1 brace) := by
    have scanned : (Scanner.ofText "m\x7d·\x7bn\x7d").tokens = .error (.malformed 1 brace) := by
      rw [Scanner.tokens_eq_map (t := ⟨.identifier "m", 0⟩) ⟨_, 1⟩ rfl (by decide),
        Scanner.tokens_of_error ⟨_, 1⟩ rfl]
      rfl
    exact parse_of_tokens_error table scanned
  have missing : parse table "m/\x7bn\x7d " = .error (.malformed 2 divisor) := by
    have scanned : (Scanner.ofText "m/\x7bn\x7d ").tokens = .ok
        ([⟨.identifier "m", 0⟩, ⟨.solidus, 1⟩] ++ [⟨.note "n", 2⟩]) := by
      refine Scanner.tokens_of_next ⟨_, 1⟩ rfl (by decide) ?_
      refine Scanner.tokens_of_next ⟨_, 2⟩ rfl (by decide) ?_
      refine Scanner.tokens_of_next ⟨_, 5⟩ rfl (by decide) ?_
      exact Scanner.tokens_of_end ⟨[], 6⟩ rfl rfl
    rw [parse_of_last_note table scanned, parseBody_eq (tokens_take_of_last_note scanned)]
    rfl
  exact ⟨⟨unknown, (parse_error_places table _).1 _ _ unknown⟩,
    ⟨refused, ((parse_error_places table _).2 _ _ refused).2⟩,
    missing, ((parse_error_places table _).2 _ _ missing).2⟩

end Expression

end Metrology
