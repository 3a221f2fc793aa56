import Metrology.Proofs.Expression.Respelling
import Metrology.Proofs.Token.Lookahead

/-!
# The note at the end of a text

A note at the end is split off before the text is cut into words, by its last brace and the first
one that opens behind the brace before that. In a text that is read through this is where the last
word starts, if it is a note: the braces in front of it are those of other notes, all of which have
closed. What stands in front of the note has the same words without it, as no word looks ahead over
a brace.
-/
namespace Metrology

open Text (isBlank)
open Lexeme (IsWord)

/-! ### Words in front of a note -/

namespace Scanner

/-- A text without words is blank. -/
theorem isBlank_of_tokens_nil {text : List Char} {n : Nat} (h : (Scanner.mk text n).tokens = .ok []) :
    ∀ c ∈ text, isBlank c = true := by
  generalize empty : ([] : List Token) = tokens at h
  refine tokens_induction_words (P := fun text _ tokens => [] = tokens → ∀ c ∈ text, isBlank c = true)
    ?_ ?_ h empty
  · exact fun _ blank _ => blank
  · intro _ _ _ _ _ _ _ _ _ _ some
    cases some

/-- Where a note starts a text can be cut off, and has the words in front of the note. -/
theorem tokens_before_note {text : List Char} {n p : Nat} {front back : List Token} {a : String}
    (h : (Scanner.mk text n).tokens = .ok (front ++ ⟨.note a, p⟩ :: back)) :
    ∃ head rest m, text = head ++ '\x7b' :: (a.toList ++ '\x7d' :: rest) ∧ '\x7d' ∉ a.toList ∧
      p = n + head.length ∧ (Scanner.mk head n).tokens = .ok front ∧
      (Scanner.mk rest m).tokens = .ok back := by
  generalize all : front ++ ⟨.note a, p⟩ :: back = tokens at h
  refine tokens_induction_words (P := fun text n tokens => ∀ front,
    front ++ ⟨.note a, p⟩ :: back = tokens → ∃ head rest m,
      text = head ++ '\x7b' :: (a.toList ++ '\x7d' :: rest) ∧ '\x7d' ∉ a.toList ∧
      p = n + head.length ∧ (Scanner.mk head n).tokens = .ok front ∧
      (Scanner.mk rest m).tokens = .ok back) ?_ ?_ h front all
  · intro text n _ front eq
    simp at eq
  · intro x blanks word rest tokens n blank isWord behind ih front eq
    cases front with
    | nil =>
      obtain ⟨first, rfl⟩ := List.cons.inj eq
      obtain ⟨rfl, rfl⟩ := Token.mk.inj first
      rcases isWord.isPlainOrNote with ⟨inner, closed, note, rfl⟩ | ⟨plain, -⟩
      · cases note
        refine ⟨blanks, rest, _, ?_, ?_, rfl, tokens_of_blank n blank, behind⟩
        · simp
        · rwa [String.toList_ofList]
      · exact absurd rfl (plain a)
    | cons t front =>
      obtain ⟨rfl, others⟩ := List.cons.inj eq
      obtain ⟨head, back', m, rfl, closed, position, scanned, rest⟩ := ih front others
      have cut := isWord.loosens (loosens_append_left head _)
        (Lexeme.opensParen_append_brace head _).symm
      refine ⟨blanks ++ (word ++ head), back', m, by simp, closed, ?_,
        tokens_of_word n blank cut scanned, rest⟩
      simp only [List.length_append]
      omega

end Scanner

namespace Expression

open Lexeme (isInk)

/-! ### Braces in front of a note -/

theorem ne_brace_of_isBlank {c : Char} (blank : isBlank c = true) : c ≠ '\x7b' ∧ c ≠ '\x7d' := by
  obtain ⟨opening, closing, -⟩ := isHarmless_of_isBlank blank
  exact ⟨opening, closing⟩

/-- In a text that is read through no brace is open at the end. -/
theorem isShut_of_tokens {text : List Char} {n : Nat} {tokens : List Token}
    (h : (Scanner.mk text n).tokens = .ok tokens) : IsShut text := by
  refine Scanner.tokens_induction_words (P := fun text _ _ => ∀ front, IsShut front →
    IsShut (front ++ text)) ?_ ?_ h [] isShut_nil
  · exact fun _ blank front shut => shut.append fun c hc => ne_brace_of_isBlank (blank c hc)
  · intro x blanks word rest tokens n blank isWord _ ih front shut
    have blanks' : IsShut (front ++ blanks) := shut.append fun c hc => ne_brace_of_isBlank (blank c hc)
    rw [← List.append_assoc, ← List.append_assoc]
    refine ih _ ?_
    rcases isWord.isPlainOrNote with ⟨inner, -, -, rfl⟩ | ⟨-, ink⟩
    · rw [← List.cons_append, ← List.append_assoc]
      exact isShut_concat _
    · exact blanks'.append fun c hc => Lexeme.ne_brace_of_isInk (ink c hc)

theorem splitNote?_append_blanks (text : List Char) {blanks : List Char}
    (blank : ∀ c ∈ blanks, isBlank c = true) : splitNote? (text ++ blanks) = splitNote? text := by
  have trim : Text.trimEnd (text ++ blanks) = Text.trimEnd text := by
    rw [Text.trimEnd, List.reverse_append,
      List.dropWhile_append_of_pos fun c hc => blank c (List.mem_reverse.1 hc)]
    rfl
  rw [splitNote?, trim]
  rfl

/-- A text whose last word is no note has none at its end. -/
theorem splitNote?_of_tokens {text : List Char} {n : Nat} {tokens : List Token}
    (h : (Scanner.mk text n).tokens = .ok tokens) (some : tokens ≠ [])
    (plain : ∀ front a p, tokens ≠ front ++ [⟨.note a, p⟩]) : splitNote? text = none := by
  refine Scanner.tokens_induction_words (P := fun text _ tokens => tokens ≠ [] →
    (∀ front a p, tokens ≠ front ++ [⟨.note a, p⟩]) → ∀ front, splitNote? (front ++ text) = none)
    ?_ ?_ h some plain []
  · exact fun _ _ some => absurd rfl some
  · intro x blanks word rest tokens n blank isWord behind ih _ plain front
    rw [← List.append_assoc, ← List.append_assoc]
    cases tokens with
    | nil =>
      rw [splitNote?_append_blanks _ (Scanner.isBlank_of_tokens_nil behind)]
      rcases isWord.isPlainOrNote with ⟨inner, -, rfl, -⟩ | ⟨-, ink⟩
      · exact absurd rfl (plain [] _ _)
      · obtain ⟨init, last, rfl⟩ := (List.eq_nil_or_concat' word).resolve_left isWord.nonempty
        rw [← List.append_assoc]
        exact splitNote?_concat (ink last (by simp))
    | cons t tokens =>
      refine ih (List.cons_ne_nil t tokens) (fun front a p eq => ?_) _
      exact plain (_ :: front) a p (congrArg (List.cons _) eq)

/-! ### Reading the text -/

variable {text : String} {tokens : List Token}

/-- What stands in front of the note at the end of a text has the words in front of it. -/
theorem tokens_take_of_last_note {front : List Token} {a : String} {p : Nat}
    (scanned : (Scanner.ofText text).tokens = .ok (front ++ [⟨.note a, p⟩])) :
    (Scanner.ofText (String.ofList (text.toList.take p))).tokens = .ok front := by
  obtain ⟨head, rest, m, chars, -, rfl, before, -⟩ := Scanner.tokens_before_note scanned
  rw [Scanner.ofText, String.toList_ofList, chars, Nat.zero_add, List.take_left]
  exact before

/-- A note for the last word of a text is split off where it starts. -/
theorem splitNote?_of_last_note {front : List Token} {a : String} {p : Nat}
    (scanned : (Scanner.ofText text).tokens = .ok (front ++ [⟨.note a, p⟩])) :
    splitNote? text.toList = some (text.toList.take p, a.toList) ∧ p ≤ text.toList.length ∧
      '\x7d' ∉ a.toList := by
  obtain ⟨head, rest, m, chars, closed, rfl, before, ended⟩ := Scanner.tokens_before_note scanned
  have blank := Scanner.isBlank_of_tokens_nil ended
  have whole : text.toList = head ++ '\x7b' :: (a.toList ++ ['\x7d']) ++ rest := by simp [chars]
  have body : text.toList.take (0 + head.length) = head := by
    rw [chars, Nat.zero_add, List.take_left]
  refine ⟨?_, by simp [chars], closed⟩
  rw [body, whole, splitNote?_append_blanks _ blank, splitNote?_append (isShut_of_tokens before) closed]

/-- A text with a note for its last word. -/
theorem parse_of_last_note (table : SymbolTable) {front : List Token} {a : String} {p : Nat}
    (scanned : (Scanner.ofText text).tokens = .ok (front ++ [⟨.note a, p⟩])) :
    parse table text = (parseBody table (String.ofList (text.toList.take p))).map (.noted · a) := by
  obtain ⟨split, -, closed⟩ := splitNote?_of_last_note scanned
  have visible : text.toList.all isBlank = false := by
    refine Bool.eq_false_iff.2 fun blank => ?_
    have none := scanned.symm.trans (Scanner.tokens_of_blank 0 (List.all_eq_true.1 blank))
    simp at none
  rw [parse, visible, split]
  simp only [Bool.false_eq_true, if_false, String.ofList_toList]
  cases parseBody table (String.ofList (text.toList.take p)) with
  | error e => rfl
  | ok u =>
    change u.annotate a = _
    rw [MeasureUnit.annotate, if_neg (by simpa using closed)]
    rfl

/-- A text with another last word, or with none. -/
theorem parse_of_no_last_note (table : SymbolTable)
    (scanned : (Scanner.ofText text).tokens = .ok tokens)
    (plain : ∀ front a p, tokens ≠ front ++ [⟨.note a, p⟩]) :
    parse table text = parseBody table text := by
  by_cases none : tokens = []
  · subst none
    have blank : text.toList.all isBlank = true :=
      List.all_eq_true.2 (Scanner.isBlank_of_tokens_nil scanned)
    rw [parse, if_pos blank, parseBody_nil scanned]
  · have visible : text.toList.all isBlank = false := by
      refine Bool.eq_false_iff.2 fun blank => none ?_
      have ended := Scanner.tokens_of_blank 0 (List.all_eq_true.1 blank)
      exact Except.ok.inj (scanned.symm.trans ended)
    rw [parse, visible, splitNote?_of_tokens scanned none plain]
    rfl

/-- Splitting off the note at the end by its characters agrees with the words: if the last one is a
note, it is put on what the text in front of it is read as, and otherwise, or if there are no words,
the text is read as it is. -/
theorem parse_eq_parseBody (table : SymbolTable) (scanned : tokenize text = .ok tokens) :
    (∀ front a p, tokens = front ++ [⟨.note a, p⟩, ⟨.endOfInput, text.length⟩] →
      parse table text = (parseBody table (String.ofList (text.toList.take p))).map (.noted · a)) ∧
    ((∀ front a p, tokens ≠ front ++ [⟨.note a, p⟩, ⟨.endOfInput, text.length⟩]) →
      parse table text = parseBody table text) := by
  obtain ⟨words, cut, rfl⟩ := Scanner.tokens_of_tokenize scanned
  constructor
  · intro front a p eq
    have last : words = front ++ [⟨.note a, p⟩] := by
      refine List.append_cancel_right (eq.trans ?_)
      simp
    exact parse_of_last_note table (cut.trans (congrArg _ last))
  · intro plain
    refine parse_of_no_last_note table cut fun front a p eq => plain front a p ?_
    rw [eq]
    simp

/-- A note with a brace in it behind another one, and a blank text. -/
theorem parse_eq_parseBody_brace :
    let table := (SymbolMap.empty.addLabel (.base "m") "m").table
    let tokens : List Token := [⟨.identifier "m", 0⟩, ⟨.note "a b", 1⟩, ⟨.note "c \x7b d", 7⟩,
      ⟨.endOfInput, 15⟩]
    tokenize "m\x7ba b\x7d \x7bc \x7b d\x7d " = .ok tokens ∧
    parse table "m\x7ba b\x7d \x7bc \x7b d\x7d " =
      (parseBody table (String.ofList ("m\x7ba b\x7d \x7bc \x7b d\x7d ".toList.take 7))).map
        (.noted · "c \x7b d") ∧
    parse table " \t" = parseBody table " \t" := by
  intro table tokens
  have scanned : tokenize "m\x7ba b\x7d \x7bc \x7b d\x7d " = .ok tokens := by
    have words : (Scanner.ofText "m\x7ba b\x7d \x7bc \x7b d\x7d ").tokens = .ok
        [⟨.identifier "m", 0⟩, ⟨.note "a b", 1⟩, ⟨.note "c \x7b d", 7⟩] := by
      refine Scanner.tokens_of_next ⟨_, 1⟩ rfl nofun ?_
      refine Scanner.tokens_of_next ⟨_, 6⟩ rfl nofun ?_
      refine Scanner.tokens_of_next ⟨_, 14⟩ rfl nofun ?_
      exact Scanner.tokens_of_end ⟨[], 15⟩ rfl rfl
    rw [tokenize, words]
    rfl
  have blank : tokenize " \t" = .ok [⟨.endOfInput, 2⟩] := by
    have words : (Scanner.ofText " \t").tokens = .ok [] := Scanner.tokens_of_end ⟨[], 2⟩ rfl rfl
    rw [tokenize, words]
    rfl
  refine ⟨scanned, (parse_eq_parseBody table scanned).1 [_, _] _ _ rfl,
    (parse_eq_parseBody table blank).2 ?_⟩
  intro front a p eq
  have length := congrArg List.length eq
  simp at length

end Expression

end Metrology
