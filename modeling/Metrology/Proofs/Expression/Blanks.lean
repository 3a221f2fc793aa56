import Metrology.Proofs.Expression.TrailingNote

/-!
# Blanks between words

Blanks may be put before, behind and between the words of a text that is read through: it has the
same words again, and is read as the same unit or refused for the same reason. Only what is inside a
word has to stay together. A text with such blanks is looser behind every word, so that each is found
where it was, and the words in front of the note at the end are the same in both texts.
-/
namespace Metrology

open Text (isBlank)

def IsBetween (tokens : List Token) (n : Nat) : Prop :=
  ∀ t ∈ tokens, n ≤ t.position ∨ t.position + t.lexeme.width ≤ n

instance (tokens : List Token) (n : Nat) : Decidable (IsBetween tokens n) :=
  inferInstanceAs (Decidable (∀ t ∈ tokens, n ≤ t.position ∨ t.position + t.lexeme.width ≤ n))

/-- Whether the second text is the first, which starts at the place, with blanks put in at places
that are inside no token. -/
inductive Spaces (tokens : List Token) : Nat → List Char → List Char → Prop
  | nil (n : Nat) : Spaces tokens n [] []
  | char (c : Char) {n : Nat} {l l' : List Char} :
      Spaces tokens (n + 1) l l' → Spaces tokens n (c :: l) (c :: l')
  | blank {c : Char} {n : Nat} {l l' : List Char} :
      isBlank c = true → IsBetween tokens n → Spaces tokens n l l' → Spaces tokens n l (c :: l')

variable {tokens : List Token} {n : Nat} {l l' rest : List Char} {c : Char}

theorem Spaces.loosens (h : Spaces tokens n l l') : Loosens l l' := by
  induction h with
  | nil => exact .cut []
  | char c _ ih => exact .char c ih
  | blank blank _ _ ih => exact .blank blank ih

theorem Spaces.opensParen (h : Spaces tokens n l l') : Lexeme.opensParen l' = Lexeme.opensParen l := by
  induction h with
  | nil => rfl
  | @char c n l l' _ ih =>
    cases blank : isBlank c with
    | true => rw [Lexeme.opensParen_blank blank, Lexeme.opensParen_blank blank, ih]
    | false => rw [Lexeme.opensParen_visible blank, Lexeme.opensParen_visible blank]
  | blank blank _ _ ih => rw [Lexeme.opensParen_blank blank, ih]

/-! ### Where the blanks are -/

theorem Spaces.of_nil (h : Spaces tokens n [] l') : ∀ c ∈ l', isBlank c = true := by
  generalize empty : ([] : List Char) = l at h
  induction h with
  | nil => nofun
  | char => cases empty
  | blank blank _ _ ih => exact List.forall_mem_cons.2 ⟨blank, ih empty⟩

/-- In front of a character there are blanks only where they may be put in. -/
theorem Spaces.of_cons (h : Spaces tokens n (c :: l) l') :
    ∃ blanks r, l' = blanks ++ c :: r ∧ (∀ d ∈ blanks, isBlank d = true) ∧
      (blanks = [] ∨ IsBetween tokens n) ∧ Spaces tokens (n + 1) l r := by
  generalize whole : c :: l = text at h
  induction h with
  | nil => cases whole
  | char d h =>
    cases whole
    exact ⟨[], _, rfl, nofun, Or.inl rfl, h⟩
  | @blank d n _ _ blank between _ ih =>
    obtain ⟨blanks, r, rfl, all, -, behind⟩ := ih whole
    exact ⟨d :: blanks, r, rfl, List.forall_mem_cons.2 ⟨blank, all⟩, Or.inr between, behind⟩

theorem Spaces.of_blanks {blanks : List Char} (blank : ∀ c ∈ blanks, isBlank c = true)
    (h : Spaces tokens n (blanks ++ l) l') :
    ∃ blanks' r, l' = blanks' ++ r ∧ (∀ c ∈ blanks', isBlank c = true) ∧
      Spaces tokens (n + blanks.length) l r := by
  induction blanks generalizing n l' with
  | nil => exact ⟨[], l', rfl, nofun, h⟩
  | cons c blanks ih =>
    obtain ⟨first, others⟩ := List.forall_mem_cons.1 blank
    obtain ⟨before, r, rfl, all, -, behind⟩ := h.of_cons
    obtain ⟨after, r, rfl, all', behind⟩ := ih others behind
    refine ⟨before ++ c :: after, r, by simp, ?_, ?_⟩
    · exact List.forall_mem_append.2 ⟨all, List.forall_mem_cons.2 ⟨first, all'⟩⟩
    · rwa [List.length_cons, Nat.add_comm blanks.length, ← Nat.add_assoc]

/-- What is inside a token stays together. -/
theorem Spaces.of_inside {part : List Char} (inside : ∀ i < part.length, ¬IsBetween tokens (n + i))
    (h : Spaces tokens n (part ++ rest) l') :
    ∃ r, l' = part ++ r ∧ Spaces tokens (n + part.length) rest r := by
  induction part generalizing n l' with
  | nil => exact ⟨l', rfl, h⟩
  | cons c part ih =>
    obtain ⟨blanks, r, rfl, -, none | between, behind⟩ := h.of_cons
    · subst none
      have inside' : ∀ i < part.length, ¬IsBetween tokens (n + 1 + i) := by
        intro i hi
        have next := inside (i + 1) (Nat.succ_lt_succ hi)
        rwa [Nat.add_comm i, ← Nat.add_assoc] at next
      obtain ⟨r, rfl, behind⟩ := ih inside' behind
      refine ⟨r, rfl, ?_⟩
      rwa [List.length_cons, Nat.add_comm part.length, ← Nat.add_assoc]
    · exact absurd between (inside 0 (Nat.zero_lt_succ _))

/-- A word stays together, with blanks in front of it. -/
theorem Spaces.of_word {word : List Char} {x : Lexeme} (some : word ≠ []) (member : ⟨x, n⟩ ∈ tokens)
    (length : word.length = x.width) (h : Spaces tokens n (word ++ rest) l') :
    ∃ blanks r, l' = blanks ++ (word ++ r) ∧ (∀ c ∈ blanks, isBlank c = true) ∧
      Spaces tokens (n + word.length) rest r := by
  obtain ⟨c, part, rfl⟩ := List.exists_cons_of_ne_nil some
  obtain ⟨blanks, r, rfl, all, -, behind⟩ := h.of_cons
  have inside : ∀ i < part.length, ¬IsBetween tokens (n + 1 + i) := by
    intro i hi between
    have outside : n + 1 + i ≤ n ∨ n + x.width ≤ n + 1 + i := between _ member
    rw [← length, List.length_cons] at outside
    omega
  obtain ⟨r, rfl, behind⟩ := behind.of_inside inside
  refine ⟨blanks, r, rfl, all, ?_⟩
  rwa [List.length_cons, Nat.add_comm part.length, ← Nat.add_assoc]

/-! ### The same words -/

/-- Blanks between the tokens do not change the words. -/
theorem exists_tokens_of_spaces {words : List Token} (members : ∀ t ∈ words, t ∈ tokens)
    (scanned : (Scanner.mk l n).tokens = .ok words) (spaced : Spaces tokens n l l') (n' : Nat) :
    ∃ words', (Scanner.mk l' n').tokens = .ok words' ∧
      words'.map Token.lexeme = words.map Token.lexeme := by
  refine Scanner.tokens_induction_words (P := fun l n words => (∀ t ∈ words, t ∈ tokens) →
    ∀ l' n', Spaces tokens n l l' → ∃ words', (Scanner.mk l' n').tokens = .ok words' ∧
      words'.map Token.lexeme = words.map Token.lexeme) ?_ ?_ scanned members l' n' spaced
  · intro l n blank _ l' n' spaced
    rw [← List.append_nil l] at spaced
    obtain ⟨blanks, r, rfl, all, behind⟩ := spaced.of_blanks blank
    have blank' := List.forall_mem_append.2 ⟨all, behind.of_nil⟩
    exact ⟨[], Scanner.tokens_of_blank n' blank', rfl⟩
  · intro x blanks word rest words n blank isWord _ ih members l' n' spaced
    obtain ⟨first, others⟩ := List.forall_mem_cons.1 members
    obtain ⟨before, r, rfl, all, behind⟩ := spaced.of_blanks blank
    obtain ⟨more, r, rfl, all', behind⟩ :=
      behind.of_word isWord.nonempty first isWord.length_notEnd.1
    obtain ⟨words', scanned, same⟩ := ih others r _ behind
    have word' := isWord.loosens behind.loosens behind.opensParen
    have tokens' := Scanner.tokens_of_word n' (List.forall_mem_append.2 ⟨all, all'⟩) word' scanned
    rw [List.append_assoc] at tokens'
    exact ⟨_, tokens', by rw [List.map_cons, List.map_cons, same]⟩

/-! ### The same outcome -/

/-- The error without the place where it is. -/
def Error.unplaced : Error → Error
  | .malformed _ fault => .malformed 0 fault
  | .unknownUnit symbol _ => .unknownUnit symbol 0
  | e => e

namespace Expression

variable {table : SymbolTable} {text text' : String}

/-- The same words at any places. -/
def respaced : Latitude := ⟨fun _ _ => True, False, False⟩

theorem respaced_of_lexemes {words words' : List Token}
    (same : words'.map Token.lexeme = words.map Token.lexeme) : respaced.Alike words words' := by
  induction words generalizing words' with
  | nil =>
    cases List.map_eq_nil_iff.1 same
    exact .nil
  | cons t words ih =>
    cases words' with
    | nil => cases same
    | cons t' words' =>
      obtain ⟨x, p⟩ := t
      obtain ⟨x', p'⟩ := t'
      obtain ⟨rfl, others⟩ := List.cons.inj same
      exact .same x' trivial (ih others)

theorem unplaced_of_respaced {e e' : Error} (h : respaced.Errors e e') : e'.unplaced = e.unplaced := by
  cases h with
  | refl => rfl
  | malformed _ same => rw [Error.unplaced, Error.unplaced, same.resolve_right id]
  | unknownUnit => rfl

/-- Whether two readings come to the same unit, or to errors that differ in their places alone. -/
def SameOutcome (r r' : Except Error MeasureUnit) : Prop :=
  (∃ u, r = .ok u ∧ r' = .ok u) ∨ ∃ e e', r = .error e ∧ r' = .error e' ∧ e'.unplaced = e.unplaced

theorem SameOutcome.map {r r' : Except Error MeasureUnit} (h : SameOutcome r r')
    (f : MeasureUnit → MeasureUnit) : SameOutcome (r.map f) (r'.map f) := by
  rcases h with ⟨u, rfl, rfl⟩ | ⟨e, e', rfl, rfl, same⟩
  · exact Or.inl ⟨f u, rfl, rfl⟩
  · exact Or.inr ⟨e, e', rfl, rfl, same⟩

theorem parseBody_of_lexemes {words words' : List Token}
    (scanned : (Scanner.ofText text).tokens = .ok words)
    (scanned' : (Scanner.ofText text').tokens = .ok words')
    (same : words'.map Token.lexeme = words.map Token.lexeme) :
    SameOutcome (parseBody table text) (parseBody table text') := by
  have matched : respaced.Matches ⟨words, text.length, 0⟩ ⟨words', text'.length, 0⟩ :=
    ⟨respaced_of_lexemes same, trivial⟩
  have outcome := Latitude.outcome_readExpression table matched (Or.inl rfl)
  rw [parseBody_eq scanned, parseBody_eq scanned', Cursor.read, Cursor.read]
  generalize readExpression table ⟨words, text.length, 0⟩ = read at outcome
  generalize readExpression table ⟨words', text'.length, 0⟩ = read' at outcome
  cases outcome with
  | ok u => exact Or.inl ⟨u, rfl, rfl⟩
  | error errors => exact Or.inr ⟨_, _, rfl, rfl, unplaced_of_respaced errors⟩
  | excused excused => exact excused.elim

/-- Texts with the same words come to the same, the note at their end included. -/
theorem parse_of_lexemes {words words' : List Token}
    (scanned : (Scanner.ofText text).tokens = .ok words)
    (scanned' : (Scanner.ofText text').tokens = .ok words')
    (same : words'.map Token.lexeme = words.map Token.lexeme) :
    SameOutcome (parse table text) (parse table text') := by
  by_cases noted : ∃ front a p, words = front ++ [⟨.note a, p⟩]
  · obtain ⟨front, a, p, rfl⟩ := noted
    rw [List.map_append] at same
    obtain ⟨front', back', rfl, before, last⟩ := List.map_eq_append_iff.1 same
    obtain ⟨⟨x, p'⟩, rfl, rfl⟩ := List.map_eq_singleton_iff.1 last
    rw [parse_of_last_note table scanned, parse_of_last_note table scanned']
    exact (parseBody_of_lexemes (tokens_take_of_last_note scanned) (tokens_take_of_last_note scanned')
      before).map _
  · have plain (front : List Token) (a : String) (p : Nat) : words ≠ front ++ [⟨.note a, p⟩] :=
      fun eq => noted ⟨front, a, p, eq⟩
    have plain' (front : List Token) (a : String) (p : Nat) : words' ≠ front ++ [⟨.note a, p⟩] := by
      rintro rfl
      rw [List.map_append] at same
      obtain ⟨front', back', rfl, -, last⟩ := List.map_eq_append_iff.1 same.symm
      obtain ⟨⟨x, p'⟩, rfl, rfl⟩ := List.map_eq_singleton_iff.1 last
      exact plain front' a p' rfl
    rw [parse_of_no_last_note table scanned plain, parse_of_no_last_note table scanned' plain']
    exact parseBody_of_lexemes scanned scanned' same

/-- With blanks put in before, behind and between its tokens, a text that is read through has tokens
with the same words, and is read as the same unit or refused with the same error at some place. -/
theorem parse_of_spaces (table : SymbolTable) (scanned : tokenize text = .ok tokens)
    (spaced : Spaces tokens 0 text.toList text'.toList) :
    (∃ tokens', tokenize text' = .ok tokens' ∧
      tokens'.map Token.lexeme = tokens.map Token.lexeme) ∧
    SameOutcome (parse table text) (parse table text') := by
  obtain ⟨words, cut, rfl⟩ := Scanner.tokens_of_tokenize scanned
  obtain ⟨words', cut', same⟩ := exists_tokens_of_spaces
    (fun t ht => List.mem_append_left _ ht) cut spaced 0
  refine ⟨⟨words' ++ [⟨.endOfInput, text'.length⟩], ?_, ?_⟩, parse_of_lexemes cut cut' same⟩
  · rw [tokenize, show (Scanner.ofText text').tokens = .ok words' from cut']
    rfl
  · rw [List.map_append, List.map_append, same]
    rfl

/-- Blanks around a logarithm, behind a literal that a name follows, and around a note. -/
theorem parse_of_spaces_logarithm :
    let table := (SymbolMap.empty.addLabel (.base "m") "em").table
    let tokens : List Token := [⟨.logarithm (.decimal []), 0⟩, ⟨.openParen, 3⟩,
      ⟨.number ⟨['2'], [], none⟩, 4⟩, ⟨.identifier "em", 5⟩, ⟨.closeParen, 7⟩, ⟨.note " ", 8⟩,
      ⟨.endOfInput, 11⟩]
    tokenize "log(2em)\x7b \x7d" = .ok tokens ∧
    Spaces tokens 0 "log(2em)\x7b \x7d".toList "log\t( 2 em)\u00a0\x7b \x7d ".toList ∧
    (∃ tokens', tokenize "log\t( 2 em)\u00a0\x7b \x7d " = .ok tokens' ∧
      tokens'.map Token.lexeme = tokens.map Token.lexeme) ∧
    SameOutcome (parse table "log(2em)\x7b \x7d") (parse table "log\t( 2 em)\u00a0\x7b \x7d ") := by
  intro table tokens
  have scanned : tokenize "log(2em)\x7b \x7d" = .ok tokens := by
    have words : (Scanner.ofText "log(2em)\x7b \x7d").tokens = .ok [⟨.logarithm (.decimal []), 0⟩,
        ⟨.openParen, 3⟩, ⟨.number ⟨['2'], [], none⟩, 4⟩, ⟨.identifier "em", 5⟩, ⟨.closeParen, 7⟩,
        ⟨.note " ", 8⟩] := by
      refine Scanner.tokens_of_next ⟨_, 3⟩ rfl nofun ?_
      refine Scanner.tokens_of_next ⟨_, 4⟩ rfl nofun ?_
      refine Scanner.tokens_of_next ⟨_, 5⟩ rfl nofun ?_
      refine Scanner.tokens_of_next ⟨_, 7⟩ rfl nofun ?_
      refine Scanner.tokens_of_next ⟨_, 8⟩ rfl nofun ?_
      refine Scanner.tokens_of_next ⟨_, 11⟩ rfl nofun ?_
      exact Scanner.tokens_of_end ⟨[], 11⟩ rfl rfl
    rw [tokenize, words]
    rfl
  have spaced : Spaces tokens 0 ['l', 'o', 'g', '(', '2', 'e', 'm', ')', '\x7b', ' ', '\x7d']
      ['l', 'o', 'g', '\t', '(', ' ', '2', ' ', 'e', 'm', ')', '\u00a0', '\x7b', ' ', '\x7d', ' '] := by
    refine .char _ (.char _ (.char _ (.blank (by decide) (by decide) (.char _ ?_))))
    refine .blank (by decide) (by decide) (.char _ (.blank (by decide) (by decide) (.char _ ?_)))
    refine .char _ (.char _ (.blank (by decide) (by decide) (.char _ (.char _ (.char _ ?_)))))
    exact .blank (by decide) (by decide) (.nil 11)
  exact ⟨scanned, spaced, parse_of_spaces table scanned spaced⟩

end Expression

end Metrology
