import Metrology.Expression.Format
import Metrology.Proofs.Expression.Meaning
import Metrology.Proofs.Token.Spelling

/-!
# Derivations as texts

The words of a derivation never run into one another, so that their spelling is read as the
meaning of the derivation. How deep it nests can be seen from the parentheses in the text.
-/
namespace Metrology

/-! ### The nesting of a text -/

section Texts

open Lexeme

/-- The most parentheses that are open at once in a text, if `level` of them are in front of
it. What stands in braces, as it does in front of the text if it is `noted`, does not count. -/
def nesting (level : Nat) (noted : Bool) : List Char → Nat
  | [] => level
  | c :: rest =>
    if noted then nesting level (c != '\x7d') rest
    else if c = '(' then max level (nesting (level + 1) false rest)
    else if c = ')' then max level (nesting (level - 1) false rest)
    else nesting level (c == '\x7b') rest

/-- The most parentheses that are open at once in a list of words. -/
def wordNesting (level : Nat) : List Lexeme → Nat
  | [] => level
  | .openParen :: l => max level (wordNesting (level + 1) l)
  | .closeParen :: l => max level (wordNesting (level - 1) l)
  | _ :: l => wordNesting level l

/-- Whether the character says nothing about nesting. -/
def isLevel (c : Char) : Bool := c != '(' && c != ')' && c != '\x7b'

/-- Characters that say nothing about nesting can be left out. -/
theorem nesting_append {l rest : List Char} (level : Nat) (h : ∀ c ∈ l, isLevel c = true) :
    nesting level false (l ++ rest) = nesting level false rest := by
  induction l with
  | nil => rfl
  | cons c l ih =>
    have plain := h c (by simp)
    simp only [isLevel, Bool.and_eq_true, bne_iff_ne] at plain
    rw [List.cons_append, nesting, if_neg nofun, if_neg plain.1.1, if_neg plain.1.2,
      beq_eq_false_iff_ne.2 plain.2]
    exact ih fun d hd => h d (by simp [hd])

/-- What stands in braces does not count, up to the closing one. -/
theorem nesting_noted {l rest : List Char} (level : Nat) (h : '\x7d' ∉ l) :
    nesting level true (l ++ '\x7d' :: rest) = nesting level false rest := by
  induction l with
  | nil => rfl
  | cons c l ih =>
    simp only [List.mem_cons, not_or] at h
    rw [List.cons_append, nesting, if_pos rfl, bne_iff_ne.2 (Ne.symm h.1)]
    exact ih h.2

theorem isLevel_of_continues {c : Char} (h : continuesIdentifier c = true) : isLevel c = true := by
  simp only [isLevel, Bool.and_eq_true, bne_iff_ne]
  refine ⟨⟨?_, ?_⟩, ?_⟩ <;> rintro rfl <;> exact absurd h (by decide)

theorem isLevel_of_isSuperscript {c : Char} (h : isSuperscript c = true) : isLevel c = true := by
  unfold isSuperscript Text.ofSuperscript? at h
  split at h <;> first | decide | cases h

/-- In words that are neither notes nor parentheses nothing opens or closes. -/
theorem isLevel_of_mem_spelling {x : Lexeme} (spelled : x.IsSpelled) (plain : ∀ s, x ≠ note s)
    (ne_open : x ≠ openParen) (ne_close : x ≠ closeParen) : ∀ c ∈ x.spelling, isLevel c = true := by
  intro c hc
  rcases mem_spelling spelled plain hc with continues | rfl | superscript | sign
  · exact isLevel_of_continues continues
  · decide
  · exact isLevel_of_isSuperscript superscript
  · simp only [isLevel, Bool.and_eq_true, bne_iff_ne]
    refine ⟨⟨?_, ?_⟩, (ne_brace_of_isInk (isInk_of_ofChar? sign)).1⟩
    · rintro rfl
      exact ne_open (Option.some.inj sign).symm
    · rintro rfl
      exact ne_close (Option.some.inj sign).symm

/-- The nesting of a text is that of its words. -/
theorem nesting_spelling {l : List Lexeme} (level : Nat) (spelled : ∀ x ∈ l, x.IsSpelled) :
    nesting level false (l.flatMap spelling) = wordNesting level l := by
  induction l generalizing level with
  | nil => rfl
  | cons x l ih =>
    have head := spelled x (by simp)
    have others : ∀ y ∈ l, y.IsSpelled := fun y hy => spelled y (by simp [hy])
    have rest (level : Nat) := ih level others
    cases x with
    | openParen =>
      change max level (nesting (level + 1) false (l.flatMap spelling)) = _
      rw [rest, wordNesting]
    | closeParen =>
      change max level (nesting (level - 1) false (l.flatMap spelling)) = _
      rw [rest, wordNesting]
    | note text =>
      rw [List.flatMap_cons, spelling, List.cons_append, List.append_assoc]
      exact (nesting_noted level head).trans (rest level)
    | _ =>
      have plain := isLevel_of_mem_spelling head (by simp) (by simp) (by simp)
      exact (nesting_append level plain).trans (rest level)

end Texts

namespace Expression

open Lexeme (AreApart Spells)

/-! ### The nesting of a derivation -/

/-- The nesting is no less than in front of the words. -/
theorem le_wordNesting (level : Nat) (l : List Lexeme) : level ≤ wordNesting level l := by
  induction l with
  | nil => exact Nat.le_refl level
  | cons x l ih =>
    cases x with
    | openParen | closeParen => exact Nat.le_max_left _ _
    | _ => exact ih

theorem wordNesting_signed (level : Nat) (n : SignedNumber) (rest : List Lexeme) :
    wordNesting level (n.lexemes ++ rest) = wordNesting level rest := by
  obtain ⟨sign, literal⟩ := n
  rcases sign with - | - | - <;> rfl

theorem wordNesting_note (level : Nat) (note : Option String) (rest : List Lexeme) :
    wordNesting level (noteLexemes note ++ rest) = wordNesting level rest := by
  cases note <;> rfl

/-- The parentheses of an exponent can only add to the nesting. -/
theorem wordNesting_suffix (level : Nat) (suffix : Suffix) (rest : List Lexeme) :
    wordNesting level rest ≤ wordNesting level (suffix.lexemes ++ rest) := by
  cases suffix with
  | plain n => exact Nat.le_of_eq (wordNesting_signed level n.toSignedNumber rest).symm
  | superscript digits => exact Nat.le_refl _
  | quotient p q =>
    have closed : wordNesting level rest ≤ wordNesting (level + 1) (.closeParen :: rest) :=
      Nat.le_max_right _ _
    cases q with
    | none =>
      simp only [Suffix.lexemes, List.cons_append, List.append_assoc, wordNesting,
        wordNesting_signed, List.nil_append] at closed ⊢
      omega
    | some q =>
      simp only [Suffix.lexemes, List.cons_append, List.append_assoc, wordNesting,
        wordNesting_signed, List.nil_append] at closed ⊢
      omega

theorem wordNesting_operator (level : Nat) (op : Operator) (rest : List Lexeme) :
    wordNesting level (op.lexeme :: rest) = wordNesting level rest := by
  rcases op with (- | -) | - <;> rfl

theorem wordNesting_sign (level : Nat) (s : Sign) (rest : List Lexeme) :
    wordNesting level (s.lexeme :: rest) = wordNesting level rest := by
  cases s <;> rfl

theorem wordNesting_leading (level : Nat) (leading : Option (SignedNumber × Sign))
    (rest : List Lexeme) :
    wordNesting level (leadingLexemes leading ++ rest) = wordNesting level rest := by
  cases leading with
  | none => rfl
  | some leading =>
    simp only [leadingLexemes, List.append_assoc, wordNesting_signed]
    exact wordNesting_sign level leading.2 rest

theorem wordNesting_trailing (level : Nat) (trailing : Option (Sign × SignedNumber))
    (rest : List Lexeme) :
    wordNesting level (trailingLexemes trailing ++ rest) = wordNesting level rest := by
  cases trailing with
  | none => rfl
  | some trailing =>
    simp only [trailingLexemes, List.cons_append, wordNesting_sign, wordNesting_signed]

/-- A derivation nests as deep as its text, and what follows it is on the same level. -/
theorem Tree.depth_le_wordNesting : {p : Precedence} → (t : Tree p) → (level : Nat) →
    (rest : List Lexeme) →
    level + t.depth ≤ wordNesting level (t.lexemes ++ rest) ∧
      wordNesting level rest ≤ wordNesting level (t.lexemes ++ rest)
  | _, .number n note, level, rest => by
    simp only [lexemes, depth, List.append_assoc, wordNesting_signed, wordNesting_note]
    exact ⟨le_wordNesting level rest, Nat.le_refl _⟩
  | _, .symbol name note, level, rest => by
    simp only [lexemes, depth, List.cons_append, wordNesting, wordNesting_note]
    exact ⟨le_wordNesting level rest, Nat.le_refl _⟩
  | _, .bareNote text, level, rest => ⟨le_wordNesting level rest, Nat.le_refl _⟩
  | _, .enclosed inner note, level, rest => by
    have inside := inner.depth_le_wordNesting (level + 1) (.closeParen :: (noteLexemes note ++ rest))
    simp only [lexemes, depth, List.cons_append, List.append_assoc, wordNesting, wordNesting_note,
      Nat.add_sub_cancel] at inside ⊢
    omega
  | _, .logarithm base inner, level, rest => by
    have inside := inner.depth_le_wordNesting (level + 1) (.closeParen :: rest)
    simp only [lexemes, depth, List.cons_append, List.append_assoc, wordNesting, List.nil_append,
      Nat.add_sub_cancel] at inside ⊢
    omega
  | _, .exponential base operand, level, rest => by
    have inside := operand.depth_le_wordNesting level rest
    simp only [lexemes, depth, List.cons_append]
    cases base <;> simpa only [Base.lexeme, wordNesting] using inside
  | _, .power operand none, level, rest => by
    have inside := operand.depth_le_wordNesting level rest
    simpa only [lexemes, depth, Option.map_none, Option.getD_none, List.append_nil] using inside
  | _, .power operand (some suffix), level, rest => by
    have inside := operand.depth_le_wordNesting level (suffix.lexemes ++ rest)
    have behind := wordNesting_suffix level suffix rest
    simp only [lexemes, depth, Option.map_some, Option.getD_some, List.append_assoc]
    exact ⟨inside.1, Nat.le_trans behind inside.2⟩
  | _, .single factor, level, rest => factor.depth_le_wordNesting level rest
  | _, .chain left op right, level, rest => by
    have front := left.depth_le_wordNesting level (op.lexeme :: (right.lexemes ++ rest))
    have back := right.depth_le_wordNesting level rest
    simp only [lexemes, depth, List.append_assoc, List.cons_append, wordNesting_operator] at front ⊢
    omega
  | _, .sum leading product trailing, level, rest => by
    have inside := product.depth_le_wordNesting level (trailingLexemes trailing ++ rest)
    rw [wordNesting_trailing] at inside
    simpa only [lexemes, depth, List.append_assoc, wordNesting_leading] using inside

/-! ### The words of a derivation stay apart -/

/-- A word after which anything may stand. -/
def IsSeparator (x : Lexeme) : Prop := ∀ next, x.canPrecede next = true

theorem isSeparator_sign (s : Sign) : IsSeparator s.lexeme := by
  intro next
  cases s <;> rfl

theorem isSeparator_operator (op : Operator) : IsSeparator op.lexeme := by
  intro next
  rcases op with (- | -) | - <;> rfl

/-- Whether what stands behind a derivation cannot be taken for more of its last word. Only an
operand ends with a word that a superscript may follow. -/
def Borders (p : Precedence) (next : Option Lexeme) : Prop :=
  ∀ x ∈ next, x.isAlphanumeric = false ∧ ∀ digits, x = .superscript digits → p = .atom

theorem borders_none (p : Precedence) : Borders p none := nofun

/-- Behind any word but a number, a name or a superscript nothing is taken for more of it. -/
theorem borders_some {p : Precedence} {x : Lexeme} (word : x.isAlphanumeric = false)
    (plain : ∀ digits, x ≠ .superscript digits) : Borders p (some x) := by
  intro y hy
  cases hy
  exact ⟨word, fun digits eq => absurd eq (plain digits)⟩

theorem borders_sign (p : Precedence) (s : Sign) : Borders p (some s.lexeme) := by
  cases s <;> exact borders_some rfl nofun

theorem borders_operator (p : Precedence) (op : Operator) : Borders p (some op.lexeme) := by
  rcases op with (- | -) | - <;> exact borders_some rfl nofun

theorem Borders.of_ne {p : Precedence} (q : Precedence) {next : Option Lexeme} (h : Borders p next)
    (ne : p ≠ .atom) : Borders q next :=
  fun x hx => ⟨(h x hx).1, fun digits eq => absurd ((h x hx).2 digits eq) ne⟩

theorem Borders.canPrecede {p : Precedence} {next : Option Lexeme} (h : Borders p next) {x : Lexeme}
    (word : (∃ literal, x = .number literal) ∨ ∃ name, x = .identifier name) :
    x.canPrecede next = true := by
  cases next with
  | none => rcases word with ⟨literal, rfl⟩ | ⟨name, rfl⟩ <;> rfl
  | some y =>
    have stop := (h y rfl).1
    rcases word with ⟨literal, rfl⟩ | ⟨name, rfl⟩ <;> simpa [Lexeme.canPrecede] using stop

/-- The words of a number stay apart, and apart from what follows. -/
theorem areApart_signed {n : SignedNumber} {p : Precedence} {rest : List Lexeme}
    (apart : AreApart rest) (borders : Borders p rest.head?) : AreApart (n.lexemes ++ rest) := by
  obtain ⟨sign, literal⟩ := n
  have number : AreApart (Lexeme.number literal :: rest) :=
    ⟨borders.canPrecede (Or.inl ⟨literal, rfl⟩), apart⟩
  rcases sign with - | sign
  · exact number
  · exact ⟨isSeparator_sign sign _, number⟩

theorem areApart_note (note : Option String) {p : Precedence} {rest : List Lexeme}
    (apart : AreApart rest) (borders : Borders p rest.head?) :
    AreApart (noteLexemes note ++ rest) ∧ Borders p (noteLexemes note ++ rest).head? := by
  cases note with
  | none => exact ⟨apart, borders⟩
  | some text => exact ⟨⟨rfl, apart⟩, borders_some rfl nofun⟩

/-- The words of an exponent stay apart, and an operand may stand in front of them. -/
theorem areApart_suffix (suffix : Suffix) {rest : List Lexeme} (apart : AreApart rest)
    (borders : Borders .exponent rest.head?) :
    AreApart (suffix.lexemes ++ rest) ∧ Borders .atom (suffix.lexemes ++ rest).head? := by
  cases suffix with
  | plain n => exact ⟨⟨rfl, areApart_signed apart borders⟩, borders_some rfl nofun⟩
  | superscript digits =>
    refine ⟨⟨?_, apart⟩, ?_⟩
    · change Lexeme.canPrecede _ rest.head? = true
      cases next : rest.head? with
      | none => rfl
      | some x =>
        cases x <;> first | rfl | cases (borders _ next).2 _ rfl
    · intro x hx
      cases hx
      exact ⟨rfl, fun _ _ => rfl⟩
  | quotient p q =>
    have closed : AreApart (.closeParen :: rest) := ⟨rfl, apart⟩
    have borders : Borders .exponent (some .closeParen) := borders_some rfl nofun
    cases q with
    | none =>
      have power := areApart_signed (n := p.toSignedNumber) closed borders
      refine ⟨?_, borders_some rfl nofun⟩
      simp only [Suffix.lexemes, List.cons_append, List.append_assoc]
      exact ⟨rfl, rfl, power⟩
    | some q =>
      have denominator := areApart_signed (n := q.toSignedNumber) closed borders
      have power : AreApart (p.lexemes ++ .solidus :: (q.lexemes ++ .closeParen :: rest)) :=
        areApart_signed (p := .exponent) ⟨rfl, denominator⟩ (borders_some rfl nofun)
      refine ⟨?_, borders_some rfl nofun⟩
      simp only [Suffix.lexemes, List.cons_append, List.append_assoc]
      exact ⟨rfl, rfl, power⟩

/-- The words of a derivation stay apart, and from what follows. -/
theorem Tree.areApart : {p : Precedence} → (t : Tree p) → (rest : List Lexeme) → AreApart rest →
    Borders p rest.head? → AreApart (t.lexemes ++ rest)
  | _, .number n text, rest, apart, borders => by
    obtain ⟨apart, borders⟩ := areApart_note text apart borders
    simp only [lexemes, List.append_assoc]
    exact areApart_signed apart borders
  | _, .symbol name text, rest, apart, borders => by
    obtain ⟨apart, borders⟩ := areApart_note text apart borders
    exact ⟨borders.canPrecede (Or.inr ⟨name, rfl⟩), apart⟩
  | _, .bareNote text, rest, apart, borders => ⟨rfl, apart⟩
  | _, .enclosed inner text, rest, apart, borders => by
    obtain ⟨apart, -⟩ := areApart_note text apart borders
    have inside := inner.areApart (.closeParen :: (noteLexemes text ++ rest)) ⟨rfl, apart⟩
      (borders_some rfl (by simp))
    simp only [lexemes, List.cons_append, List.append_assoc]
    exact ⟨rfl, inside⟩
  | _, .logarithm base inner, rest, apart, borders => by
    have inside := inner.areApart (.closeParen :: rest) ⟨rfl, apart⟩ (borders_some rfl (by simp))
    simp only [lexemes, List.cons_append, List.append_assoc]
    exact ⟨rfl, rfl, inside⟩
  | _, .exponential base operand, rest, apart, borders => by
    have inside := operand.areApart rest apart (borders.of_ne _ (by simp))
    cases base <;> exact ⟨rfl, rfl, inside⟩
  | _, .power operand none, rest, apart, borders => by
    simp only [lexemes, Option.map_none, Option.getD_none, List.append_nil]
    exact operand.areApart rest apart (borders.of_ne _ (by simp))
  | _, .power operand (some suffix), rest, apart, borders => by
    obtain ⟨apart, borders⟩ := areApart_suffix suffix apart borders
    simp only [lexemes, Option.map_some, Option.getD_some, List.append_assoc]
    exact operand.areApart _ apart borders
  | _, .single factor, rest, apart, borders => factor.areApart rest apart (borders.of_ne _ (by simp))
  | _, .chain left op right, rest, apart, borders => by
    have back := right.areApart rest apart (borders.of_ne _ (by simp))
    simp only [lexemes, List.append_assoc, List.cons_append]
    exact left.areApart _ ⟨isSeparator_operator op _, back⟩ (borders_operator _ op)
  | _, .sum leading product trailing, rest, apart, borders => by
    have back : AreApart (product.lexemes ++ (trailingLexemes trailing ++ rest)) := by
      rcases trailing with - | ⟨sign, n⟩
      · exact product.areApart rest apart (borders.of_ne _ (by simp))
      · have offset := areApart_signed (n := n) apart borders
        exact product.areApart _ ⟨isSeparator_sign sign _, offset⟩ (borders_sign _ sign)
    simp only [lexemes, List.append_assoc]
    rcases leading with - | ⟨n, sign⟩
    · exact back
    · simp only [leadingLexemes, List.append_assoc, List.cons_append, List.nil_append]
      exact areApart_signed (p := .atom) ⟨isSeparator_sign sign _, back⟩ (borders_sign _ sign)

/-! ### Reading the spelling of a derivation -/

/-- The spelling of a derivation is read as its meaning, if it nests no deeper than expressions
may. -/
theorem parseBody_of_spells {table : SymbolTable} {t : Tree .addition} {u : MeasureUnit}
    {text : String} (spells : Spells t.lexemes text.toList) (preferred : t.IsPreferred)
    (eval : t.eval table = some u) (shallow : nesting 0 false text.toList < maxDepth) :
    parseBody table text = .ok u := by
  have apart : AreApart t.lexemes := by
    have words := t.areApart [] trivial (borders_none _)
    rwa [List.append_nil] at words
  obtain ⟨tokens, scanned, words⟩ := Lexeme.exists_tokens_of_spells spells apart 0
  have more : tokens ≠ [] := by
    rintro rfl
    exact t.lexemes_ne_nil words.symm
  have deep := t.depth_le_wordNesting 0 []
  rw [List.append_nil, ← nesting_spelling 0 spells.1, spells.2] at deep
  have whole : (⟨t, []⟩ : Compound).lexemes = tokens.map Token.lexeme := by
    rw [words, Compound.lexemes, List.flatMap_nil, List.append_nil]
  refine parseBody_of_derivation (t := ⟨t, []⟩) scanned more whole ⟨preferred, by simp⟩ ?_ ?_
  · rw [Compound.eval, eval]
    rfl
  · rintro (deeper | ⟨component, member, -⟩)
    · simp only at deeper
      omega
    · cases member

end Expression

end Metrology
