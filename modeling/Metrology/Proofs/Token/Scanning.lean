import Metrology.Token.Scanner

/-!
# Scanning a text token by token

The tokens of a text are the next token and the tokens after it, up to the end token, which
is not among them.
-/
namespace Metrology.Scanner

theorem tokens_eq_map {s : Scanner} (after : Scanner) {t : Token} (h : s.next = (.ok t, after))
    (notEnd : t.lexeme ≠ .endOfInput) : s.tokens = after.tokens.map fun tokens => t :: tokens := by
  rw [Scanner.tokens]
  split
  · rename_i eq
    rw [h] at eq
    cases eq
  · rename_i eq
    rw [h] at eq
    cases eq
    rw [dif_neg notEnd]
    cases after.tokens <;> rfl

theorem tokens_of_next {s : Scanner} (after : Scanner) {t : Token} {tokens : List Token}
    (h : s.next = (.ok t, after)) (notEnd : t.lexeme ≠ .endOfInput)
    (rest : after.tokens = .ok tokens) : s.tokens = .ok (t :: tokens) := by
  rw [tokens_eq_map after h notEnd, rest]
  rfl

theorem tokens_of_error {s : Scanner} (after : Scanner) {e : Error}
    (h : s.next = (.error e, after)) : s.tokens = .error e := by
  rw [Scanner.tokens]
  split
  · rename_i eq
    rw [h] at eq
    cases eq
    rfl
  · rename_i eq
    rw [h] at eq
    cases eq

theorem tokens_of_end {s : Scanner} (after : Scanner) {t : Token} (h : s.next = (.ok t, after))
    (ended : t.lexeme = .endOfInput) : s.tokens = .ok [] := by
  rw [Scanner.tokens]
  split
  · rename_i eq
    rw [h] at eq
    cases eq
  · rename_i eq
    rw [h] at eq
    cases eq
    rw [dif_pos ended]

/-! ### The next word -/

/-- The next token is scanned behind the blanks, and placed there. -/
theorem next_of_scan {s : Scanner} {x : Lexeme} {rest : List Char}
    (h : Lexeme.scan s.skipBlanks.rest = .ok (x, rest)) :
    s.next = (.ok ⟨x, s.skipBlanks.position⟩, ⟨rest, s.skipBlanks.position + x.width⟩) := by
  rw [next]
  simp only [h]

/-- A step that yields a token has scanned a word behind the blanks. -/
theorem next_eq_ok {s after : Scanner} {t : Token} (h : s.next = (.ok t, after)) :
    ∃ x rest, Lexeme.scan s.skipBlanks.rest = .ok (x, rest) ∧ t = ⟨x, s.skipBlanks.position⟩ ∧
      after = ⟨rest, s.skipBlanks.position + x.width⟩ := by
  unfold next at h
  simp only at h
  split at h
  · rename_i x rest scanned
    cases h
    exact ⟨x, rest, scanned, rfl, rfl⟩
  · cases h
  · cases h

theorem tokens_of_scan {s : Scanner} {x : Lexeme} {rest : List Char}
    (h : Lexeme.scan s.skipBlanks.rest = .ok (x, rest)) (notEnd : x ≠ .endOfInput) :
    ∃ p q, s.tokens = (Scanner.mk rest q).tokens.map fun tokens => ⟨x, p⟩ :: tokens :=
  ⟨_, _, tokens_eq_map _ (next_of_scan h) notEnd⟩

theorem tokens_of_scan_end {s : Scanner} {rest : List Char}
    (h : Lexeme.scan s.skipBlanks.rest = .ok (.endOfInput, rest)) : s.tokens = .ok [] :=
  tokens_of_end _ (next_of_scan h) rfl

theorem tokens_of_scan_error {s : Scanner} {fault : Fault}
    (h : Lexeme.scan s.skipBlanks.rest = .error fault) : ∃ e, s.tokens = .error e := by
  have failed : ∃ e after, s.next = (.error e, after) := by
    rw [next]
    simp only [h]
    split
    · rename_i eq
      cases eq
    · exact ⟨_, _, rfl⟩
    · exact ⟨_, _, rfl⟩
  obtain ⟨e, after, failed⟩ := failed
  exact ⟨e, tokens_of_error after failed⟩

/-- What holds of the empty list at the end of the text, and of a list with a token in front
once it holds of the rest, holds of the tokens of every text that is read through. -/
theorem tokens_induction {P : Scanner → List Token → Prop}
    (ended : ∀ {s after t}, s.next = (.ok t, after) → t.lexeme = .endOfInput → P s [])
    (step : ∀ {s after t tokens}, s.next = (.ok t, after) → t.lexeme ≠ .endOfInput →
      P after tokens → P s (t :: tokens))
    {s : Scanner} {tokens : List Token} (h : s.tokens = .ok tokens) : P s tokens := by
  induction length : s.rest.length using Nat.strongRecOn generalizing s tokens with
  | ind n ih =>
    subst length
    rw [Scanner.tokens] at h
    split at h
    · cases h
    · rename_i token after next
      split at h
      · rename_i atEnd
        cases h
        exact ended next atEnd
      · rename_i notEnd
        cases rest : after.tokens with
        | error e =>
          rw [rest] at h
          cases h
        | ok others =>
          rw [rest] at h
          cases h
          exact step next notEnd (ih _ (length_lt_of_next next notEnd) rest rfl)

/-- The end token is not among the tokens of a text. -/
theorem lexeme_ne_endOfInput {s : Scanner} {tokens : List Token}
    (h : s.tokens = .ok tokens) : ∀ t ∈ tokens, t.lexeme ≠ .endOfInput := by
  refine tokens_induction (P := fun _ tokens => ∀ t ∈ tokens, t.lexeme ≠ .endOfInput) ?_ ?_ h
  · intro _ _ _ _ _
    simp
  · intro _ _ _ _ _ notEnd ih
    exact List.forall_mem_cons.2 ⟨notEnd, ih⟩

/-! ### Tokens read up to a place -/

/-- Whether a token is among those that are read from here on, up to the end of the text or to what
cannot be read. -/
inductive Yields : Scanner → Token → Prop
  | here {s : Scanner} {t : Token} (after : Scanner) : s.next = (.ok t, after) → Yields s t
  | later {s : Scanner} {t first : Token} (after : Scanner) : s.next = (.ok first, after) →
      first.lexeme ≠ .endOfInput → Yields after t → Yields s t

end Metrology.Scanner
