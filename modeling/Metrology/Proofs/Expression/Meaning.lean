import Metrology.Proofs.Expression.Completeness
import Metrology.Proofs.Token.Scanning
import Metrology.SymbolMap

/-!
# The meaning of a text

A text that can be read is a text that has a preferred derivation, and the unit that is read
is the meaning of the derivation. A derivation with a meaning is read unless it nests too
deep, so that for what nests at most `maxDepth` levels reading and derivability agree.
-/
namespace Metrology.Expression

open Reading

/-- The words in front of a place are its words up to the end. -/
theorem Cursor.passes_end (tokens : List Token) (stop depth : Nat) :
    Cursor.Passes ⟨tokens, stop, depth⟩ (tokens.map Token.lexeme) ⟨[], stop, depth⟩ :=
  ⟨tokens, rfl, by simp⟩

theorem Cursor.next_ne_endOfInput {c : Cursor} (h : ∀ t ∈ c.rest, t.lexeme ≠ .endOfInput)
    (more : c.rest ≠ []) : c.next ≠ .endOfInput := by
  obtain ⟨rest, stop, depth⟩ := c
  cases rest with
  | nil => exact absurd rfl more
  | cons t rest => exact h t (by simp)

theorem Cursor.rest_eq_nil_of_passes {c c' : Cursor} {l : List Lexeme} (passes : c.Passes l c')
    (h : ∀ t ∈ c.rest, t.lexeme ≠ .endOfInput) (ended : c'.next = .endOfInput) : c'.rest = [] := by
  obtain ⟨tokens, -, rfl⟩ := passes
  exact Classical.byContradiction fun more =>
    Cursor.next_ne_endOfInput (fun t ht => h t (by simp [ht])) more ended

/-- What is read from a place is the meaning of a derivation of all that stands there. -/
theorem derivation_of_readExpression {table : SymbolTable} {c c' : Cursor} {u : MeasureUnit}
    (words : ∀ t ∈ c.rest, t.lexeme ≠ .endOfInput) (more : c.rest ≠ [])
    (ok : readExpression table c = .ok u c') :
    ∃ t : Compound, t.lexemes = c.lexemes ∧ t.IsPreferred ∧ t.eval table = some u := by
  rw [readExpression, bind_lexeme, if_neg (Cursor.next_ne_endOfInput words more)] at ok
  obtain ⟨v, c₁, compound, ok⟩ := bind_eq_ok.1 ok
  rw [bind_lexeme] at ok
  obtain ⟨t, passes, preferred, eval⟩ := sound_readCompound compound
  by_cases ended : c₁.next = .endOfInput
  · rw [if_pos ended] at ok
    obtain ⟨rfl, rfl⟩ := pure_eq_ok.1 ok
    have rest := Cursor.rest_eq_nil_of_passes passes words ended
    refine ⟨t, ?_, preferred, eval⟩
    rw [Cursor.lexemes_of_passes passes, Cursor.lexemes, rest, List.map_nil, List.append_nil]
  · rw [if_neg ended] at ok
    exact absurd ok unexpected_ne_ok

/-- A derivation with a meaning is read unless it nests too deep. -/
theorem reaches_readExpression {table : SymbolTable} {t : Compound} {c : Cursor} {u : MeasureUnit}
    (words : ∀ t ∈ c.rest, t.lexeme ≠ .endOfInput) (more : c.rest ≠ [])
    (lexemes : t.lexemes = c.lexemes) (preferred : t.IsPreferred) (eval : t.eval table = some u) :
    Reaches (readExpression table c) (t.IsDeep (maxDepth - c.depth))
      (.ok u { c with rest := [] }) := by
  have passes : c.Passes t.lexemes { c with rest := [] } := by
    rw [lexemes]
    exact Cursor.passes_end c.rest c.stop c.depth
  rw [readExpression, bind_lexeme, if_neg (Cursor.next_ne_endOfInput words more)]
  have compound := reaches_readCompound preferred eval passes ⟨rfl, nofun⟩
  exact compound.bind_eq rfl

/-! ### Texts -/

section Texts

variable {table : SymbolTable} {text : String} {tokens : List Token} {u : MeasureUnit}

theorem parseBody_eq (scanned : (Scanner.ofText text).tokens = .ok tokens) :
    parseBody table text = (Cursor.read table ⟨tokens, text.length, 0⟩).1 := by
  rw [parseBody, Cursor.ofText, scanned]
  rfl

theorem parseBody_eq_ok_iff (scanned : (Scanner.ofText text).tokens = .ok tokens) :
    parseBody table text = .ok u ↔
      ∃ c, readExpression table ⟨tokens, text.length, 0⟩ = .ok u c := by
  rw [parseBody_eq scanned, Cursor.read]
  cases readExpression table ⟨tokens, text.length, 0⟩ <;> simp

theorem parseBody_nil (scanned : (Scanner.ofText text).tokens = .ok []) :
    parseBody table text = .ok MeasureUnit.one :=
  (parseBody_eq_ok_iff scanned).2 ⟨_, rfl⟩

/-- A text with a derivation that has a meaning is read as that meaning, if it does not nest
too deep. -/
theorem parseBody_of_derivation {t : Compound}
    (scanned : (Scanner.ofText text).tokens = .ok tokens) (more : tokens ≠ [])
    (lexemes : t.lexemes = tokens.map Token.lexeme) (preferred : t.IsPreferred)
    (eval : t.eval table = some u) (shallow : ¬t.IsDeep maxDepth) :
    parseBody table text = .ok u :=
  (parseBody_eq_ok_iff scanned).2 ⟨_, (reaches_readExpression
    (c := ⟨tokens, text.length, 0⟩) (Scanner.lexeme_ne_endOfInput scanned) more lexemes preferred
    eval).1 shallow⟩

/-- A text with a derivation that nests too deep is refused for that and nothing else. -/
theorem parseBody_of_deep {t : Compound}
    (scanned : (Scanner.ofText text).tokens = .ok tokens) (more : tokens ≠ [])
    (lexemes : t.lexemes = tokens.map Token.lexeme) (preferred : t.IsPreferred)
    (eval : t.eval table = some u) (deep : t.IsDeep maxDepth) :
    ∃ position, parseBody table text = .error (.malformed position (.tooDeep maxDepth)) := by
  obtain ⟨position, c, error⟩ := (reaches_readExpression (c := ⟨tokens, text.length, 0⟩)
    (Scanner.lexeme_ne_endOfInput scanned) more lexemes preferred eval).2 deep
  refine ⟨position, ?_⟩
  rw [parseBody_eq scanned, Cursor.read, error]

theorem derivation_of_parseBody (scanned : (Scanner.ofText text).tokens = .ok tokens)
    (more : tokens ≠ []) (ok : parseBody table text = .ok u) :
    ∃ t : Compound, t.lexemes = tokens.map Token.lexeme ∧ t.IsPreferred ∧
      t.eval table = some u := by
  obtain ⟨c, ok⟩ := (parseBody_eq_ok_iff scanned).1 ok
  exact derivation_of_readExpression (c := ⟨tokens, text.length, 0⟩)
    (Scanner.lexeme_ne_endOfInput scanned) more ok

end Texts

/-- The parser accepts its grammar: a text is read as a unit if and only if it has no words
and the unit is the dimensionless one, or its words have a preferred derivation that means
the unit. -/
theorem parseBody_eq_ok_iff_derivation (table : SymbolTable) (text : String)
    (tokens : List Token) (u : MeasureUnit)
    (scanned : tokenize text = .ok (tokens ++ [⟨.endOfInput, text.length⟩]))
    (shallow : ∀ position, parseBody table text ≠ .error (.malformed position (.tooDeep maxDepth))) :
    parseBody table text = .ok u ↔
      tokens = [] ∧ u = MeasureUnit.one ∨
      ∃ t : Compound, t.lexemes = tokens.map Token.lexeme ∧ t.IsPreferred ∧
        t.eval table = some u := by
  have scanned : (Scanner.ofText text).tokens = .ok tokens := by
    unfold tokenize at scanned
    cases h : (Scanner.ofText text).tokens with
    | error e =>
      rw [h] at scanned
      cases scanned
    | ok found =>
      rw [h] at scanned
      have eq := Except.ok.inj scanned
      rw [List.append_cancel_right eq]
  by_cases more : tokens = []
  · subst more
    rw [parseBody_nil scanned]
    constructor
    · intro ok
      exact Or.inl ⟨rfl, (Except.ok.inj ok).symm⟩
    · rintro (⟨-, rfl⟩ | ⟨t, lexemes, -⟩)
      · rfl
      · exact absurd (List.append_eq_nil_iff.1 lexemes).1 t.first.lexemes_ne_nil
  · constructor
    · exact fun ok => Or.inr (derivation_of_parseBody scanned more ok)
    · rintro (⟨empty, -⟩ | ⟨t, lexemes, preferred, eval⟩)
      · exact absurd empty more
      · by_cases deep : t.IsDeep maxDepth
        · obtain ⟨position, error⟩ := parseBody_of_deep scanned more lexemes preferred eval deep
          exact absurd error (shallow position)
        · exact parseBody_of_derivation scanned more lexemes preferred eval deep

/-- The reading of a product of a number and a unit. -/
theorem parseBody_eq_ok_iff_derivation_double :
    let table := (SymbolMap.empty.addLabel (.base "m") "m").table
    let tokens : List Token :=
      [⟨.number ⟨['2'], [], none⟩, 0⟩, ⟨.middleDot, 1⟩, ⟨.identifier "m", 2⟩]
    let double : Ratio := ⟨2, 1, by decide, by decide, by decide⟩
    let u : MeasureUnit := .transformed (.base "m") (.ratio double)
    tokenize "2·m" = .ok (tokens ++ [⟨.endOfInput, "2·m".length⟩]) ∧
    (∀ position, parseBody table "2·m" ≠ .error (.malformed position (.tooDeep maxDepth))) ∧
    (parseBody table "2·m" = .ok u ↔
      tokens = [] ∧ u = MeasureUnit.one ∨
      ∃ t : Compound, t.lexemes = tokens.map Token.lexeme ∧ t.IsPreferred ∧
        t.eval table = some u) := by
  intro table tokens double u
  have scanned : (Scanner.ofText "2·m").tokens = .ok tokens := by
    refine Scanner.tokens_of_next ⟨['·', 'm'], 1⟩ rfl (by decide) ?_
    refine Scanner.tokens_of_next ⟨['m'], 2⟩ rfl (by decide) ?_
    refine Scanner.tokens_of_next ⟨[], 3⟩ rfl (by decide) ?_
    exact Scanner.tokens_of_end ⟨[], 3⟩ rfl rfl
  have tokenized : tokenize "2·m" = .ok (tokens ++ [⟨.endOfInput, "2·m".length⟩]) := by
    rw [tokenize, scanned]
    rfl
  let t : Compound := ⟨.sum none (.chain
    (.single (.power (.number ⟨none, ⟨['2'], [], none⟩⟩ none) none)) (.times .middleDot)
    (.power (.symbol "m" none) none)) none, []⟩
  have preferred : t.IsPreferred := by
    refine ⟨⟨fun _ => rfl, trivial, trivial⟩, by simp [t]⟩
  have eval : t.eval table = some u := rfl
  have shallow : ¬t.IsDeep maxDepth := by
    rintro (deep | ⟨component, member, -⟩)
    · exact absurd deep (by decide)
    · cases member
  have read := parseBody_of_derivation scanned nofun rfl preferred eval shallow
  have shallow : ∀ position,
      parseBody table "2·m" ≠ .error (.malformed position (.tooDeep maxDepth)) := by
    rw [read]
    nofun
  exact ⟨tokenized, shallow,
    parseBody_eq_ok_iff_derivation table "2·m" tokens u tokenized shallow⟩

end Metrology.Expression
