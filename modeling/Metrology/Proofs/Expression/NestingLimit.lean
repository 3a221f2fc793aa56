import Metrology.Proofs.Expression.Reuse
import Metrology.Proofs.Expression.TrailingNote

/-!
# The limit of nesting

The outermost expression is a level of its own. Of `maxDepth` levels one less is therefore left for
parentheses and logarithms, in each component of a compound; the parentheses of an exponent hold no
expression and are no level. What nests deeper is refused at the word where the last level is used
up, and for nothing else.
-/
namespace Metrology.Expression

/-- The levels of parentheses and logarithms in the component that nests deepest. -/
def Compound.depth (t : Compound) : Nat :=
  t.rest.foldr (fun component => max component.depth) t.first.depth

theorem Compound.le_depth_iff (t : Compound) (levels : Nat) : levels ≤ t.depth ↔ t.IsDeep levels := by
  obtain ⟨first, rest⟩ := t
  simp only [Compound.depth, Compound.IsDeep]
  induction rest with
  | nil => simp
  | cons component rest ih =>
    rw [List.foldr_cons, le_max_iff, ih]
    simp only [List.mem_cons, exists_eq_or_imp]
    exact or_left_comm

variable {table : SymbolTable} {text : String} {tokens : List Token} {u : MeasureUnit}

/-- A text with a derivation that has a meaning is read if it nests less than `maxDepth` levels deep,
and refused for nesting too deep otherwise. -/
theorem parseBody_of_depth {t : Compound} (scanned : (Scanner.ofText text).tokens = .ok tokens)
    (lexemes : t.lexemes = tokens.map Token.lexeme) (preferred : t.IsPreferred)
    (eval : t.eval table = some u) :
    (t.depth < maxDepth → parseBody table text = .ok u) ∧
    (maxDepth ≤ t.depth →
      ∃ position, parseBody table text = .error (.malformed position (.tooDeep maxDepth))) := by
  have more : tokens ≠ [] := by
    rintro rfl
    exact t.first.lexemes_ne_nil (List.append_eq_nil_iff.1 lexemes).1
  constructor
  · intro shallow
    refine parseBody_of_derivation scanned more lexemes preferred eval fun deep => ?_
    exact absurd ((t.le_depth_iff maxDepth).2 deep) (Nat.not_le.2 shallow)
  · intro deep
    exact parseBody_of_deep scanned more lexemes preferred eval ((t.le_depth_iff maxDepth).1 deep)

/-- A derivation of a symbol in parentheses. -/
theorem derives_nestedSymbol {name : String} (found : table.unit? name = some u) (n : Nat) :
    (⟨nestedSymbol name n, []⟩ : Compound).lexemes =
        List.replicate n .openParen ++ .identifier name :: List.replicate n .closeParen ∧
      (⟨nestedSymbol name n, []⟩ : Compound).IsPreferred ∧
      (⟨nestedSymbol name n, []⟩ : Compound).eval table = some u ∧
      (⟨nestedSymbol name n, []⟩ : Compound).depth = n := by
  refine ⟨?_, ⟨isPreferred_nestedSymbol name n, List.forall_mem_nil _⟩,
    (Compound.eval_single table _).trans (eval_nestedSymbol found n), depth_nestedSymbol name n⟩
  rw [Compound.lexemes, List.flatMap_nil, List.append_nil, lexemes_nestedSymbol]

/-- A text that has a derivation with a meaning is read as that meaning if its parentheses and
logarithms nest at most 199 levels deep, and refused for nesting too deep if they nest 200 levels or
more. A symbol in parentheses is read just if there are fewer than 200 around it. -/
theorem parseBody_nesting_limit (table : SymbolTable)
    (scanned : tokenize text = .ok (tokens ++ [⟨.endOfInput, text.length⟩])) :
    (∀ (t : Compound) (u : MeasureUnit), t.lexemes = tokens.map Token.lexeme → t.IsPreferred →
      t.eval table = some u →
      (t.depth < 200 → parseBody table text = .ok u) ∧
      (200 ≤ t.depth →
        ∃ position, parseBody table text = .error (.malformed position (.tooDeep 200)))) ∧
    ∀ (n : Nat) (name : String) (u : MeasureUnit),
      tokens.map Token.lexeme =
        List.replicate n .openParen ++ .identifier name :: List.replicate n .closeParen →
      table.unit? name = some u → (parseBody table text = .ok u ↔ n < 200) := by
  obtain ⟨words, cut, eq⟩ := Scanner.tokens_of_tokenize scanned
  cases List.append_cancel_right eq
  constructor
  · exact fun t u lexemes preferred eval => parseBody_of_depth cut lexemes preferred eval
  · intro n name u words found
    obtain ⟨lexemes, preferred, eval, depth⟩ := derives_nestedSymbol found n
    obtain ⟨shallow, deep⟩ := parseBody_of_depth cut (lexemes.trans words.symm) preferred eval
    rw [depth] at shallow deep
    refine ⟨fun read => Nat.lt_of_not_le fun limit => ?_, shallow⟩
    obtain ⟨position, refused⟩ := deep limit
    cases read.symm.trans refused

/-- As many parentheses as are read around a symbol. -/
theorem parseBody_nesting_limit_metre :
    let table := (SymbolMap.empty.addLabel (.base "m") "m").table
    let text := String.ofList (List.replicate 199 '(' ++ 'm' :: List.replicate 199 ')')
    ∃ (tokens : List Token) (t : Compound),
      tokenize text = .ok (tokens ++ [⟨.endOfInput, text.length⟩]) ∧
      (t.lexemes = tokens.map Token.lexeme ∧ t.IsPreferred ∧ t.eval table = some (.base "m") ∧
        t.depth < 200 ∧ parseBody table text = .ok (.base "m")) ∧
      tokens.map Token.lexeme =
        List.replicate 199 .openParen ++ .identifier "m" :: List.replicate 199 .closeParen ∧
      table.unit? "m" = some (.base "m") ∧
      (parseBody table text = .ok (.base "m") ↔ 199 < 200) := by
  intro table text
  obtain ⟨tokens, scanned, words⟩ := exists_tokens_enclosed 199 199
  have tokenized : tokenize text = .ok (tokens ++ [⟨.endOfInput, text.length⟩]) := by
    rw [tokenize, scanned]
    rfl
  have found : table.unit? "m" = some (.base "m") := rfl
  obtain ⟨lexemes, preferred, eval, depth⟩ := derives_nestedSymbol found 199
  have derives := lexemes.trans words.symm
  have shallow := Nat.lt_succ_of_le (Nat.le_of_eq depth)
  obtain ⟨limit, symbol⟩ := parseBody_nesting_limit table tokenized
  exact ⟨tokens, _, tokenized, ⟨derives, preferred, eval, shallow,
    (limit _ _ derives preferred eval).1 shallow⟩, words, found, symbol 199 "m" _ words found⟩

/-- A symbol in 200 parentheses nests no deeper than 200 levels, and is refused for nesting too
deep. -/
theorem exists_refused_of_depth :
    let table := (SymbolMap.empty.addLabel (.base "m") "m").table
    let text := String.ofList (List.replicate 200 '(' ++ 'm' :: List.replicate 200 ')')
    ∃ (tokens : List Token) (t : Compound),
      tokenize text = .ok (tokens ++ [⟨.endOfInput, text.length⟩]) ∧
      t.lexemes = tokens.map Token.lexeme ∧ t.IsPreferred ∧ t.eval table = some (.base "m") ∧
      t.depth ≤ 200 ∧
      ∃ position, parseBody table text = .error (.malformed position (.tooDeep 200)) := by
  intro table text
  obtain ⟨tokens, scanned, words⟩ := exists_tokens_enclosed 200 200
  have found : table.unit? "m" = some (.base "m") := rfl
  obtain ⟨lexemes, preferred, eval, depth⟩ := derives_nestedSymbol found 200
  have derives := lexemes.trans words.symm
  refine ⟨tokens, _, ?_, derives, preferred, eval, Nat.le_of_eq depth, ?_⟩
  · rw [tokenize, scanned]
    rfl
  · exact (parseBody_of_depth scanned derives preferred eval).2 (Nat.le_of_eq depth.symm)

end Metrology.Expression
