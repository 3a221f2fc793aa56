import Metrology.Proofs.Expression.Lockstep
import Metrology.Proofs.Expression.Denotation

/-!
# Reading again

A place that was left by one reading can be read from again. A reading that is stopped for nesting
too deep leaves one level counted, and nothing else does: after any number of readings the place has
as many levels counted as readings were stopped so. Counted levels can only stop a later reading in
its turn. One that they do not stop comes to the same as with none counted.
-/
namespace Metrology.Expression

open Reading

/-- Whether a reading was stopped because no level of nesting was left. -/
def endsTooDeep : Except Error MeasureUnit → Bool
  | .error e => e.isTooDeep
  | .ok _ => false

/-- The place after a number of readings, whatever came of them. -/
def Cursor.afterReads (table : SymbolTable) (c : Cursor) : Nat → Cursor
  | 0 => c
  | n + 1 => ((c.afterReads table n).read table).2

def Cursor.fresh (c : Cursor) : Cursor := { c with depth := 0 }

/-! ### The same tokens with fewer levels counted -/

/-- The same tokens at the same positions; only the levels that are left may be fewer. -/
def sameTokens : Latitude := ⟨Eq, False, True⟩

theorem eq_of_sameTokens {l l' : List Token} (h : sameTokens.Alike l l') : l = l' := by
  induction h with
  | nil => rfl
  | same x position _ ih =>
    cases position
    rw [ih]
  | times _ _ respelled => exact respelled.elim
  | exponent _ respelled => exact respelled.elim

theorem sameTokens_refl (l : List Token) : sameTokens.Alike l l := by
  induction l with
  | nil => exact .nil
  | cons t l ih => exact .same t.lexeme rfl ih

theorem eq_of_sameTokens_errors {e e' : Error} (h : sameTokens.Errors e e') : e = e' := by
  cases h with
  | refl => rfl
  | malformed position same =>
    cases position
    rw [same.resolve_right id]
  | unknownUnit symbol position =>
    cases position
    rfl

/-- A reading that is not stopped for its depth comes out as one with all levels left. -/
theorem outcome_fresh (table : SymbolTable) (c : Cursor) :
    sameTokens.Outcome c c.fresh (readExpression table c) (readExpression table c.fresh) :=
  Latitude.outcome_readExpression table ⟨sameTokens_refl c.rest, rfl⟩
    (Or.inr ⟨trivial, Nat.sub_le_sub_left (Nat.zero_le _) _⟩)

/-- A reading that is stopped for nesting too deep leaves a level counted, and no other does. -/
theorem depth_read (table : SymbolTable) (c : Cursor) :
    (c.read table).2.depth = c.depth + (endsTooDeep (c.read table).1).toNat := by
  have outcome := outcome_fresh table c
  unfold Cursor.read
  generalize readExpression table c = r at outcome
  generalize readExpression table c.fresh = r' at outcome
  cases outcome with
  | ok u _ follows => exact follows.depth
  | error _ _ depth => exact depth
  | excused _ depth => exact depth

/-- A reading that is not stopped comes to the same with no levels counted. -/
theorem read_fresh {table : SymbolTable} {c : Cursor}
    (reached : endsTooDeep (c.read table).1 = false) :
    c.fresh.read table = ((c.read table).1, (c.read table).2.fresh) := by
  have outcome := outcome_fresh table c
  unfold Cursor.read at reached ⊢
  generalize readExpression table c = r at outcome reached
  generalize readExpression table c.fresh = r' at outcome
  -- Without the level that is counted after an error, both places are the same.
  have same {c₁ c₁' : Cursor} (matched : sameTokens.Matches c₁ c₁') (depth : c₁'.depth = 0) :
      c₁' = c₁.fresh := by
    obtain ⟨rest, stop, d⟩ := c₁
    obtain ⟨rest', stop', d'⟩ := c₁'
    obtain ⟨tokens, stops⟩ := matched
    cases eq_of_sameTokens tokens
    cases stops
    cases depth
    rfl
  cases outcome with
  | ok u matched _ follows' =>
    dsimp only
    rw [same matched follows'.depth]
  | error errors matched _ depth' =>
    cases eq_of_sameTokens_errors errors
    have shallow : Error.isTooDeep _ = false := reached
    rw [shallow] at depth'
    dsimp only
    rw [same matched depth']
  | excused => cases reached

/-! ### Reading any number of times -/

/-- Each reading that ended too deep has taken one level away. -/
theorem depth_afterReads (table : SymbolTable) (c : Cursor) (n : Nat) :
    (c.afterReads table n).depth = c.depth + (List.range n).countP fun i =>
      endsTooDeep ((c.afterReads table i).read table).1 := by
  induction n with
  | zero => rfl
  | succ n ih =>
    have step := depth_read table (c.afterReads table n)
    rw [List.range_succ, List.countP_append, List.countP_singleton, ← Nat.add_assoc, ← ih]
    cases stopped : endsTooDeep ((c.afterReads table n).read table).1 with
    | true =>
      rw [stopped] at step
      simpa [Cursor.afterReads] using step
    | false =>
      rw [stopped] at step
      simpa [Cursor.afterReads] using step

/-- After any number of readings with any outcomes the place has as many more levels counted as
readings were stopped for nesting too deep. Where none was, it is the place of a fresh reading; and
wherever the next reading is not stopped itself, it comes to the same as a fresh one. -/
theorem read_again (table : SymbolTable) (c : Cursor) (n : Nat) :
    let place := c.afterReads table n
    let stopped := fun i => endsTooDeep ((c.afterReads table i).read table).1
    place.depth = c.depth + (List.range n).countP stopped ∧
    (place.read table).2.depth = place.depth + (stopped n).toNat ∧
    ((∀ i < n, stopped i = false) → place.depth = c.depth ∧ (c.depth = 0 → place.fresh = place)) ∧
    (stopped n = false →
      place.fresh.read table = ((place.read table).1, (place.read table).2.fresh)) := by
  intro place stopped
  have depth : place.depth = c.depth + (List.range n).countP stopped := depth_afterReads table c n
  refine ⟨depth, depth_read table place, fun none => ?_, read_fresh⟩
  have zero : (List.range n).countP stopped = 0 := by
    rw [List.countP_eq_zero]
    intro i hi
    rw [none i (List.mem_range.1 hi)]
    nofun
  rw [zero, Nat.add_zero] at depth
  refine ⟨depth, fun start => ?_⟩
  rw [Cursor.fresh, ← start, ← depth]

/-- The second of two readings is as good as a fresh one after an ordinary error. -/
theorem read_again_second :
    let table := (SymbolMap.empty.addLabel (.base "m") "m").table
    let c : Cursor := ⟨[⟨.identifier "m", 0⟩, ⟨.identifier "m", 2⟩], 3, 0⟩
    let place := c.afterReads table 1
    (c.read table).1 = .error (.malformed 2 (.expected .endOfInput (.identifier "m"))) ∧
    (place.depth = 0 ∧ place.fresh = place) ∧
    endsTooDeep (place.read table).1 = false ∧
    place.fresh.read table = ((place.read table).1, (place.read table).2.fresh) := by
  intro table c place
  have first : (c.read table).1 = .error (.malformed 2 (.expected .endOfInput (.identifier "m"))) :=
    rfl
  obtain ⟨-, -, shallow, same⟩ := read_again table c 1
  have earlier : ∀ i < 1, endsTooDeep ((c.afterReads table i).read table).1 = false := by
    intro i hi
    rw [Nat.lt_one_iff.1 hi]
    rfl
  obtain ⟨depth, fresh⟩ := shallow earlier
  exact ⟨first, ⟨depth, fresh rfl⟩, rfl, same rfl⟩

/-! ### A level too many -/

/-- Parentheses that open as many levels as are left stop the reading at the word behind them. -/
theorem offsetSum_of_opens (table : SymbolTable) {levels : Nat} {c : Cursor} {l : List Lexeme}
    (words : c.lexemes = List.replicate levels .openParen ++ l) :
    ∃ position rest, offsetSum table levels c = .error (.malformed position (.tooDeep maxDepth))
      ⟨rest, c.stop, c.depth + 1⟩ ∧ rest.map Token.lexeme = l := by
  induction levels generalizing c with
  | zero => exact ⟨(c.peek 0).position, c.rest, rfl, words⟩
  | succ levels ih =>
    rw [List.replicate_succ, List.cons_append] at words
    have next : (c.peek 0).lexeme = .openParen := Cursor.next_eq_of_lexemes words
    have behind : c.tail.lexemes = List.replicate levels .openParen ++ l := by
      rw [Cursor.lexemes, Cursor.tail, List.map_tail, ← Cursor.lexemes, words, List.tail_cons]
    obtain ⟨position, rest, inner, left⟩ := ih behind
    refine ⟨position, rest, ?_, left⟩
    have noOffset : readLeadingOffset c = .ok none c := by
      rw [readLeadingOffset, bind_get, Cursor.startsWithOffset_eq, words]
      rfl
    have noExponential : c.exponential? = none := by
      rw [Cursor.exponential?, next]
      rfl
    have operand : readOperand table (offsetSum table levels) c =
        .error (.malformed position (.tooDeep maxDepth)) ⟨rest, c.stop, c.depth + 1⟩ := by
      rw [readOperand, bind_token, next]
      dsimp only
      rw [bind_skip]
      exact bind_of_eq_error (bind_of_eq_error inner)
    have power : readPower table (offsetSum table levels) c =
        .error (.malformed position (.tooDeep maxDepth)) ⟨rest, c.stop, c.depth + 1⟩ := by
      have lexeme : c.next = .openParen := next
      rw [readPower, bind_lexeme, lexeme]
      dsimp only
      rw [bind_get, noExponential]
      exact bind_of_eq_error operand
    rw [offsetSum, bind_of_eq_ok noOffset]
    exact bind_of_eq_error (bind_of_eq_error power)

/-- An expression that opens all levels that are left is not read, and one level more is counted
where it stops. -/
theorem read_of_opens (table : SymbolTable) {c : Cursor} {l : List Lexeme} (more : c.depth < maxDepth)
    (words : c.lexemes = List.replicate (maxDepth - c.depth) .openParen ++ l) :
    ∃ position rest, c.read table = (.error (.malformed position (.tooDeep maxDepth)),
      ⟨rest, c.stop, c.depth + 1⟩) ∧ rest.map Token.lexeme = l := by
  obtain ⟨position, rest, stopped, left⟩ := offsetSum_of_opens table words
  refine ⟨position, rest, ?_, left⟩
  have start : c.next ≠ .endOfInput := by
    obtain ⟨n, some⟩ : ∃ n, maxDepth - c.depth = n + 1 := ⟨maxDepth - c.depth - 1, by omega⟩
    rw [some, List.replicate_succ, List.cons_append] at words
    rw [Cursor.next_eq_of_lexemes words]
    decide
  have compound : readCompound table c = .error (.malformed position (.tooDeep maxDepth))
      ⟨rest, c.stop, c.depth + 1⟩ := by
    rw [readCompound, bind_get, bind_token]
    exact bind_of_eq_error stopped
  rw [Cursor.read, readExpression, bind_lexeme, if_neg start, bind_of_eq_error compound]

theorem Compound.eval_single (table : SymbolTable) (t : Tree .addition) :
    Compound.eval table ⟨t, []⟩ = t.eval table := by
  simp [Compound.eval]

def nestedSymbol (name : String) : Nat → Tree .addition
  | 0 => .sum none (.single (.power (.symbol name none) none)) none
  | n + 1 => .sum none (.single (.power (.enclosed (nestedSymbol name n) none) none)) none

theorem lexemes_nestedSymbol (name : String) (n : Nat) : (nestedSymbol name n).lexemes =
    List.replicate n .openParen ++ .identifier name :: List.replicate n .closeParen := by
  induction n with
  | zero => rfl
  | succ n ih =>
    have step : (nestedSymbol name (n + 1)).lexemes =
        .openParen :: ((nestedSymbol name n).lexemes ++ [.closeParen]) := by
      simp [nestedSymbol, Tree.lexemes, leadingLexemes, trailingLexemes, noteLexemes]
    rw [step, ih, List.append_assoc, List.cons_append, ← List.replicate_succ']
    rfl

theorem isPreferred_nestedSymbol (name : String) (n : Nat) : (nestedSymbol name n).IsPreferred := by
  have unsigned (t : Tree .product) : startsOffset (t.lexemes ++ trailingLexemes none) = false := by
    rw [trailingLexemes, List.append_nil]
    exact startsOffset_product t
  induction n with
  | zero => exact ⟨fun _ => unsigned _, trivial⟩
  | succ n ih => exact ⟨fun _ => unsigned _, ih⟩

theorem eval_nestedSymbol {table : SymbolTable} {name : String} {u : MeasureUnit}
    (found : table.unit? name = some u) (n : Nat) : (nestedSymbol name n).eval table = some u := by
  induction n with
  | zero => simp [nestedSymbol, Tree.eval, found, annotated?, leadingShift, trailingShift]
  | succ n ih => simp [nestedSymbol, Tree.eval, ih, annotated?, leadingShift, trailingShift]

theorem depth_nestedSymbol (name : String) (n : Nat) : (nestedSymbol name n).depth = n := by
  induction n with
  | zero => rfl
  | succ n ih => simp [nestedSymbol, Tree.depth, ih]

theorem areApart_replicate {x : Lexeme} (free : ∀ next, x.canPrecede next = true) (n : Nat)
    {l : List Lexeme} (apart : Lexeme.AreApart l) : Lexeme.AreApart (List.replicate n x ++ l) := by
  induction n with
  | zero => exact apart
  | succ n ih => exact ⟨free _, ih⟩

theorem flatMap_replicate_spelling {x : Lexeme} {ch : Char} (single : x.spelling = [ch]) (n : Nat) :
    (List.replicate n x).flatMap Lexeme.spelling = List.replicate n ch := by
  induction n with
  | zero => rfl
  | succ n ih => rw [List.replicate_succ, List.flatMap_cons, single, ih]; rfl

/-- A symbol in parentheses is read unless it nests too deep. -/
theorem read_nestedSymbol {table : SymbolTable} {name : String} {u : MeasureUnit}
    (found : table.unit? name = some u) {n : Nat} (shallow : n < maxDepth) {c : Cursor}
    (start : c.depth = 0) (words : c.lexemes = (nestedSymbol name n).lexemes) :
    (c.read table).1 = .ok u := by
  have inside : ∀ token ∈ c.rest, token.lexeme ≠ .endOfInput := by
    intro token ht
    have member : token.lexeme ∈ c.lexemes := List.mem_map_of_mem ht
    rw [words, lexemes_nestedSymbol] at member
    simp only [List.mem_append, List.mem_cons, List.mem_replicate] at member
    rcases member with ⟨-, eq⟩ | eq | ⟨-, eq⟩ <;> rw [eq] <;> simp
  have more : c.rest ≠ [] := by
    intro none
    rw [Cursor.lexemes, none] at words
    exact (nestedSymbol name n).lexemes_ne_nil words.symm
  have single : (⟨nestedSymbol name n, []⟩ : Compound).lexemes = c.lexemes := by
    rw [words, Compound.lexemes, List.flatMap_nil, List.append_nil]
  have reached := reaches_readExpression inside more single
    ⟨isPreferred_nestedSymbol name n, List.forall_mem_nil _⟩
    ((Compound.eval_single table _).trans (eval_nestedSymbol found n))
  have level : ¬(⟨nestedSymbol name n, []⟩ : Compound).IsDeep (maxDepth - c.depth) := by
    rintro (deep | ⟨component, member, -⟩)
    · rw [depth_nestedSymbol, start] at deep
      omega
    · cases member
  rw [Cursor.read, reached.1 level]

/-- The words of a symbol between parentheses that need not match. -/
theorem exists_tokens_enclosed (opens closes : Nat) :
    ∃ tokens, (Scanner.ofText (String.ofList (List.replicate opens '(' ++
        'm' :: List.replicate closes ')'))).tokens = .ok tokens ∧
      tokens.map Token.lexeme =
        List.replicate opens .openParen ++ .identifier "m" :: List.replicate closes .closeParen := by
  rw [Scanner.ofText, String.toList_ofList]
  refine Lexeme.exists_tokens_of_spells ⟨fun x hx => ?_, ?_⟩ ?_ 0
  · simp only [List.mem_append, List.mem_cons, List.mem_replicate] at hx
    rcases hx with ⟨-, rfl⟩ | rfl | ⟨-, rfl⟩ <;> trivial
  · rw [List.flatMap_append, List.flatMap_cons, flatMap_replicate_spelling rfl,
      flatMap_replicate_spelling rfl]
    rfl
  · refine areApart_replicate (fun _ => rfl) opens ⟨?_, ?_⟩
    · cases closes <;> rfl
    · have closing := areApart_replicate (x := .closeParen) (fun _ => rfl) closes (l := []) trivial
      rwa [List.append_nil] at closing

/-- A symbol behind twice as many parentheses as may open, less one, of which so many close that the
second half is an expression of its own. Both readings are stopped, where the second would not be
had the first left no level counted. -/
theorem exists_read_again_ne :
    let table := (SymbolMap.empty.addLabel (.base "m") "m").table
    let text := String.ofList (List.replicate 399 '(' ++ 'm' :: List.replicate 199 ')')
    ∃ c : Cursor, Cursor.ofText text = .ok c ∧ c.depth = 0 ∧
      endsTooDeep (c.read table).1 = true ∧ (c.read table).2.depth = 1 ∧
      endsTooDeep ((c.read table).2.read table).1 = true ∧
      ((c.read table).2.fresh.read table).1 = .ok (.base "m") := by
  intro table text
  obtain ⟨tokens, scanned, words⟩ := exists_tokens_enclosed 399 199
  refine ⟨⟨tokens, text.length, 0⟩, ?_, rfl, ?_⟩
  · rw [Cursor.ofText, scanned]
    rfl
  have first : Cursor.lexemes ⟨tokens, text.length, 0⟩ = List.replicate (maxDepth - 0) .openParen ++
      (List.replicate 199 .openParen ++ .identifier "m" :: List.replicate 199 .closeParen) := by
    rw [Cursor.lexemes, words, ← List.append_assoc, List.replicate_append_replicate]
    rfl
  obtain ⟨position, rest, stopped, left⟩ := read_of_opens table (Nat.zero_lt_succ 199) first
  rw [stopped]
  have second : Cursor.lexemes ⟨rest, text.length, 1⟩ = List.replicate (maxDepth - 1) .openParen ++
      .identifier "m" :: List.replicate 199 .closeParen := left
  obtain ⟨position', rest', stopped', -⟩ := read_of_opens table (Nat.succ_lt_succ (Nat.zero_lt_succ 198)) second
  refine ⟨rfl, rfl, by rw [stopped']; rfl, ?_⟩
  have found : table.unit? "m" = some (.base "m") := rfl
  refine read_nestedSymbol found (Nat.lt_succ_self 199) rfl ?_
  rw [lexemes_nestedSymbol]
  exact left

end Metrology.Expression
