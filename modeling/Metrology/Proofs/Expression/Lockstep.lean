import Metrology.Proofs.Expression.Simulation

/-!
# The readers in lockstep

Every reader of the parser simulates itself, whatever the latitude: first those of numbers and
exponents, then the looking ahead, then the expressions from the strongest operator to the weakest,
with as many levels of nesting on either side or, where that is excused, more on the second.
-/
namespace Metrology.Expression.Latitude

open Reading

variable {L : Latitude} {c c' : Cursor} {l l' : List Token} {u : MeasureUnit}

/-! ### Numbers and exponents -/

theorem simulates_readSign : L.Simulates readSign readSign := by
  intro c c' h
  refine h.lexeme fun x x' nexts => ?_
  cases nexts with
  | same x _ _ tail =>
    cases sign : x.sign? with
    | none => exact simulates_pure _ h
    | some s => exact .skip tail (simulates_pure s)
  | times s s' => cases s <;> cases s' <;> exact simulates_pure _ h
  | exponent => exact simulates_pure _ h

theorem simulates_readNumber : L.Simulates readNumber readNumber := by
  refine simulates_readSign.bind fun sign c c' h => h.token fun x x' nexts => ?_
  have position := h.position
  cases nexts with
  | same x _ _ tail =>
    cases x with
    | number literal =>
      refine .skip tail fun c c' h => ?_
      cases literal.value? with
      | some value => exact simulates_pure _ h
      | none => exact outcome_fail h position (Or.inl rfl) (fun _ => rfl) fun _ => rfl
    | _ => exact simulates_unexpected _ h
  | times s s' => cases s <;> cases s' <;> exact simulates_unexpected _ h
  | exponent => exact simulates_unexpected _ h

theorem simulates_readInteger : L.Simulates readInteger readInteger := by
  refine simulates_readSign.bind fun sign c c' h => h.token fun x x' nexts => ?_
  have position := h.position
  cases nexts with
  | same x _ _ tail =>
    dsimp only
    cases x.integer? with
    | some digits =>
      refine .skip tail fun c c' h => ?_
      cases exponentOf sign digits with
      | some n => exact simulates_pure n h
      | none => exact outcome_fail h position (Or.inl rfl) (fun _ => rfl) fun _ => rfl
    | none => exact simulates_unexpected _ h
  | times s s' => cases s <;> cases s' <;> exact simulates_unexpected _ h
  | exponent => exact simulates_unexpected _ h

/-- Passing a word that has one spelling, or failing where it is not there. -/
theorem simulates_expect {x : Lexeme} (what : Expectation) (times : ∀ s : Separator, s.lexeme ≠ x)
    (caret : Lexeme.caret ≠ x) (superscript : ∀ digits, Lexeme.superscript digits ≠ x) :
    L.Simulates (expect x what) (expect x what) := by
  intro c c' h
  refine h.lexeme fun y y' nexts => ?_
  cases nexts with
  | same y _ _ tail =>
    by_cases found : y = x
    · rw [if_pos found]
      exact .ok _ tail (follows_tail c) (follows_tail c')
    · rw [if_neg found]
      exact simulates_unexpected _ h
  | times s s' =>
    rw [if_neg (times s), if_neg (times s')]
    exact simulates_unexpected _ h
  | exponent digits =>
    rw [if_neg caret, if_neg (superscript digits)]
    exact simulates_unexpected _ h

theorem simulates_expect_open :
    L.Simulates (expect .openParen .openParen) (expect .openParen .openParen) :=
  simulates_expect _ (fun s => by cases s <;> decide) nofun nofun

theorem simulates_expect_close :
    L.Simulates (expect .closeParen .closeParen) (expect .closeParen .closeParen) :=
  simulates_expect _ (fun s => by cases s <;> decide) nofun nofun

theorem simulates_readQuotient (u : MeasureUnit) {p p' : Nat} (position : L.position p p') :
    L.Simulates (readQuotient u p) (readQuotient u p') := by
  refine simulates_readInteger.bind fun n c c' h => h.lexeme fun x x' nexts => ?_
  have close (d : Power) : L.Simulates
      (expect .closeParen .closeParen >>= fun _ => lift (rationalPower u n d p))
      (expect .closeParen .closeParen >>= fun _ => lift (rationalPower u n d p')) :=
    simulates_expect_close.bind fun _ _ _ h => outcome_lift h (steps_rationalPower u n d position)
  cases nexts with
  | same x _ _ tail =>
    by_cases slash : x = .solidus
    · rw [if_pos slash, if_pos slash]
      exact .skip tail (simulates_readInteger.bind close)
    · rw [if_neg slash, if_neg slash]
      exact close Power.one h
  | times s s' => cases s <;> cases s' <;> exact close Power.one h
  | exponent => exact close Power.one h

/-- An exponent of digits alone, with the sign that is not there. -/
theorem readInteger_of_digits {digits : List Char} (next : c.next = .number ⟨digits, [], none⟩) :
    readInteger c = ((match exponentOf .plus digits with
      | some n => pure n
      | none => fail (c.peek 0).position .exponentOutOfRange) : Reading Power) c.tail := by
  have unsigned : readSign c = .ok .plus c := by
    rw [readSign, bind_lexeme, next]
    rfl
  have number : (c.peek 0).lexeme = .number ⟨digits, [], none⟩ := next
  rw [readInteger, bind_of_eq_ok unsigned, bind_token, number]
  rfl

/-- The exponent behind a caret and the one in superscripts raise to the same power. -/
theorem simulates_readExponent (u : MeasureUnit) :
    L.Simulates (readExponent u) (readExponent u) := by
  intro c c' h
  refine h.token fun x x' nexts => ?_
  have position := h.position
  have arithmetic := MeasureUnit.failsInArithmetic_pow u
  cases nexts with
  | same x _ _ tail =>
    cases x with
    | caret =>
      have plain : L.Simulates
          (readInteger >>= fun n => unitAt (c.peek 0).position (u.pow n))
          (readInteger >>= fun n => unitAt (c'.peek 0).position (u.pow n)) :=
        simulates_readInteger.bind fun n _ _ h => outcome_unitAt h position (arithmetic n)
      refine .skip tail fun c₁ c₁' h => h.lexeme fun y y' nexts => ?_
      cases nexts with
      | same y _ _ tail =>
        by_cases opened : y = .openParen
        · rw [if_pos opened, if_pos opened]
          exact .skip tail (simulates_readQuotient u position)
        · rw [if_neg opened, if_neg opened]
          exact plain h
      | times s s' => cases s <;> cases s' <;> exact plain h
      | exponent => exact plain h
    | superscript digits =>
      refine .skip tail fun c c' h => ?_
      cases exponentOf .plus digits with
      | some n => exact outcome_unitAt h position (arithmetic n)
      | none => exact outcome_fail h position (Or.inl rfl) (fun _ => rfl) fun _ => rfl
    | _ => exact simulates_pure u h
  | times s s' => cases s <;> cases s' <;> exact simulates_pure u h
  | exponent digits number tail position' =>
    dsimp only
    rw [bind_skip, bind_lexeme, number, if_neg (by nofun), bind_skip]
    have behind := (follows_tail c.tail).trans (follows_tail c)
    have read := readInteger_of_digits number
    cases raised : exponentOf .plus digits with
    | some n =>
      rw [raised] at read
      rw [bind_of_eq_ok read]
      exact (outcome_unitAt tail position (arithmetic n)).before behind (follows_tail c')
    | none =>
      rw [raised] at read
      rw [bind_of_eq_error read]
      have failed : L.Outcome c.tail.tail c'.tail
          ((fail (c.tail.peek 0).position .exponentOutOfRange : Reading MeasureUnit) c.tail.tail)
          ((fail (c'.peek 0).position .exponentOutOfRange : Reading MeasureUnit) c'.tail) :=
        outcome_fail tail position' (Or.inl rfl) (fun _ => rfl) fun _ => rfl
      exact failed.before behind (follows_tail c')

/-! ### Looking ahead -/

section Ahead

abbrev words (l : List Token) : List Lexeme := l.map Token.lexeme

/-- Skipping a sign keeps tokens alike. -/
theorem Alike.skipSign (h : L.Alike l l') : ∃ m m', Expression.skipSign (words l) = words m ∧
    Expression.skipSign (words l') = words m' ∧ L.Alike m m' := by
  cases h with
  | nil => exact ⟨[], [], rfl, rfl, .nil⟩
  | @same x p p' l l' position rest =>
    simp only [words, List.map_cons, Expression.skipSign]
    cases x.sign?.isSome with
    | true => exact ⟨l, l', rfl, rfl, rest⟩
    | false => exact ⟨⟨x, p⟩ :: l, ⟨x, p'⟩ :: l', rfl, rfl, .same x position rest⟩
  | times s s' respelled position rest =>
    refine ⟨_, _, ?_, ?_, .times s s' respelled position rest⟩
    · cases s <;> rfl
    · cases s' <;> rfl
  | exponent digits respelled position position' rest =>
    exact ⟨_, _, rfl, rfl, .exponent digits respelled position position' rest⟩

/-- An integer is skipped in both lists or in neither. -/
theorem Alike.skipInteger? (h : L.Alike l l') :
    (Expression.skipInteger? (words l) = none ∧ Expression.skipInteger? (words l') = none) ∨
      ∃ m m', Expression.skipInteger? (words l) = some (words m) ∧
        Expression.skipInteger? (words l') = some (words m') ∧ L.Alike m m' := by
  obtain ⟨m, m', skipped, skipped', alike⟩ := h.skipSign
  simp only [Expression.skipInteger?, skipped, skipped']
  cases alike with
  | nil => exact Or.inl ⟨rfl, rfl⟩
  | @same x p p' m m' position rest =>
    simp only [words, List.map_cons]
    cases x.integer?.isSome with
    | true => exact Or.inr ⟨m, m', rfl, rfl, rest⟩
    | false => exact Or.inl ⟨rfl, rfl⟩
  | times s s' =>
    refine Or.inl ⟨?_, ?_⟩
    · cases s <;> rfl
    · cases s' <;> rfl
  | exponent => exact Or.inl ⟨rfl, rfl⟩

/-- Tokens that are alike look like an exponent together. -/
theorem Alike.startsExponent (h : L.Alike l l') :
    Expression.startsExponent (words l) = Expression.startsExponent (words l') := by
  unfold Expression.startsExponent
  rcases h.skipInteger? with ⟨none, none'⟩ | ⟨m, m', some, some', alike⟩
  · rw [none, none']
  · rw [some, some']
    cases alike with
    | nil => rfl
    | times s s' => cases s <;> cases s' <;> rfl
    | exponent => rfl
    | same x _ rest =>
      cases x with
      | solidus =>
        simp only [words, List.map_cons]
        rcases rest.skipInteger? with ⟨none, none'⟩ | ⟨m, m', some, some', alike⟩
        · rw [none, none']
        · rw [some, some']
          cases alike with
          | nil => rfl
          | same y => cases y <;> rfl
          | times s s' => cases s <;> cases s' <;> rfl
          | exponent => rfl
      | _ => rfl

theorem Alike.startsUnit (h : L.Alike l l') :
    Expression.startsUnit (words l) = Expression.startsUnit (words l') := by
  cases h with
  | nil => rfl
  | times s s' => cases s <;> cases s' <;> rfl
  | exponent => rfl
  | same x _ rest =>
    cases x with
    | openParen => exact congrArg (!·) rest.startsExponent
    | _ => rfl

theorem Alike.startsOffset (h : L.Alike l l') :
    Expression.startsOffset (words l) = Expression.startsOffset (words l') := by
  unfold Expression.startsOffset
  obtain ⟨m, m', skipped, skipped', alike⟩ := h.skipSign
  rw [skipped, skipped']
  cases alike with
  | nil => rfl
  | times s s' => cases s <;> cases s' <;> rfl
  | exponent => rfl
  | same x _ rest =>
    cases x with
    | number literal =>
      cases rest with
      | times s s' => cases s <;> cases s' <;> rfl
      | _ => rfl
    | _ => rfl

theorem Matches.startsWithOffset (h : L.Matches c c') :
    c.startsWithOffset = c'.startsWithOffset := by
  rw [Cursor.startsWithOffset_eq, Cursor.startsWithOffset_eq]
  exact h.tokens.startsOffset

/-- A caret that starts an exponent of digits makes no exponential. -/
theorem Matches.exponential? (h : L.Matches c c') : c.exponential? = c'.exponential? := by
  obtain ⟨rest, stop, depth⟩ := c
  obtain ⟨rest', stop', depth'⟩ := c'
  obtain ⟨tokens, -⟩ := h
  refine Option.ext fun base => ?_
  rw [Cursor.exponential?_eq_some, Cursor.exponential?_eq_some]
  simp only [Cursor.lexemes, Cursor.next, Cursor.peek]
  cases tokens with
  | nil => simp
  | times s s' => cases s <;> cases s' <;> simp [Separator.lexeme, exponentialBase?, Lexeme.integer?]
  | exponent => simp [exponentialBase?, Lexeme.integer?]
  | same x _ behind =>
    simp only [List.map_cons, List.getD_cons_zero, List.cons.injEq, true_and]
    cases behind with
    | nil => simp
    | times s s' => cases s <;> cases s' <;> simp [Separator.lexeme]
    | exponent => simp [Expression.startsUnit]
    | same y _ rest =>
      have unit := rest.startsUnit
      by_cases caret : y = .caret <;> simp [caret, unit]

/-- The base and the caret of an exponential have one spelling. -/
theorem Matches.behind_exponential (h : L.Matches c c') {base : Float}
    (starts : c.exponential? = some base) : L.Matches c.tail.tail c'.tail.tail := by
  obtain ⟨rest, stop, depth⟩ := c
  obtain ⟨rest', stop', depth'⟩ := c'
  obtain ⟨tokens, stops⟩ := h
  obtain ⟨l, front, number, unit⟩ := Cursor.exponential?_eq_some.1 starts
  simp only [Cursor.lexemes, Cursor.next, Cursor.peek] at front number
  cases tokens with
  | nil => cases front
  | times s s' => cases s <;> cases number
  | exponent => cases number
  | same x _ behind =>
    cases behind with
    | nil => cases front
    | times s s' => cases s <;> cases front
    | exponent =>
      cases front
      cases unit
    | same y _ rest => exact ⟨rest, stops⟩

end Ahead

/-! ### Expressions -/

theorem simulates_readEnclosed {m m' : Reading MeasureUnit} (nested : L.Simulates m m') :
    L.Simulates (readEnclosed m) (readEnclosed m') :=
  nested.bind fun u => simulates_expect_close.bind fun _ => simulates_pure u

theorem steps_annotate (u : MeasureUnit) (text : String) :
    L.Steps (u.annotate text) (u.annotate text) := by
  refine .refl fun e failed => ?_
  unfold MeasureUnit.annotate at failed
  split at failed <;> cases failed
  rfl

theorem simulates_readNote (u : MeasureUnit) : L.Simulates (readNote u) (readNote u) := by
  refine fun c c' h => h.lexeme fun x x' nexts => ?_
  cases nexts with
  | same x _ _ tail =>
    cases x with
    | note text => exact .skip tail fun _ _ h => outcome_lift h (steps_annotate u text)
    | _ => exact simulates_pure u h
  | times s s' => cases s <;> cases s' <;> exact simulates_pure u h
  | exponent => exact simulates_pure u h

/-- Operands are read alike if what stands in parentheses is. -/
theorem simulates_readOperand (table : SymbolTable) {m m' : Reading MeasureUnit}
    (nested : L.Simulates m m') :
    L.Simulates (readOperand table m) (readOperand table m') := by
  refine fun c c' h => h.token fun x x' nexts => ?_
  have number := simulates_readNumber.bind fun value =>
    (simulates_converter (Converter.scaling value)).bind fun scale =>
      simulates_readNote (L := L) (MeasureUnit.one.transform scale)
  cases nexts with
  | same x _ _ tail =>
    cases x with
    | number | plus | minus => exact number h
    | identifier name =>
      refine .skip tail fun c₁ c₁' h₁ => ?_
      cases table.unit? name with
      | some u => exact simulates_readNote u h₁
      | none => exact .error (.unknownUnit name h.position) h₁ rfl rfl
    | openParen => exact .skip tail ((simulates_readEnclosed nested).bind simulates_readNote)
    | note text => exact .skip tail fun _ _ h => outcome_lift h (steps_annotate _ text)
    | _ => exact simulates_unexpected _ h
  | times s s' => cases s <;> cases s' <;> exact simulates_unexpected _ h
  | exponent => exact simulates_unexpected _ h

theorem simulates_readLogarithm (base : LogBase) {m m' : Reading MeasureUnit}
    (nested : L.Simulates m m') :
    L.Simulates (readLogarithm m base) (readLogarithm m' base) :=
  simulates_expect_open.bind fun _ => (simulates_readEnclosed nested).bind fun u =>
    (simulates_converter _).bind fun k => simulates_pure (u.transform k)

theorem simulates_readPower (table : SymbolTable) {m m' : Reading MeasureUnit}
    (nested : L.Simulates m m') :
    L.Simulates (readPower table m) (readPower table m') := by
  intro c c' h
  by_cases starts : ∃ base, c.next = .logarithm base
  · obtain ⟨base, next⟩ := starts
    rw [readPower, readPower, bind_lexeme, bind_lexeme, next, (h.next_iff rfl).1 next]
    exact .skip (h.tail (by rw [next]; rfl)) (simulates_readLogarithm base nested)
  · have operand := simulates_readOperand table nested
    rw [readPower_eq fun base next => starts ⟨base, next⟩,
      readPower_eq fun base next => starts ⟨base, (h.next_iff rfl).2 next⟩, ← h.exponential?]
    cases exponential : c.exponential? with
    | some base =>
      have power := operand.bind fun u => (simulates_converter (Converter.expOf base)).bind fun k =>
        simulates_pure (u.transform k)
      exact (power (h.behind_exponential exponential)).before
        ((follows_tail c.tail).trans (follows_tail c))
        ((follows_tail c'.tail).trans (follows_tail c'))
    | none => exact operand.bind simulates_readExponent h

/-- Products and quotients of units fail in the arithmetic only. -/
theorem failsInArithmetic_apply (op : Operator) (u v : MeasureUnit) :
    MeasureUnit.FailsInArithmetic (op.apply u v) := by
  cases op with
  | times s => exact (MeasureUnit.onlyOverflows_mul u v).failsInArithmetic
  | divide => exact MeasureUnit.failsInArithmetic_div u v

theorem length_tail (there : c.next ≠ .endOfInput) : c.rest.length = c.tail.rest.length + 1 :=
  (Cursor.length_of_passes (Cursor.passes_next there)).trans (Nat.add_comm _ _)

/-- Where the first place has no more tokens, neither has the second. -/
theorem Matches.ended (h : L.Matches c c') (none : c.rest.length ≤ 0) :
    c.next = .endOfInput ∧ c'.next = .endOfInput := by
  obtain ⟨rest, stop, depth⟩ := c
  obtain ⟨rest', stop', depth'⟩ := c'
  cases List.eq_nil_of_length_eq_zero (Nat.le_zero.1 none)
  obtain ⟨tokens, -⟩ := h
  cases tokens
  exact ⟨rfl, rfl⟩

/-- The factors that follow, where both counts are large enough for all tokens. -/
theorem outcome_readFactors {m m' : Reading MeasureUnit} (operand : L.Simulates m m')
    {n n' : Nat} (h : L.Matches c c') (enough : c.rest.length ≤ n) (enough' : c'.rest.length ≤ n') :
    L.Outcome c c' (readFactors m n u c) (readFactors m' n' u c') := by
  induction n generalizing n' u c c' with
  | zero =>
    obtain ⟨ended, ended'⟩ := h.ended enough
    have no (op : Operator) : Lexeme.endOfInput ≠ op.lexeme := (operator_ne_endOfInput op).symm
    rw [readFactors_of_no_operator 0 (ended ▸ no), readFactors_of_no_operator n' (ended' ▸ no)]
    exact simulates_pure u h
  | succ n ih =>
    have step {op op' : Operator} (same : op.apply = op'.apply) (next : c.next = op.lexeme)
        (next' : c'.next = op'.lexeme) (tail : L.Matches c.tail c'.tail) :
        L.Outcome c c' (readFactors m (n + 1) u c) (readFactors m' n' u c') := by
      have length := length_tail (next ▸ operator_ne_endOfInput op)
      have length' := length_tail (next' ▸ operator_ne_endOfInput op')
      obtain ⟨k, rfl⟩ : ∃ k, n' = k + 1 := ⟨n' - 1, by omega⟩
      rw [readFactors_eq n next, readFactors_eq k next', same]
      refine Outcome.before ?_ (follows_tail c) (follows_tail c')
      refine (operand tail).bind fun w c₁ c₁' h₁ behind₁ behind₁' => ?_
      have product := outcome_unitAt h₁ h.position (failsInArithmetic_apply op' u w)
      refine product.bind fun v c₂ c₂' h₂ behind₂ behind₂' => ?_
      have shorter := (behind₂.trans behind₁).length
      have shorter' := (behind₂'.trans behind₁').length
      exact ih h₂ (by omega) (by omega)
    have none (none : ∀ op : Operator, c.next ≠ op.lexeme)
        (none' : ∀ op : Operator, c'.next ≠ op.lexeme) :
        L.Outcome c c' (readFactors m (n + 1) u c) (readFactors m' n' u c') := by
      rw [readFactors_of_no_operator (n + 1) none, readFactors_of_no_operator n' none']
      exact simulates_pure u h
    have nexts := h.nexts
    generalize hx : c.next = x at nexts
    generalize hx' : c'.next = x' at nexts
    cases nexts with
    | same x _ _ tail =>
      by_cases operator : ∃ op : Operator, x = op.lexeme
      · obtain ⟨op, rfl⟩ := operator
        exact step rfl hx hx' tail
      · rw [not_exists] at operator
        exact none (fun op => hx ▸ operator op) fun op => hx' ▸ operator op
    | times s s' _ _ tail =>
      have same : (Operator.times s).apply = (Operator.times s').apply := rfl
      exact step same hx hx' tail
    | exponent =>
      refine none (fun op => ?_) fun op => ?_
      · rw [hx]
        rcases op with (- | -) | - <;> simp [Operator.lexeme, Separator.lexeme]
      · rw [hx']
        rcases op with (- | -) | - <;> simp [Operator.lexeme, Separator.lexeme]

theorem simulates_readProduct (table : SymbolTable) {m m' : Reading MeasureUnit}
    (nested : L.Simulates m m') :
    L.Simulates (readProduct table m) (readProduct table m') := by
  have power := simulates_readPower table nested
  exact power.bind fun u c c' h => outcome_readFactors power h (Nat.le_refl _) (Nat.le_refl _)

theorem simulates_readLeadingOffset : L.Simulates readLeadingOffset readLeadingOffset := by
  intro c c' h
  rw [readLeadingOffset, bind_get, bind_get, ← h.startsWithOffset]
  cases c.startsWithOffset with
  | false => exact simulates_pure none h
  | true =>
    exact simulates_readNumber.bind (fun offset => simulates_readSign.bind fun sign =>
      simulates_pure (some (offset, sign))) h

theorem simulates_applyLeadingOffset (u : MeasureUnit) :
    (leading : Option (Rat × Sign)) →
      L.Simulates (applyLeadingOffset u leading) (applyLeadingOffset u leading)
  | none => simulates_pure u
  | some (_, .plus) => simulates_pure _
  | some (_, .minus) => (simulates_converter _).bind fun _ => simulates_pure _

theorem simulates_readTrailingOffset (u : MeasureUnit) :
    L.Simulates (readTrailingOffset u) (readTrailingOffset u) := by
  refine fun c c' h => h.lexeme fun x x' nexts => ?_
  cases nexts with
  | same x _ _ tail =>
    cases x.sign? with
    | none => exact simulates_pure u h
    | some sign =>
      exact .skip tail (simulates_readNumber.bind fun offset => simulates_pure _)
  | times s s' => cases s <;> cases s' <;> exact simulates_pure u h
  | exponent => exact simulates_pure u h

/-- Whether as many levels of nesting are left to both readings, or where that is excused, no fewer
to the second. -/
def Levels (L : Latitude) (n n' : Nat) : Prop := n = n' ∨ L.excused ∧ n ≤ n'

/-- Expressions are read alike. The induction is on the levels that are left to the first reading. -/
theorem simulates_offsetSum (table : SymbolTable) {n n' : Nat} (levels : L.Levels n n') :
    L.Simulates (offsetSum table n) (offsetSum table n') := by
  induction n generalizing n' with
  | zero =>
    intro c c' h
    cases n' with
    | zero => exact .error (.malformed h.position (Or.inl rfl)) ⟨h.tokens, h.stop⟩ rfl rfl
    | succ n' =>
      have excused : L.excused := levels.elim nofun And.left
      exact .excused excused rfl
  | succ n ih =>
    obtain ⟨k, rfl⟩ : ∃ k, n' = k + 1 := ⟨n' - 1, by rcases levels with eq | ⟨-, le⟩ <;> omega⟩
    have nested := ih (levels.imp Nat.succ.inj fun h => ⟨h.1, Nat.le_of_succ_le_succ h.2⟩)
    exact simulates_readLeadingOffset.bind fun leading => (simulates_readProduct table nested).bind
      fun u => (simulates_applyLeadingOffset u leading).bind simulates_readTrailingOffset

theorem readComponents_of_no_colon {m : Reading MeasureUnit} (count : Nat) (h : c.next ≠ .colon) :
    readComponents m u count c = .ok ⟨⟩ c := by
  cases count with
  | zero => rfl
  | succ count =>
    rw [readComponents, bind_lexeme, if_neg h]
    rfl

/-- The components that follow, where both counts are large enough for all tokens. -/
theorem outcome_readComponents {m m' : Reading MeasureUnit} (component : L.Simulates m m')
    {n n' : Nat} (h : L.Matches c c') (enough : c.rest.length ≤ n) (enough' : c'.rest.length ≤ n') :
    L.Outcome c c' (readComponents m u n c) (readComponents m' u n' c') := by
  induction n generalizing n' c c' with
  | zero =>
    obtain ⟨ended, ended'⟩ := h.ended enough
    rw [readComponents_of_no_colon 0 (by rw [ended]; decide),
      readComponents_of_no_colon n' (by rw [ended']; decide)]
    exact simulates_pure _ h
  | succ n ih =>
    by_cases colon : c.next = .colon
    · have colon' := (h.next_iff rfl).1 colon
      have tail := h.tail (by rw [colon]; rfl)
      have length : c.rest.length = c.tail.rest.length + 1 := length_tail (by rw [colon]; decide)
      have length' : c'.rest.length = c'.tail.rest.length + 1 := length_tail (by rw [colon']; decide)
      obtain ⟨k, rfl⟩ : ∃ k, n' = k + 1 := ⟨n' - 1, by omega⟩
      rw [readComponents, readComponents, bind_lexeme, bind_lexeme, if_pos colon, if_pos colon',
        bind_skip, bind_skip, bind_token, bind_token]
      refine Outcome.before ?_ (follows_tail c) (follows_tail c')
      refine (component tail).bind fun v c₁ c₁' h₁ behind₁ behind₁' => ?_
      have system := outcome_unitAt h₁ tail.position (MeasureUnit.failsInArithmetic_systemUnit v)
      refine system.bind fun other c₂ c₂' h₂ behind₂ behind₂' => ?_
      have shorter := (behind₂.trans behind₁).length
      have shorter' := (behind₂'.trans behind₁').length
      cases other == u with
      | true => exact ih h₂ (by omega) (by omega)
      | false => exact outcome_fail h₂ tail.position (Or.inl rfl) (fun _ => rfl) fun _ => rfl
    · have colon' := mt (h.next_iff rfl).2 colon
      rw [readComponents_of_no_colon (n + 1) colon, readComponents_of_no_colon n' colon']
      exact simulates_pure _ h

/-- Two whole readings from places that match come to results of the same meaning. -/
theorem outcome_readCompound (table : SymbolTable) (h : L.Matches c c')
    (levels : L.Levels (maxDepth - c.depth) (maxDepth - c'.depth)) :
    L.Outcome c c' (readCompound table c) (readCompound table c') := by
  have component := simulates_offsetSum table levels
  rw [readCompound, bind_get, bind_get, bind_token, bind_token]
  refine (component h).bind fun u c₁ c₁' h₁ _ _ => ?_
  rw [bind_lexeme, bind_lexeme]
  by_cases colon : c₁.next = .colon
  · rw [if_pos colon, if_pos ((h₁.next_iff rfl).1 colon)]
    have system := outcome_unitAt h₁ h.position (MeasureUnit.failsInArithmetic_systemUnit u)
    refine system.bind fun s c₂ c₂' h₂ _ _ => ?_
    have components := outcome_readComponents (u := s) component h₂ (Nat.le_refl _) (Nat.le_refl _)
    exact components.bind fun _ _ _ h₃ _ _ => simulates_pure u h₃
  · rw [if_neg colon, if_neg (mt (h₁.next_iff rfl).2 colon)]
    exact simulates_pure u h₁

/-- Reading two texts of the same meaning comes to the same, with as many levels of nesting. -/
theorem outcome_readExpression (table : SymbolTable) (h : L.Matches c c')
    (levels : L.Levels (maxDepth - c.depth) (maxDepth - c'.depth)) :
    L.Outcome c c' (readExpression table c) (readExpression table c') := by
  rw [readExpression, bind_lexeme, bind_lexeme]
  by_cases ended : c.next = .endOfInput
  · rw [if_pos ended, if_pos ((h.next_iff rfl).1 ended)]
    exact simulates_pure _ h
  · rw [if_neg ended, if_neg (mt (h.next_iff rfl).2 ended)]
    refine (outcome_readCompound table h levels).bind fun u c₁ c₁' h₁ _ _ => ?_
    rw [bind_lexeme, bind_lexeme]
    by_cases ended : c₁.next = .endOfInput
    · rw [if_pos ended, if_pos ((h₁.next_iff rfl).1 ended)]
      exact simulates_pure u h₁
    · rw [if_neg ended, if_neg (mt (h₁.next_iff rfl).2 ended)]
      exact simulates_unexpected _ h₁

end Metrology.Expression.Latitude
