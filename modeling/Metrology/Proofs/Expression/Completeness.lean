import Metrology.Proofs.Expression.Soundness

/-!
# Whatever has a derivation is read

A preferred derivation with a meaning is read from any place that it starts at, provided that
the next word after it does not carry it on. The one thing that can go wrong is that it nests
too deep: then the reader fails with that error, and with no other.
-/
namespace Metrology.Expression

open Reading

/-- Whether a word carries on an expression of the given strength that stands before it. -/
def Precedence.continues (p : Precedence) : Lexeme → Bool
  | .note _ => true
  | .caret | .superscript _ => p.strength ≤ Precedence.exponent.strength
  | .asterisk | .middleDot | .solidus => p.strength ≤ Precedence.product.strength
  | .plus | .minus => p.strength ≤ Precedence.addition.strength
  | _ => false

/-! ### Outcomes -/

/-- Whether a computation comes to the given result, unless the nesting is too deep. -/
def Reaches {α : Type} (r : EStateM.Result Error Cursor α) (deep : Prop)
    (r' : EStateM.Result Error Cursor α) : Prop :=
  (¬deep → r = r') ∧
    (deep → ∃ position c, r = .error (.malformed position (.tooDeep maxDepth)) c)

section Outcomes

variable {α β : Type} {r r' r'' : EStateM.Result Error Cursor α} {deep deep' : Prop}

theorem Reaches.of_eq (h : r = r') : Reaches r False r' := ⟨fun _ => h, False.elim⟩

/-- What is reached from a result is reached from the start, with both excuses. -/
theorem Reaches.trans (h : Reaches r deep r') (h' : Reaches r' deep' r'') :
    Reaches r (deep ∨ deep') r'' := by
  by_cases first : deep
  · exact ⟨fun shallow => absurd (Or.inl first) shallow, fun _ => h.2 first⟩
  · rw [h.1 first]
    refine ⟨fun shallow => h'.1 fun second => shallow (Or.inr second), ?_⟩
    rintro (second | second)
    · exact absurd second first
    · exact h'.2 second

theorem Reaches.congr (h : Reaches r deep r') (same : deep ↔ deep') : Reaches r deep' r' :=
  ⟨fun shallow => h.1 (mt same.1 shallow), fun deep => h.2 (same.2 deep)⟩

/-- After a reader that reaches its result the rest goes on from there. -/
theorem Reaches.bind {m : Reading α} {f : α → Reading β} {c c₁ : Cursor} {a : α}
    (h : Reaches (m c) deep (.ok a c₁)) : Reaches ((m >>= f) c) deep (f a c₁) := by
  constructor
  · intro shallow
    change EStateM.bind m f c = _
    rw [EStateM.bind, h.1 shallow]
  · intro first
    obtain ⟨position, c', error⟩ := h.2 first
    refine ⟨position, c', ?_⟩
    change EStateM.bind m f c = _
    rw [EStateM.bind, error]

/-- If what follows comes to the result, the first part alone can be too deep. -/
theorem Reaches.bind_eq {m : Reading α} {f : α → Reading β} {c c₁ : Cursor} {a : α}
    {r : EStateM.Result Error Cursor β} (h : Reaches (m c) deep (.ok a c₁)) (next : f a c₁ = r) :
    Reaches ((m >>= f) c) deep r :=
  next ▸ h.bind

theorem bind_of_eq_ok {m : Reading α} {f : α → Reading β} {c c₁ : Cursor} {a : α}
    (h : m c = .ok a c₁) : (m >>= f) c = f a c₁ := by
  change EStateM.bind m f c = _
  rw [EStateM.bind, h]

end Outcomes

/-- Whether a reader reads every preferred derivation that nests less than `limit` levels
deep, and fails for being too deep on any other. -/
def Complete (table : SymbolTable) (p : Precedence) (limit : Nat) (m : Reading MeasureUnit) : Prop :=
  ∀ (t : Tree p) (c c' : Cursor) (u : MeasureUnit), t.IsPreferred → t.eval table = some u →
    c.Passes t.lexemes c' → p.continues c'.next = false →
    Reaches (m c) (limit ≤ t.depth) (.ok u c')

/-! ### What exponents and offsets look like -/

theorem skipInteger?_lexemes (n : SignedInteger) (l : List Lexeme) :
    skipInteger? (n.lexemes ++ l) = some l := by
  obtain ⟨⟨sign, literal⟩, isInteger⟩ := n
  have digits : (Lexeme.number literal).integer?.isSome = true := by
    simp [Lexeme.integer?, show literal.isInteger = true from isInteger]
  rcases sign with - | - | - <;> exact if_pos digits

/-- An exponent is no unit. -/
theorem startsUnit_suffix {suffix : Suffix} {l rest : List Lexeme}
    (h : suffix.lexemes ++ rest = .caret :: l) : startsUnit l = false := by
  cases suffix with
  | plain n =>
    obtain ⟨⟨sign, literal⟩, isInteger⟩ := n
    cases h
    rcases sign with - | - | - <;> rfl
  | superscript digits => cases h
  | quotient p q =>
    cases q with
    | none =>
      cases h
      simp [startsUnit, startsExponent, skipInteger?_lexemes]
    | some q =>
      cases h
      simp [startsUnit, startsExponent, skipInteger?_lexemes]

/-- A product is a number alone or does not start with a number and a sign. -/
theorem number_or_startsOffset_eq_false : (t : Tree .product) →
    (∃ n : SignedNumber, t.lexemes = n.lexemes) ∨
      ∀ rest, startsOffset (t.lexemes ++ rest) = false
  | .single (.logarithm _ _) => Or.inr fun _ => rfl
  | .single (.exponential base _) => Or.inr fun _ => by cases base <;> rfl
  | .single (.power (.symbol _ _) _) => Or.inr fun _ => rfl
  | .single (.power (.enclosed _ _) _) => Or.inr fun _ => rfl
  | .single (.power (.bareNote _) _) => Or.inr fun _ => rfl
  | .single (.power (.number n note) suffix) => by
    cases note with
    | none =>
      cases suffix with
      | none => exact Or.inl ⟨n, by simp [Tree.lexemes, noteLexemes]⟩
      | some suffix =>
        refine Or.inr fun rest => ?_
        simp only [Tree.lexemes, List.append_assoc, startsOffset_number]
        rcases suffix with - | ⟨-, - | -⟩ | - <;> rfl
    | some text =>
      refine Or.inr fun rest => ?_
      simp only [Tree.lexemes, List.append_assoc, startsOffset_number]
      rfl
  | .chain left op right => by
    refine Or.inr fun rest => ?_
    rw [Tree.lexemes, List.append_assoc]
    rcases number_or_startsOffset_eq_false left with ⟨n, eq⟩ | none
    · rw [eq, startsOffset_number]
      rcases op with sign | -
      · cases sign <;> rfl
      · rfl
    · exact none _

/-- Without an offset in front a sum does not look as if it had one, whatever follows. -/
theorem startsOffset_eq_false {t : Tree .product} {trailing : Option (Sign × SignedNumber)}
    {c : Cursor} (preferred : startsOffset (t.lexemes ++ trailingLexemes trailing) = false)
    (next : c.next.sign? = none) :
    startsOffset (t.lexemes ++ trailingLexemes trailing ++ c.lexemes) = false := by
  rcases number_or_startsOffset_eq_false t with ⟨n, eq⟩ | none
  · rw [eq, List.append_assoc, startsOffset_number]
    cases trailing with
    | none =>
      rw [Cursor.next_eq_getD] at next
      cases words : c.lexemes with
      | nil => rfl
      | cons x l =>
        rw [words] at next
        simp [trailingLexemes, show x.sign? = none from next]
    | some trailing =>
      rw [eq, startsOffset_number] at preferred
      simp [trailingLexemes, sign?_lexeme] at preferred
  · rw [List.append_assoc]
    exact none _

/-! ### Readers -/

/-- A word that does not carry on an expression does not carry on a stronger one. -/
theorem continues_mono {p q : Precedence} {x : Lexeme} (h : p.strength ≤ q.strength)
    (stops : p.continues x = false) : q.continues x = false := by
  cases x <;> simp_all [Precedence.continues] <;> omega

section Readers

variable {table : SymbolTable} {nested : Reading MeasureUnit} {levels : Nat}

/-- Parentheses take one level for what stands in them. -/
theorem complete_readEnclosed (h : Complete table .addition levels nested) {t : Tree .addition}
    {c c' : Cursor} {u : MeasureUnit} (preferred : t.IsPreferred) (eval : t.eval table = some u)
    (passes : c.Passes (t.lexemes ++ [.closeParen]) c') :
    Reaches (readEnclosed nested c) (levels ≤ t.depth) (.ok u c') := by
  obtain ⟨c₁, inner, close⟩ := Cursor.passes_append.1 passes
  have stops : Precedence.addition.continues c₁.next = false := by
    rw [Cursor.next_of_passes close]
    rfl
  exact (h t c c₁ u preferred eval inner stops).bind_eq
    (bind_eq_ok.2 ⟨⟨⟩, c', expect_close_eq_ok.2 close, rfl⟩)

theorem note_of_continues {p : Precedence} {x : Lexeme} (h : p.continues x = false) (text : String) :
    x ≠ .note text := by
  rintro rfl
  cases h

/-- Operands are read completely one level deeper than what they nest. -/
theorem complete_readOperand (h : Complete table .addition levels nested) :
    Complete table .atom (levels + 1) (readOperand table nested) := by
  intro t c c' u preferred eval passes stops
  rw [readOperand, bind_token]
  cases t with
  | number n note =>
    refine (Reaches.of_eq ?_).congr (by simp [Tree.depth])
    obtain ⟨c₁, number, behind⟩ := Cursor.passes_append.1 passes
    obtain ⟨value, known, eval⟩ := Option.bind_eq_some_iff.1 eval
    obtain ⟨scale, scaling, annotated⟩ := Option.bind_eq_some_iff.1 eval
    have reads : (do
        let value ← readNumber
        let scale ← converter (Converter.scaling value)
        readNote (MeasureUnit.one.transform scale)) c = .ok u c' := by
      rw [bind_of_eq_ok (readNumber_eq_ok.2 ⟨n, number, known⟩),
        bind_of_eq_ok (converter_eq_ok.2 ⟨scaling, rfl⟩)]
      exact readNote_eq_ok.2 ⟨note, behind, annotated, fun _ => note_of_continues stops⟩
    obtain ⟨sign, literal⟩ := n
    rcases sign with - | - | - <;>
    · have next : (c.peek 0).lexeme = _ := Cursor.next_of_passes number
      simp only [next]
      exact reads
  | symbol name note =>
    refine (Reaches.of_eq ?_).congr (by simp [Tree.depth])
    obtain ⟨c₁, front, behind⟩ := Cursor.passes_cons.1 passes
    obtain ⟨v, known, annotated⟩ := Option.bind_eq_some_iff.1 eval
    have next : (c.peek 0).lexeme = .identifier name := Cursor.next_of_passes front
    simp only [next, bind_skip, Cursor.tail_of_passes front, known]
    exact readNote_eq_ok.2 ⟨note, behind, annotated, fun _ => note_of_continues stops⟩
  | bareNote text =>
    refine (Reaches.of_eq ?_).congr (by simp [Tree.depth])
    have next : (c.peek 0).lexeme = .note text := Cursor.next_of_passes passes
    simp only [next, bind_skip, Cursor.tail_of_passes passes]
    exact lift_eq_ok.2 ⟨eval, rfl⟩
  | enclosed inner note =>
    have passes : c.Passes (.openParen :: ((inner.lexemes ++ [.closeParen]) ++ noteLexemes note)) c' := by
      simpa [Tree.lexemes] using passes
    obtain ⟨c₁, front, passes⟩ := Cursor.passes_cons.1 passes
    obtain ⟨c₂, enclosed, behind⟩ := Cursor.passes_append.1 passes
    obtain ⟨v, evalInner, annotated⟩ := Option.bind_eq_some_iff.1 eval
    have next : (c.peek 0).lexeme = .openParen := Cursor.next_of_passes front
    simp only [next, bind_skip, Cursor.tail_of_passes front]
    refine ((complete_readEnclosed h preferred evalInner enclosed).bind_eq ?_).congr
      Nat.succ_le_succ_iff.symm
    exact readNote_eq_ok.2 ⟨note, behind, annotated, fun _ => note_of_continues stops⟩

/-- What stands before an exponent is not read as the base of an exponential. -/
theorem exponential?_eq_none {operand : Tree .atom} {suffix : Option Suffix} {c c' : Cursor}
    (passes : c.Passes (Tree.power operand suffix).lexemes c') (stops : c'.next ≠ .caret) :
    c.exponential? = none := by
  refine Option.eq_none_iff_forall_ne_some.2 fun value found => ?_
  obtain ⟨l, words, isBase, starts⟩ := Cursor.exponential?_eq_some.1 found
  rw [Cursor.lexemes_of_passes passes, Tree.lexemes, List.append_assoc] at words
  have behind : ∀ l', l' = Lexeme.caret :: l →
      (suffix.map Suffix.lexemes).getD [] ++ c'.lexemes ≠ l' := by
    rintro l' rfl eq
    cases suffix with
    | none => exact stops (Cursor.next_eq_of_lexemes eq)
    | some suffix =>
      rw [startsUnit_suffix eq] at starts
      cases starts
  cases operand with
  | number n note =>
    obtain ⟨sign, literal⟩ := n
    cases note with
    | some text => rcases sign with - | - | - <;> cases (List.cons.inj words).2
    | none =>
      rcases sign with - | - | -
      · exact behind _ (List.cons.inj words).2 rfl
      · rw [← (List.cons.inj words).1] at isBase
        cases isBase
      · rw [← (List.cons.inj words).1] at isBase
        cases isBase
  | symbol name note =>
    cases note with
    | some text => cases (List.cons.inj words).2
    | none => exact behind _ (List.cons.inj words).2 rfl
  | bareNote text =>
    rw [← (List.cons.inj words).1] at isBase
    cases isBase
  | enclosed inner note =>
    rw [← (List.cons.inj words).1] at isBase
    cases isBase

theorem next_ne_logarithm {t : Tree .atom} {c c' : Cursor} {l : List Lexeme}
    (passes : c.Passes (t.lexemes ++ l) c') (base : LogBase) : c.next ≠ .logarithm base := by
  cases t with
  | number n note =>
    obtain ⟨sign, literal⟩ := n
    rcases sign with - | - | - <;>
    · rw [Cursor.next_of_passes passes]
      nofun
  | _ =>
    rw [Cursor.next_of_passes passes]
    nofun

theorem readPower_eq {c : Cursor} (h : ∀ base, c.next ≠ .logarithm base) :
    readPower table nested c = (do
      match c.exponential? with
      | some base =>
        skip
        skip
        let u ← readOperand table nested
        return u.transform (← converter (Converter.expOf base))
      | none => readExponent (← readOperand table nested)) c := by
  rw [readPower, bind_lexeme]
  cases next : c.next with
  | logarithm base => exact absurd next (h base)
  | _ => rfl

/-- Logarithms take one level as well. -/
theorem complete_readLogarithm (h : Complete table .addition levels nested) {base : LogBase}
    {inner : Tree .addition} {c c' : Cursor} {u : MeasureUnit} (preferred : inner.IsPreferred)
    (eval : (Tree.logarithm base inner).eval table = some u)
    (passes : c.Passes (Tree.logarithm base inner).lexemes c') :
    Reaches (readPower table nested c) (levels ≤ inner.depth) (.ok u c') := by
  obtain ⟨c₁, front, passes⟩ := Cursor.passes_cons.1 passes
  obtain ⟨c₂, paren, enclosed⟩ := Cursor.passes_cons.1 passes
  obtain ⟨v, evalInner, eval⟩ := Option.bind_eq_some_iff.1 eval
  obtain ⟨k, log, eval⟩ := Option.bind_eq_some_iff.1 eval
  cases eval
  rw [readPower, bind_lexeme]
  simp only [Cursor.next_of_passes front, bind_skip, Cursor.tail_of_passes front]
  rw [readLogarithm, bind_of_eq_ok (expect_open_eq_ok.2 paren)]
  exact (complete_readEnclosed h preferred evalInner enclosed).bind_eq
    (bind_eq_ok.2 ⟨k, c', converter_eq_ok.2 ⟨log, rfl⟩, rfl⟩)

theorem complete_exponential (h : Complete table .addition levels nested) {base : Base}
    {operand : Tree .atom} {c c' : Cursor} {u : MeasureUnit}
    (preferred : (Tree.exponential base operand).IsPreferred)
    (eval : (Tree.exponential base operand).eval table = some u)
    (passes : c.Passes (Tree.exponential base operand).lexemes c')
    (stops : Precedence.atom.continues c'.next = false) :
    Reaches (readPower table nested c) (levels + 1 ≤ operand.depth) (.ok u c') := by
  obtain ⟨starts, preferred⟩ := preferred
  obtain ⟨c₁, front, back⟩ := Cursor.passes_cons.1 passes
  obtain ⟨c₂, caret, back⟩ := Cursor.passes_cons.1 back
  obtain ⟨v, evalOperand, eval⟩ := Option.bind_eq_some_iff.1 eval
  obtain ⟨k, exp, eval⟩ := Option.bind_eq_some_iff.1 eval
  cases eval
  have next := Cursor.next_of_passes front
  have found : c.exponential? = some base.value := by
    refine Cursor.exponential?_eq_some.2 ⟨operand.lexemes ++ c'.lexemes, ?_, ?_, ?_⟩
    · rw [Cursor.lexemes_of_passes passes, next]
      rfl
    · exact exponentialBase?_eq_some.2 ⟨base, next, rfl⟩
    · rw [startsUnit_operand, starts]
  rw [readPower_eq (by rw [next]; cases base <;> simp [Base.lexeme]), found]
  simp only [bind_skip, Cursor.tail_of_passes front, Cursor.tail_of_passes caret]
  exact (complete_readOperand h operand c₂ c' v preferred evalOperand back stops).bind_eq
    (bind_eq_ok.2 ⟨k, c', converter_eq_ok.2 ⟨exp, rfl⟩, rfl⟩)

/-- An exponent does not carry on the operand that it is on. -/
theorem continues_suffix {suffix : Option Suffix} {c c' : Cursor}
    (passes : c.Passes ((suffix.map Suffix.lexemes).getD []) c')
    (stops : Precedence.atom.continues c'.next = false) :
    Precedence.atom.continues c.next = false := by
  cases suffix with
  | none =>
    cases Cursor.passes_nil.1 passes
    exact stops
  | some suffix =>
    rcases suffix with n | ⟨p, - | q⟩ | digits <;>
    · rw [Cursor.next_of_passes passes]
      rfl

theorem exists_eval_operand {operand : Tree .atom} {suffix : Option Suffix} {u : MeasureUnit}
    (eval : (Tree.power operand suffix).eval table = some u) :
    ∃ v, operand.eval table = some v ∧ suffix.elim (some v) (Suffix.apply v) = some u := by
  cases suffix with
  | none => exact ⟨u, eval, rfl⟩
  | some suffix => exact Option.bind_eq_some_iff.1 eval

theorem complete_power (h : Complete table .addition levels nested) {operand : Tree .atom}
    {suffix : Option Suffix} {c c' : Cursor} {u : MeasureUnit} (preferred : operand.IsPreferred)
    (eval : (Tree.power operand suffix).eval table = some u)
    (passes : c.Passes (Tree.power operand suffix).lexemes c')
    (stops : Precedence.exponent.continues c'.next = false) :
    Reaches (readPower table nested c) (levels + 1 ≤ operand.depth) (.ok u c') := by
  obtain ⟨c₁, front, back⟩ := Cursor.passes_append.1 passes
  obtain ⟨v, evalOperand, power⟩ := exists_eval_operand eval
  have noCaret : c'.next ≠ .caret := by
    intro next
    rw [next] at stops
    cases stops
  have noSuperscript : ∀ digits, c'.next ≠ .superscript digits := by
    intro digits next
    rw [next] at stops
    cases stops
  have between := continues_suffix back (continues_mono (by decide) stops)
  rw [readPower_eq (next_ne_logarithm passes), exponential?_eq_none passes noCaret]
  exact (complete_readOperand h operand c c₁ v preferred evalOperand front between).bind_eq
    (readExponent_eq_ok.2 ⟨suffix, back, power, fun _ => ⟨noCaret, noSuperscript⟩⟩)

theorem complete_readPower (h : Complete table .addition levels nested) :
    Complete table .exponent (levels + 1) (readPower table nested) := by
  intro t c c' u preferred eval passes stops
  cases t with
  | logarithm base inner =>
    exact (complete_readLogarithm h preferred eval passes).congr Nat.succ_le_succ_iff.symm
  | exponential base operand =>
    exact complete_exponential h preferred eval passes (continues_mono (by decide) stops)
  | power operand suffix => exact complete_power h preferred eval passes stops

theorem continues_operator (op : Operator) :
    Precedence.exponent.continues op.lexeme = false ∧ Precedence.product.continues op.lexeme = true := by
  rcases op with sign | -
  · cases sign <;> exact ⟨rfl, rfl⟩
  · exact ⟨rfl, rfl⟩

/-- A product is read up to its end, from where the factors that follow are read. -/
theorem reaches_readFactors (h : Complete table .addition levels nested) : (t : Tree .product) →
    ∀ (c c' : Cursor) (u : MeasureUnit), t.IsPreferred → t.eval table = some u →
      c.Passes t.lexemes c' → Precedence.exponent.continues c'.next = false →
      ∃ count, c'.rest.length ≤ count ∧
        Reaches (readProduct table nested c) (levels + 1 ≤ t.depth)
          (readFactors (readPower table nested) count u c')
  | .single factor, c, c', u, preferred, eval, passes, stops =>
    ⟨c'.rest.length, Nat.le_refl _,
      (complete_readPower h factor c c' u preferred eval passes stops).bind⟩
  | .chain left op right, c, c', u, preferred, eval, passes, stops => by
    obtain ⟨c₁, front, back⟩ := Cursor.passes_append.1 passes
    obtain ⟨c₂, operator, back⟩ := Cursor.passes_cons.1 back
    obtain ⟨v, evalLeft, eval⟩ := Option.bind_eq_some_iff.1 eval
    obtain ⟨w, evalRight, applied⟩ := Option.bind_eq_some_iff.1 eval
    have next := Cursor.next_of_passes operator
    have between : Precedence.exponent.continues c₁.next = false := by
      rw [next, (continues_operator op).1]
    obtain ⟨count, enough, reaches⟩ :=
      reaches_readFactors h left c c₁ v preferred.1 evalLeft front between
    rw [Cursor.length_of_passes operator, Cursor.length_of_passes back, List.length_singleton] at enough
    cases count with
    | zero => omega
    | succ count =>
      have step : Reaches (readFactors (readPower table nested) (count + 1) v c₁)
          (levels + 1 ≤ right.depth) (readFactors (readPower table nested) count u c') := by
        rw [readFactors_eq count next, Cursor.tail_of_passes operator]
        have joined : unitAt (c₁.peek 0).position (op.apply v w) c' = .ok u c' :=
          unitAt_eq_ok.2 ⟨applied, rfl⟩
        have factor := complete_readPower h right c₂ c' w preferred.2 evalRight back stops
        exact factor.bind_eq (bind_of_eq_ok joined)
      exact ⟨count, by omega, (reaches.trans step).congr (by rw [Tree.depth]; omega)⟩

theorem complete_readProduct (h : Complete table .addition levels nested) :
    Complete table .product (levels + 1) (readProduct table nested) := by
  intro t c c' u preferred eval passes stops
  obtain ⟨count, -, reaches⟩ := reaches_readFactors h t c c' u preferred eval passes
    (continues_mono (by decide) stops)
  have ends : ∀ op : Operator, c'.next ≠ op.lexeme := by
    intro op next
    rw [next, (continues_operator op).2] at stops
    cases stops
  rwa [readFactors_of_no_operator count ends] at reaches

end Readers

theorem sign?_of_continues {x : Lexeme} (h : Precedence.addition.continues x = false) :
    x.sign? = none := by
  cases x <;> first | rfl | cases h

/-- The sign of an offset behind a product does not carry the product on. -/
theorem continues_trailing {trailing : Option (Sign × SignedNumber)} {c c' : Cursor}
    (passes : c.Passes (trailingLexemes trailing) c')
    (stops : Precedence.addition.continues c'.next = false) :
    Precedence.product.continues c.next = false := by
  cases trailing with
  | none =>
    cases Cursor.passes_nil.1 passes
    exact continues_mono (by decide) stops
  | some trailing =>
    rw [Cursor.next_of_passes passes]
    cases trailing.1 <;> rfl

/-- An offset in front of a product is read there, and shifts the product once that is read. -/
theorem exists_leadingOffset {leading : Option (SignedNumber × Sign)} {c c₁ : Cursor}
    {v w : MeasureUnit} (c₂ : Cursor) (led : leadingShift v leading = some w)
    (passes : c.Passes (leadingLexemes leading) c₁)
    (bare : leading = none → startsOffset c₁.lexemes = false) :
    ∃ value, readLeadingOffset c = .ok value c₁ ∧ applyLeadingOffset v value c₂ = .ok w c₂ := by
  cases leading with
  | none =>
    cases Cursor.passes_nil.1 passes
    exact ⟨none, readLeadingOffset_eq_ok.2 (Or.inl ⟨bare rfl, rfl, rfl⟩),
      (applyLeadingOffset_eq_ok none (Or.inl ⟨rfl, rfl⟩)).2 ⟨led, rfl⟩⟩
  | some leading =>
    obtain ⟨n, sign⟩ := leading
    have known : ∃ x, n.value? = some x := by
      cases known : n.value? with
      | some x => exact ⟨x, rfl⟩
      | none => cases sign <;> simp [leadingShift, known] at led
    obtain ⟨x, known⟩ := known
    exact ⟨some (x, sign), readLeadingOffset_eq_ok.2 (Or.inr ⟨n, sign, x, passes, known, rfl⟩),
      (applyLeadingOffset_eq_ok (some (n, sign)) (Or.inr ⟨n, sign, x, rfl, known, rfl⟩)).2 ⟨led, rfl⟩⟩

theorem complete_offsetSum (table : SymbolTable) (levels : Nat) :
    Complete table .addition levels (offsetSum table levels) := by
  induction levels with
  | zero => exact fun t c c' u _ _ _ _ => ⟨fun shallow => absurd (Nat.zero_le _) shallow, fun _ => ⟨_, _, rfl⟩⟩
  | succ levels ih =>
    intro t c c' u preferred eval passes stops
    cases t with | sum leading product trailing =>
    obtain ⟨c₂, front, behind⟩ := Cursor.passes_append.1 passes
    obtain ⟨c₁, front, middle⟩ := Cursor.passes_append.1 front
    obtain ⟨v, evalProduct, eval⟩ := Option.bind_eq_some_iff.1 eval
    obtain ⟨w, led, trailed⟩ := Option.bind_eq_some_iff.1 eval
    have unsigned := sign?_of_continues stops
    have between := continues_trailing behind stops
    have offset := exists_leadingOffset c₂ led front fun bare => by
      rw [Cursor.lexemes_of_passes (middle.trans behind)]
      exact startsOffset_eq_false (preferred.1 bare) unsigned
    obtain ⟨value, readsLeading, applies⟩ := offset
    rw [offsetSum, bind_of_eq_ok readsLeading]
    refine (complete_readProduct ih product c₁ c₂ v preferred.2 evalProduct middle between).bind_eq ?_
    rw [bind_of_eq_ok applies]
    exact readTrailingOffset_eq_ok.2 ⟨trailing, behind, trailed, fun _ => unsigned⟩

/-! ### Compounds -/

def Compound.IsDeep (t : Compound) (levels : Nat) : Prop :=
  levels ≤ t.first.depth ∨ ∃ component ∈ t.rest, levels ≤ component.depth

/-- Whether no expression can go on with a word. -/
def IsFinal (x : Lexeme) : Prop := Precedence.addition.continues x = false ∧ x ≠ .colon

theorem continues_components {rest : List (Tree .addition)} {c c' : Cursor}
    (passes : c.Passes (rest.flatMap fun component => .colon :: component.lexemes) c')
    (final : IsFinal c'.next) : Precedence.addition.continues c.next = false := by
  cases rest with
  | nil =>
    cases Cursor.passes_nil.1 passes
    exact final.1
  | cons t rest =>
    rw [Cursor.next_of_passes passes]
    rfl

theorem length_le_length_components (rest : List (Tree .addition)) :
    rest.length ≤ (rest.flatMap fun component => Lexeme.colon :: component.lexemes).length := by
  induction rest with
  | nil => exact Nat.le_refl _
  | cons t rest ih =>
    simp only [List.flatMap_cons, List.cons_append, List.length_cons, List.length_append]
    omega

theorem reaches_readComponents {table : SymbolTable} (levels : Nat) {count : Nat} {system : MeasureUnit}
    {rest : List (Tree .addition)} {c c' : Cursor}
    (preferred : ∀ component ∈ rest, component.IsPreferred)
    (systems : rest.all (Tree.hasSystem table system) = true)
    (passes : c.Passes (rest.flatMap fun component => .colon :: component.lexemes) c')
    (final : IsFinal c'.next) (enough : rest.length ≤ count) :
    Reaches (readComponents (offsetSum table levels) system count c)
      (∃ component ∈ rest, levels ≤ component.depth) (.ok ⟨⟩ c') := by
  induction rest generalizing c count with
  | nil =>
    cases Cursor.passes_nil.1 passes
    refine (Reaches.of_eq ?_).congr (by simp)
    cases count with
    | zero => rfl
    | succ count =>
      rw [readComponents, bind_lexeme, if_neg final.2]
      rfl
  | cons t rest ih =>
    cases count with
    | zero => simp at enough
    | succ count =>
      obtain ⟨c₁, colon, back⟩ := Cursor.passes_cons.1 passes
      obtain ⟨c₂, component, back⟩ := Cursor.passes_append.1 back
      simp only [List.all_cons, Bool.and_eq_true] at systems
      obtain ⟨u, eval, sameSystem⟩ := (Option.any_eq_true _ _).1 systems.1
      obtain ⟨other, found, same⟩ := (Option.any_eq_true _ _).1 sameSystem
      rw [readComponents, bind_lexeme, if_pos (Cursor.next_of_passes colon), bind_skip, bind_token,
        Cursor.tail_of_passes colon]
      have first := complete_offsetSum table levels t c₁ c₂ u (preferred t (by simp)) eval component
        (continues_components back final)
      have located : unitAt (c₁.peek 0).position u.systemUnit c₂ = .ok other c₂ :=
        unitAt_eq_ok.2 ⟨found, rfl⟩
      have others := ih (fun x hx => preferred x (by simp [hx])) systems.2 back
        (Nat.le_of_succ_le_succ enough)
      have step : (do
          let other ← unitAt (c₁.peek 0).position u.systemUnit
          if other == system then readComponents (offsetSum table levels) system count
          else fail (c₁.peek 0).position .incompatibleComponents) c₂ =
          readComponents (offsetSum table levels) system count c₂ := by
        rw [bind_of_eq_ok located, if_pos same]
      exact (first.bind.trans ((Reaches.of_eq step).trans others)).congr (by simp)

theorem reaches_readCompound {table : SymbolTable} {t : Compound} {c c' : Cursor} {u : MeasureUnit}
    (preferred : t.IsPreferred) (eval : t.eval table = some u) (passes : c.Passes t.lexemes c')
    (final : IsFinal c'.next) :
    Reaches (readCompound table c) (t.IsDeep (maxDepth - c.depth)) (.ok u c') := by
  obtain ⟨c₁, front, back⟩ := Cursor.passes_append.1 passes
  obtain ⟨v, evalFirst, eval⟩ := Option.bind_eq_some_iff.1 eval
  rw [readCompound, bind_get, bind_token]
  have first := complete_offsetSum table (maxDepth - c.depth) t.first c c₁ v preferred.1 evalFirst
    front (continues_components back final)
  refine (first.bind.trans ?_).congr Iff.rfl
  rw [bind_lexeme]
  cases rest : t.rest with
  | nil =>
    rw [rest] at back eval
    cases Cursor.passes_nil.1 back
    cases eval
    rw [if_neg final.2]
    exact (Reaches.of_eq rfl).congr (by simp)
  | cons component components =>
    rw [rest] at back
    rw [if_neg (by simp [rest]), rest] at eval
    obtain ⟨system, found, eval⟩ := Option.bind_eq_some_iff.1 eval
    split at eval
    · rename_i systems
      cases eval
      rw [if_pos (Cursor.next_of_passes back)]
      have located : unitAt (c.peek 0).position u.systemUnit c₁ = .ok system c₁ :=
        unitAt_eq_ok.2 ⟨found, rfl⟩
      rw [bind_of_eq_ok located, bind_get]
      have enough : (component :: components).length ≤ c₁.rest.length := by
        have words := length_le_length_components (component :: components)
        have passed := Cursor.length_of_passes back
        omega
      have others := reaches_readComponents (maxDepth - c.depth)
        (fun x hx => preferred.2 x (by rwa [rest])) systems back final enough
      exact others.bind_eq rfl
    · cases eval

end Metrology.Expression
