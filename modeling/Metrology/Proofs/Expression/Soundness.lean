import Metrology.Proofs.Expression.Reading

/-!
# Whatever is read has a derivation

A reader is `Sound` when for every success there is a preferred derivation whose words it
passed and whose meaning it returned. Each reader is sound if the reader for what is nested
in it is, and the recursion on the levels of nesting closes the circle.
-/
namespace Metrology.Expression

open Reading

/-- Whether what a reader returns is the meaning of a derivation of what it passes. -/
def Sound (table : SymbolTable) (p : Precedence) (m : Reading MeasureUnit) : Prop :=
  ∀ (c c' : Cursor) (u : MeasureUnit), m c = .ok u c' →
    ∃ t : Tree p, c.Passes t.lexemes c' ∧ t.IsPreferred ∧ t.eval table = some u

theorem exponentialBase?_eq_some {x : Lexeme} {value : Float} :
    exponentialBase? x = some value ↔ ∃ base : Base, x = base.lexeme ∧ base.value = value := by
  constructor
  · intro h
    cases x with
    | identifier name =>
      simp only [exponentialBase?] at h
      split at h
      · rename_i euler
        exact ⟨.euler, by rw [euler]; rfl, Option.some.inj h⟩
      · cases h
    | number literal =>
      obtain ⟨digits, eq, rfl⟩ := Option.map_eq_some_iff.1 h
      obtain ⟨other, same, isInteger, rfl⟩ := integer?_eq_some.1 eq
      exact ⟨.integer other isInteger, same, rfl⟩
    | _ => cases h
  · rintro ⟨base, rfl, rfl⟩
    cases base with
    | euler => rfl
    | integer literal isInteger =>
      simp [exponentialBase?, Base.lexeme, Lexeme.integer?, isInteger, Base.value]

/-- Whether a unit follows a caret shows in the words of the unit. -/
theorem startsUnit_operand (t : Tree .atom) (rest : List Lexeme) :
    startsUnit (t.lexemes ++ rest) = startsUnit t.lexemes := by
  cases t with
  | number n note =>
    obtain ⟨sign, literal⟩ := n
    rcases sign with - | - | - <;> rfl
  | symbol name note => rfl
  | bareNote text => rfl
  | enclosed inner note =>
    simp only [Tree.lexemes, List.cons_append, List.append_assoc, startsUnit]
    rw [startsExponent_append, startsExponent_append inner.lexemes (noteLexemes note)]

section Readers

variable {table : SymbolTable} {nested : Reading MeasureUnit}

theorem enclosed_of_readEnclosed (h : Sound table .addition nested) {c c' : Cursor} {u : MeasureUnit}
    (ok : readEnclosed nested c = .ok u c') :
    ∃ t : Tree .addition, c.Passes (t.lexemes ++ [.closeParen]) c' ∧ t.IsPreferred ∧
      t.eval table = some u := by
  obtain ⟨v, c₁, inner, ok⟩ := bind_eq_ok.1 ok
  obtain ⟨⟨⟩, c₂, close, ok⟩ := bind_eq_ok.1 ok
  obtain ⟨rfl, rfl⟩ := pure_eq_ok.1 ok
  obtain ⟨t, passes, preferred, eval⟩ := h c c₁ v inner
  exact ⟨t, passes.trans (expect_close_eq_ok.1 close), preferred, eval⟩

theorem number_of_readOperand {c c' : Cursor} {u : MeasureUnit}
    (ok : (do
      let value ← readNumber
      let scale ← converter (Converter.scaling value)
      readNote (MeasureUnit.one.transform scale)) c = .ok u c') :
    ∃ t : Tree .atom, c.Passes t.lexemes c' ∧ t.IsPreferred ∧ t.eval table = some u := by
  obtain ⟨value, c₁, number, ok⟩ := bind_eq_ok.1 ok
  obtain ⟨scale, c₂, scaled, ok⟩ := bind_eq_ok.1 ok
  obtain ⟨n, passes, known⟩ := readNumber_eq_ok.1 number
  obtain ⟨scaling, rfl⟩ := converter_eq_ok.1 scaled
  obtain ⟨note, passes', annotated, -⟩ := readNote_eq_ok.1 ok
  refine ⟨.number n note, passes.trans passes', trivial, ?_⟩
  simp [Tree.eval, known, scaling, annotated]

/-- An operand that is read is derived, if what it nests is. -/
theorem sound_readOperand (h : Sound table .addition nested) :
    Sound table .atom (readOperand table nested) := by
  intro c c' u ok
  rw [readOperand, bind_token] at ok
  cases next : (c.peek 0).lexeme with
  | number _ | plus | minus =>
    simp only [next] at ok
    exact number_of_readOperand ok
  | identifier name =>
    simp only [next, bind_skip] at ok
    cases known : table.unit? name with
    | none => simp [known] at ok
    | some v =>
      simp only [known] at ok
      obtain ⟨note, passes, annotated, -⟩ := readNote_eq_ok.1 ok
      refine ⟨.symbol name note, (Cursor.passes_of_next next (by simp)).trans passes, trivial, ?_⟩
      simp [Tree.eval, known, annotated]
  | openParen =>
    simp only [next, bind_skip] at ok
    obtain ⟨v, c₁, inner, ok⟩ := bind_eq_ok.1 ok
    obtain ⟨t, passes, preferred, eval⟩ := enclosed_of_readEnclosed h inner
    obtain ⟨note, passes', annotated, -⟩ := readNote_eq_ok.1 ok
    refine ⟨.enclosed t note, ?_, preferred, ?_⟩
    · have paren := Cursor.passes_of_next next (by simp)
      simpa [Tree.lexemes] using paren.trans (passes.trans passes')
    · simp [Tree.eval, eval, annotated]
  | note text =>
    simp only [next, bind_skip] at ok
    obtain ⟨annotated, rfl⟩ := lift_eq_ok.1 ok
    exact ⟨.bareNote text, Cursor.passes_of_next next (by simp), trivial, annotated⟩
  | _ => simp [next] at ok

theorem sound_readLogarithm (h : Sound table .addition nested) {base : LogBase} {c c' : Cursor}
    {u : MeasureUnit} (next : c.next = .logarithm base)
    (ok : readLogarithm nested base c.tail = .ok u c') :
    ∃ t : Tree .exponent, c.Passes t.lexemes c' ∧ t.IsPreferred ∧ t.eval table = some u := by
  obtain ⟨⟨⟩, c₁, paren, ok⟩ := bind_eq_ok.1 ok
  obtain ⟨v, c₂, inner, ok⟩ := bind_eq_ok.1 ok
  obtain ⟨k, c₃, logTo, ok⟩ := bind_eq_ok.1 ok
  obtain ⟨rfl, rfl⟩ := pure_eq_ok.1 ok
  obtain ⟨log, rfl⟩ := converter_eq_ok.1 logTo
  obtain ⟨t, passes, preferred, eval⟩ := enclosed_of_readEnclosed h inner
  refine ⟨.logarithm base t, ?_, preferred, by simp [Tree.eval, eval, log]⟩
  exact (Cursor.passes_of_next next nofun).trans ((expect_open_eq_ok.1 paren).trans passes)

theorem sound_exponential (h : Sound table .addition nested) {c c' : Cursor} {u : MeasureUnit}
    {value : Float} (found : c.exponential? = some value)
    (ok : (do
      skip
      skip
      let u ← readOperand table nested
      return u.transform (← converter (Converter.expOf value))) c = .ok u c') :
    ∃ t : Tree .exponent, c.Passes t.lexemes c' ∧ t.IsPreferred ∧ t.eval table = some u := by
  rw [bind_skip, bind_skip] at ok
  obtain ⟨l, words, isBase, starts⟩ := Cursor.exponential?_eq_some.1 found
  obtain ⟨base, spelled, rfl⟩ := exponentialBase?_eq_some.1 isBase
  obtain ⟨v, c₁, operand, ok⟩ := bind_eq_ok.1 ok
  obtain ⟨k, c₂, expOf, ok⟩ := bind_eq_ok.1 ok
  obtain ⟨rfl, rfl⟩ := pure_eq_ok.1 ok
  obtain ⟨exp, rfl⟩ := converter_eq_ok.1 expOf
  obtain ⟨t, passes, preferred, eval⟩ := sound_readOperand h _ _ _ operand
  have first := Cursor.passes_of_next spelled (by cases base <;> nofun)
  have caret : c.tail.Passes [.caret] c.tail.tail := by
    refine Cursor.passes_of_next (Cursor.next_eq_of_lexemes (l := l) ?_) nofun
    have after := Cursor.lexemes_of_passes first
    rw [words, ← spelled] at after
    exact (List.cons.inj after).2.symm
  have passed := first.trans (caret.trans passes)
  have unit : l = t.lexemes ++ c₁.lexemes := by
    have after := Cursor.lexemes_of_passes passed
    rw [words, ← spelled] at after
    simpa using after
  rw [unit, startsUnit_operand] at starts
  exact ⟨.exponential base t, passed, ⟨starts, preferred⟩, by simp [Tree.eval, eval, exp]⟩

theorem sound_power (h : Sound table .addition nested) {c c' : Cursor} {u : MeasureUnit}
    (ok : (do readExponent (← readOperand table nested)) c = .ok u c') :
    ∃ t : Tree .exponent, c.Passes t.lexemes c' ∧ t.IsPreferred ∧ t.eval table = some u := by
  obtain ⟨v, c₁, operand, ok⟩ := bind_eq_ok.1 ok
  obtain ⟨t, passes, preferred, eval⟩ := sound_readOperand h _ _ _ operand
  obtain ⟨suffix, passes', power, -⟩ := readExponent_eq_ok.1 ok
  refine ⟨.power t suffix, passes.trans passes', preferred, ?_⟩
  cases suffix with
  | none =>
    cases power
    exact eval
  | some suffix =>
    rw [Tree.eval, eval]
    exact power

theorem sound_readPower (h : Sound table .addition nested) :
    Sound table .exponent (readPower table nested) := by
  intro c c' u ok
  rw [readPower, bind_lexeme] at ok
  cases next : c.next with
  | logarithm base =>
    simp only [next, bind_skip] at ok
    exact sound_readLogarithm h next ok
  | _ =>
    simp only [next, bind_get] at ok
    cases found : c.exponential? with
    | some value =>
      simp only [found] at ok
      exact sound_exponential h found ok
    | none =>
      simp only [found] at ok
      exact sound_power h ok

theorem operator_ne_endOfInput (op : Operator) : op.lexeme ≠ .endOfInput := by
  rcases op with sign | -
  · cases sign <;> nofun
  · nofun

/-- The factors that follow a product carry its derivation on. -/
theorem sound_readFactors (h : Sound table .addition nested) {count : Nat} {start c c' : Cursor}
    {t : Tree .product} {u v : MeasureUnit} (passes : start.Passes t.lexemes c)
    (preferred : t.IsPreferred) (eval : t.eval table = some u)
    (ok : readFactors (readPower table nested) count u c = .ok v c') :
    ∃ t : Tree .product, start.Passes t.lexemes c' ∧ t.IsPreferred ∧ t.eval table = some v := by
  induction count generalizing c t u with
  | zero =>
    obtain ⟨rfl, rfl⟩ := pure_eq_ok.1 ok
    exact ⟨t, passes, preferred, eval⟩
  | succ count ih =>
    by_cases next : ∃ op : Operator, c.next = op.lexeme
    · obtain ⟨op, next⟩ := next
      rw [readFactors_eq count next] at ok
      obtain ⟨w, c₁, factor, ok⟩ := bind_eq_ok.1 ok
      obtain ⟨joined, c₂, applied, ok⟩ := bind_eq_ok.1 ok
      obtain ⟨meaning, rfl⟩ := unitAt_eq_ok.1 applied
      obtain ⟨right, passes', preferred', eval'⟩ := sound_readPower h _ _ _ factor
      have operator := Cursor.passes_of_next next (operator_ne_endOfInput op)
      exact ih (t := .chain t op right) (passes.trans (operator.trans passes'))
        ⟨preferred, preferred'⟩ (by simp [Tree.eval, eval, eval', meaning]) ok
    · rw [readFactors_of_no_operator _ (not_exists.1 next)] at ok
      cases ok
      exact ⟨t, passes, preferred, eval⟩

theorem sound_readProduct (h : Sound table .addition nested) :
    Sound table .product (readProduct table nested) := by
  intro c c' u ok
  obtain ⟨v, c₁, factor, ok⟩ := bind_eq_ok.1 ok
  rw [bind_get] at ok
  obtain ⟨t, passes, preferred, eval⟩ := sound_readPower h _ _ _ factor
  exact sound_readFactors h (t := .single t) passes preferred eval ok

end Readers

/-- A whole expression that is read is derived. The induction is on the levels that are left. -/
theorem sound_offsetSum (table : SymbolTable) (levels : Nat) :
    Sound table .addition (offsetSum table levels) := by
  induction levels with
  | zero => exact fun c c' u ok => by simp [offsetSum, bind_eq_ok] at ok
  | succ levels ih =>
    intro c c' u ok
    obtain ⟨leading, c₁, front, ok⟩ := bind_eq_ok.1 ok
    obtain ⟨v, c₂, product, ok⟩ := bind_eq_ok.1 ok
    obtain ⟨w, c₃, applied, ok⟩ := bind_eq_ok.1 ok
    obtain ⟨t, passes, preferred, eval⟩ := sound_readProduct ih _ _ _ product
    obtain ⟨trailing, passes', shifted', -⟩ := readTrailingOffset_eq_ok.1 ok
    rcases readLeadingOffset_eq_ok.1 front with ⟨starts, rfl, rfl⟩ | ⟨n, sign, x, passes₀, known, rfl⟩
    · obtain ⟨shifted, rfl⟩ := (applyLeadingOffset_eq_ok none (Or.inl ⟨rfl, rfl⟩)).1 applied
      refine ⟨.sum none t trailing, passes.trans passes', ⟨fun _ => ?_, preferred⟩, ?_⟩
      · rw [← Bool.not_eq_true]
        intro offset
        rw [Cursor.lexemes_of_passes (passes.trans passes'), startsOffset_append _ offset] at starts
        cases starts
      · simp [Tree.eval, eval, shifted, shifted']
    · obtain ⟨shifted, rfl⟩ := (applyLeadingOffset_eq_ok (some (n, sign))
        (Or.inr ⟨n, sign, x, rfl, known, rfl⟩)).1 applied
      refine ⟨.sum (some (n, sign)) t trailing, ?_, ⟨nofun, preferred⟩, ?_⟩
      · simpa [Tree.lexemes, leadingLexemes] using passes₀.trans (passes.trans passes')
      · simp [Tree.eval, eval, shifted, shifted']

/-- The components that follow all have the system unit of the first. -/
theorem sound_readComponents {table : SymbolTable} {levels count : Nat} {system : MeasureUnit}
    {c c' : Cursor}
    (ok : readComponents (offsetSum table levels) system count c = .ok ⟨⟩ c') :
    ∃ rest : List (Tree .addition),
      c.Passes (rest.flatMap fun component => .colon :: component.lexemes) c' ∧
      (∀ component ∈ rest, component.IsPreferred) ∧
      rest.all (Tree.hasSystem table system) = true ∧ (c.next = .colon → count ≠ 0 → rest ≠ []) := by
  induction count generalizing c with
  | zero =>
    obtain ⟨-, rfl⟩ := pure_eq_ok.1 ok
    exact ⟨[], Cursor.passes_nil.2 rfl, by simp, rfl, fun _ h => absurd rfl h⟩
  | succ count ih =>
    rw [readComponents, bind_lexeme] at ok
    by_cases next : c.next = .colon
    · simp only [next, if_true, bind_skip, bind_token] at ok
      obtain ⟨u, c₁, component, ok⟩ := bind_eq_ok.1 ok
      obtain ⟨other, c₂, found, ok⟩ := bind_eq_ok.1 ok
      obtain ⟨systemUnit, rfl⟩ := unitAt_eq_ok.1 found
      by_cases same : (other == system) = true
      · rw [if_pos same] at ok
        obtain ⟨t, passes, preferred, eval⟩ := sound_offsetSum _ _ _ _ _ component
        obtain ⟨rest, passes', preferred', systems, -⟩ := ih ok
        have colon := Cursor.passes_of_next next nofun
        refine ⟨t :: rest, ?_, ?_, ?_, nofun⟩
        · simpa using colon.trans (passes.trans passes')
        · intro x hx
          rcases List.mem_cons.1 hx with rfl | hx
          · exact preferred
          · exact preferred' x hx
        · simp [systems, Tree.hasSystem, eval, systemUnit, same]
      · rw [if_neg same] at ok
        exact absurd ok fail_ne_ok
    · simp only [next, if_false] at ok
      obtain ⟨-, rfl⟩ := pure_eq_ok.1 ok
      exact ⟨[], Cursor.passes_nil.2 rfl, by simp, rfl, fun h => absurd h next⟩

/-- A compound that is read has a derivation with the meaning that is returned. -/
theorem sound_readCompound {table : SymbolTable} {c c' : Cursor} {u : MeasureUnit}
    (ok : readCompound table c = .ok u c') :
    ∃ t : Compound, c.Passes t.lexemes c' ∧ t.IsPreferred ∧ t.eval table = some u := by
  rw [readCompound, bind_get, bind_token] at ok
  obtain ⟨v, c₁, first, ok⟩ := bind_eq_ok.1 ok
  obtain ⟨t, passes, preferred, eval⟩ := sound_offsetSum _ _ _ _ _ first
  rw [bind_lexeme] at ok
  by_cases next : c₁.next = .colon
  · simp only [next, if_true] at ok
    obtain ⟨system, c₂, found, ok⟩ := bind_eq_ok.1 ok
    obtain ⟨systemUnit, rfl⟩ := unitAt_eq_ok.1 found
    rw [bind_get] at ok
    obtain ⟨⟨⟩, c₂, components, ok⟩ := bind_eq_ok.1 ok
    obtain ⟨rfl, rfl⟩ := pure_eq_ok.1 ok
    obtain ⟨rest, passes', preferred', systems, nonempty⟩ := sound_readComponents components
    have left : c₁.rest.length ≠ 0 := by
      rw [Cursor.length_of_passes (Cursor.passes_of_next next nofun), List.length_singleton]
      omega
    refine ⟨⟨t, rest⟩, passes.trans passes', ⟨preferred, preferred'⟩, ?_⟩
    simp only [Compound.eval, eval, nonempty next left, systemUnit, systems, Option.bind_eq_bind,
      Option.bind_some, if_true, if_false, Option.pure_def]
  · simp only [next, if_false] at ok
    obtain ⟨rfl, rfl⟩ := pure_eq_ok.1 ok
    refine ⟨⟨t, []⟩, by simpa [Compound.lexemes] using passes, ⟨preferred, by simp⟩, ?_⟩
    simp [Compound.eval, eval]

end Metrology.Expression
