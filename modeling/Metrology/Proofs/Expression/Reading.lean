import Metrology.Proofs.Expression.Grammar

/-!
# What the small readers read

A reader that succeeds passes some words and returns a value. For those that read no nested
expression the words and the value are given here exactly: the reader succeeds if and only if
the words in front of it are spelled as the grammar says.
-/
namespace Metrology.Expression

open Reading

/-! ### Places -/

def Cursor.lexemes (c : Cursor) : List Lexeme := c.rest.map Token.lexeme

def Cursor.next (c : Cursor) : Lexeme := (c.peek 0).lexeme

def Cursor.tail (c : Cursor) : Cursor := { c with rest := c.rest.tail }

/-- The second place lies behind the first, with these words between them. -/
def Cursor.Passes (c : Cursor) (l : List Lexeme) (c' : Cursor) : Prop :=
  ∃ tokens : List Token, tokens.map Token.lexeme = l ∧ c = { c' with rest := tokens ++ c'.rest }

namespace Cursor

variable {c c' c₁ : Cursor} {l l' : List Lexeme} {x : Lexeme}

/-- What is passed and what is left make up what was to come. -/
theorem lexemes_of_passes (h : c.Passes l c') : c.lexemes = l ++ c'.lexemes := by
  obtain ⟨tokens, rfl, rfl⟩ := h
  simp [lexemes]

@[simp] theorem passes_nil : c.Passes [] c' ↔ c = c' := by
  constructor
  · rintro ⟨tokens, h, rfl⟩
    rw [List.map_eq_nil_iff.1 h]
    rfl
  · rintro rfl
    exact ⟨[], rfl, rfl⟩

/-- Words are passed one list after the other. -/
theorem passes_append : c.Passes (l ++ l') c' ↔ ∃ c₁, c.Passes l c₁ ∧ c₁.Passes l' c' := by
  constructor
  · rintro ⟨tokens, h, rfl⟩
    obtain ⟨front, back, rfl, hl, hl'⟩ := List.map_eq_append_iff.1 h
    refine ⟨{ c' with rest := back ++ c'.rest }, ⟨front, hl, ?_⟩, back, hl', rfl⟩
    simp
  · rintro ⟨_, ⟨front, rfl, rfl⟩, back, rfl, rfl⟩
    exact ⟨front ++ back, by simp, by simp⟩

theorem Passes.trans (h : c.Passes l c₁) (h' : c₁.Passes l' c') : c.Passes (l ++ l') c' :=
  passes_append.2 ⟨c₁, h, h'⟩

theorem passes_cons : c.Passes (x :: l) c' ↔ ∃ c₁, c.Passes [x] c₁ ∧ c₁.Passes l c' :=
  passes_append (l := [x])

theorem next_of_passes (h : c.Passes (x :: l) c') : c.next = x := by
  obtain ⟨tokens, h, rfl⟩ := h
  obtain ⟨t, rest, rfl, rfl, rfl⟩ := List.map_eq_cons_iff.1 h
  rfl

/-- A word other than the end is there, and can be passed. -/
theorem passes_next (h : c.next ≠ .endOfInput) : c.Passes [c.next] c.tail := by
  obtain ⟨rest, stop, depth⟩ := c
  cases rest with
  | nil => exact absurd rfl h
  | cons t rest => exact ⟨[t], rfl, rfl⟩

theorem passes_of_next (h : c.next = x) (notEnd : x ≠ .endOfInput) :
    c.Passes [x] c.tail := by
  subst h
  exact passes_next notEnd

theorem tail_of_passes (h : c.Passes [x] c') : c.tail = c' := by
  obtain ⟨tokens, h, rfl⟩ := h
  obtain ⟨t, rest, rfl, rfl, empty⟩ := List.map_eq_cons_iff.1 h
  cases List.map_eq_nil_iff.1 empty
  rfl

theorem length_of_passes (h : c.Passes l c') : c.rest.length = l.length + c'.rest.length := by
  obtain ⟨tokens, rfl, rfl⟩ := h
  simp

theorem peek_lexeme (c : Cursor) (n : Nat) :
    (c.peek n).lexeme = c.lexemes.getD n .endOfInput := by
  simp only [peek, lexemes, List.getD_eq_getElem?_getD, List.getElem?_map]
  cases c.rest[n]? <;> rfl

theorem next_eq_of_lexemes (h : c.lexemes = x :: l) : c.next = x := by
  rw [next, peek_lexeme, h]
  rfl

theorem next_eq_getD (c : Cursor) : c.next = c.lexemes.getD 0 .endOfInput := peek_lexeme c 0

end Cursor

/-! ### Steps of reading -/

section Steps

variable {α β : Type} {c c' : Cursor} {a : α} {b : β} {m : Reading α} {f : α → Reading β}

/-- A reader after another returns if both do, the second from where the first stopped. -/
theorem bind_eq_ok :
    (m >>= f) c = .ok b c' ↔ ∃ a c₁, m c = .ok a c₁ ∧ f a c₁ = .ok b c' := by
  change EStateM.bind m f c = _ ↔ _
  unfold EStateM.bind
  constructor
  · intro h
    split at h
    · exact ⟨_, _, by assumption, h⟩
    · cases h
  · rintro ⟨a, c₁, first, second⟩
    rw [first]
    exact second

theorem pure_eq_ok {a' : α} : (pure a : Reading α) c = .ok a' c' ↔ a = a' ∧ c = c' := by
  change EStateM.Result.ok a c = .ok a' c' ↔ _
  simp

@[simp] theorem bind_lexeme {f : Lexeme → Reading β} : (lexeme >>= f) c = f c.next c := rfl

@[simp] theorem bind_token {f : Token → Reading β} : (token >>= f) c = f (c.peek 0) c := rfl

@[simp] theorem bind_get {f : Cursor → Reading β} : (get >>= f) c = f c c := rfl

@[simp] theorem bind_skip {f : PUnit → Reading β} :
    (skip >>= f) c = f ⟨⟩ c.tail := rfl

@[simp] theorem bind_pure' {f : α → Reading β} : ((pure a : Reading α) >>= f) c = f a c := rfl

@[simp] theorem fail_ne_ok {position : Nat} {fault : Fault} :
    (fail position fault : Reading α) c ≠ .ok a c' := nofun

@[simp] theorem unexpected_ne_ok {what : Expectation} :
    (unexpected what : Reading α) c ≠ .ok a c' := nofun

@[simp] theorem throw_ne_ok {e : Error} : (throw e : Reading α) c ≠ .ok a c' := nofun

/-- A step without reading stays where it is. -/
theorem lift_eq_ok {e : Except Error α} : lift e c = .ok a c' ↔ e.toOption = some a ∧ c = c' := by
  cases e with
  | error e => exact ⟨nofun, nofun⟩
  | ok b =>
    change EStateM.Result.ok b c = .ok a c' ↔ some b = some a ∧ c = c'
    simp

theorem toOption_mapError {ε ε' : Type} (g : ε → ε') (e : Except ε α) :
    (e.mapError g).toOption = e.toOption := by
  cases e <;> rfl

theorem converter_eq_ok {e : Except ConversionError Converter} {k : Converter} :
    converter e c = .ok k c' ↔ e.toOption = some k ∧ c = c' := by
  rw [converter, lift_eq_ok, toOption_mapError]

theorem unitAt_eq_ok {position : Nat} {e : Except Error MeasureUnit} {u : MeasureUnit} :
    unitAt position e c = .ok u c' ↔ e.toOption = some u ∧ c = c' := by
  rw [unitAt, lift_eq_ok, toOption_mapError]

/-- An expected word is passed exactly if it is the next one. -/
theorem expect_eq_ok {x : Lexeme} {what : Expectation} (h : x ≠ .endOfInput) :
    expect x what c = .ok ⟨⟩ c' ↔ c.Passes [x] c' := by
  rw [expect, bind_lexeme]
  constructor
  · intro ok
    split at ok
    · rename_i eq
      cases ok
      have passes := Cursor.passes_next (c := c) (eq ▸ h)
      rwa [eq] at passes
    · exact absurd ok unexpected_ne_ok
  · intro passes
    rw [if_pos (Cursor.next_of_passes passes), ← Cursor.tail_of_passes passes]
    rfl

theorem expect_close_eq_ok : expect .closeParen .closeParen c = .ok ⟨⟩ c' ↔ c.Passes [.closeParen] c' :=
  expect_eq_ok (by decide)

theorem expect_open_eq_ok : expect .openParen .openParen c = .ok ⟨⟩ c' ↔ c.Passes [.openParen] c' :=
  expect_eq_ok (by decide)

end Steps

/-! ### Signs and numbers -/

theorem sign?_eq_some {x : Lexeme} {s : Sign} : x.sign? = some s ↔ x = s.lexeme := by
  cases x <;> cases s <;> simp [Lexeme.sign?, Sign.lexeme]

theorem sign?_lexeme (s : Sign) : s.lexeme.sign? = some s := sign?_eq_some.2 rfl

theorem integer?_eq_some {x : Lexeme} {digits : List Char} :
    x.integer? = some digits ↔
      ∃ literal : Numeral, x = .number literal ∧ literal.isInteger = true ∧ digits = literal.whole := by
  cases x with
  | number literal =>
    simp only [Lexeme.integer?, Option.ite_none_right_eq_some, Option.some.injEq, Lexeme.number.injEq]
    constructor
    · rintro ⟨isInteger, rfl⟩
      exact ⟨literal, rfl, isInteger, rfl⟩
    · rintro ⟨_, rfl, isInteger, rfl⟩
      exact ⟨isInteger, rfl⟩
  | _ => simp [Lexeme.integer?]

section Numbers

variable {c c' : Cursor}

/-- A sign is read if there is one, and plus stands for none. -/
theorem readSign_eq_ok {s : Sign} :
    readSign c = .ok s c' ↔ ∃ sign : Option Sign, c.Passes (sign.map Sign.lexeme).toList c' ∧
      sign.getD .plus = s ∧ (sign = none → c.next.sign? = none) := by
  rw [readSign, bind_lexeme]
  constructor
  · intro h
    cases eq : c.next.sign? with
    | some sign =>
      simp only [eq, bind_skip] at h
      obtain ⟨rfl, rfl⟩ := pure_eq_ok.1 h
      have spelled := sign?_eq_some.1 eq
      exact ⟨some sign, Cursor.passes_of_next spelled (by cases sign <;> nofun), rfl, nofun⟩
    | none =>
      simp only [eq] at h
      obtain ⟨rfl, rfl⟩ := pure_eq_ok.1 h
      exact ⟨none, Cursor.passes_nil.2 rfl, rfl, fun _ => rfl⟩
  · rintro ⟨sign, passes, rfl, absent⟩
    cases sign with
    | none =>
      cases Cursor.passes_nil.1 passes
      rw [absent rfl]
      rfl
    | some sign =>
      rw [Cursor.next_of_passes passes, sign?_lexeme, ← Cursor.tail_of_passes passes]
      rfl

/-- A number is read just if it stands there and has a value. -/
theorem readNumber_eq_ok {value : Rat} :
    readNumber c = .ok value c' ↔
      ∃ n : SignedNumber, c.Passes n.lexemes c' ∧ n.value? = some value := by
  rw [readNumber, bind_eq_ok]
  constructor
  · rintro ⟨s, c₁, first, second⟩
    obtain ⟨sign, passes, rfl, -⟩ := readSign_eq_ok.1 first
    rw [bind_token] at second
    cases next : (c₁.peek 0).lexeme with
    | number literal =>
      cases eq : literal.value? with
      | some magnitude =>
        simp only [next, eq, bind_skip] at second
        obtain ⟨rfl, rfl⟩ := pure_eq_ok.1 second
        refine ⟨⟨sign, literal⟩, passes.trans (Cursor.passes_of_next next nofun), ?_⟩
        rw [SignedNumber.value?, eq]
        rfl
      | none => simp [next, eq] at second
    | _ => simp [next] at second
  · rintro ⟨⟨sign, literal⟩, passes, eq⟩
    obtain ⟨c₁, front, number⟩ := Cursor.passes_append.1 passes
    have next : (c₁.peek 0).lexeme = .number literal := Cursor.next_of_passes number
    obtain ⟨magnitude, known, rfl⟩ := Option.map_eq_some_iff.1 eq
    have known : literal.value? = some magnitude := known
    refine ⟨sign.getD .plus, c₁, readSign_eq_ok.2 ⟨sign, front, rfl, ?_⟩, ?_⟩
    · rintro rfl
      cases Cursor.passes_nil.1 front
      rw [Cursor.next_of_passes number]
      rfl
    · rw [bind_token]
      simp only [next, bind_skip]
      rw [known, Cursor.tail_of_passes number]
      rfl

/-- An integer is read just if it stands there and is a power. -/
theorem readInteger_eq_ok {p : Power} :
    readInteger c = .ok p c' ↔
      ∃ n : SignedInteger, c.Passes n.lexemes c' ∧ n.power? = some p := by
  rw [readInteger, bind_eq_ok]
  constructor
  · rintro ⟨s, c₁, first, second⟩
    obtain ⟨sign, passes, rfl, -⟩ := readSign_eq_ok.1 first
    rw [bind_token] at second
    cases next : (c₁.peek 0).lexeme.integer? with
    | some digits =>
      obtain ⟨literal, spelled, isInteger, rfl⟩ := integer?_eq_some.1 next
      cases eq : exponentOf (sign.getD .plus) literal.whole with
      | some n =>
        simp only [next, eq, bind_skip] at second
        obtain ⟨rfl, rfl⟩ := pure_eq_ok.1 second
        exact ⟨⟨⟨sign, literal⟩, isInteger⟩, passes.trans (Cursor.passes_of_next spelled nofun), eq⟩
      | none => simp [next, eq] at second
    | none => simp [next] at second
  · rintro ⟨⟨⟨sign, literal⟩, isInteger⟩, passes, eq⟩
    obtain ⟨c₁, front, number⟩ := Cursor.passes_append.1 passes
    have next : (c₁.peek 0).lexeme.integer? = some literal.whole :=
      integer?_eq_some.2 ⟨literal, Cursor.next_of_passes number, isInteger, rfl⟩
    refine ⟨sign.getD .plus, c₁, readSign_eq_ok.2 ⟨sign, front, rfl, ?_⟩, ?_⟩
    · rintro rfl
      cases Cursor.passes_nil.1 front
      rw [Cursor.next_of_passes number]
      rfl
    · have power : exponentOf (sign.getD .plus) literal.whole = some p := eq
      rw [bind_token]
      simp only [next, bind_skip, power]
      rw [Cursor.tail_of_passes number]
      rfl

end Numbers

/-! ### Exponents, notes and offsets -/

section Parts

variable {c c' : Cursor} {u v : MeasureUnit}

/-- The position shows in the errors of a power only. -/
theorem toOption_rationalPower (p q : Power) (position : Nat) :
    (rationalPower u p q position).toOption = (rationalPower u p q 0).toOption := by
  simp only [rationalPower]
  by_cases zero : q.val = 0
  · rw [if_pos zero, if_pos zero]
    rfl
  · rw [if_neg zero, if_neg zero]
    generalize Power.ofInt? (_ * p.val.tdiv _) = n
    generalize Power.ofInt? (_ * q.val.tdiv _) = d
    cases n with
    | none => rfl
    | some n =>
      cases d with
      | none => rfl
      | some d =>
        dsimp only
        cases u.pow n with
        | error e => rfl
        | ok power =>
          have mapped (position : Nat) : (Except.ok power : Except Error MeasureUnit).mapError
              (locate position) = .ok power := rfl
          rw [mapped, mapped]
          simp only [bind, Except.bind]
          cases power.root? d <;> rfl

/-- Behind the numbers of a rational exponent a parenthesis closes. -/
theorem closePower_eq_ok {p q : Power} {position : Nat} :
    (expect .closeParen .closeParen >>= fun _ => lift (rationalPower u p q position)) c = .ok v c' ↔
      c.Passes [.closeParen] c' ∧ (rationalPower u p q 0).toOption = some v := by
  rw [bind_eq_ok]
  constructor
  · rintro ⟨⟨⟩, c₁, close, lifted⟩
    obtain ⟨root, rfl⟩ := lift_eq_ok.1 lifted
    rw [toOption_rationalPower] at root
    exact ⟨expect_close_eq_ok.1 close, root⟩
  · rintro ⟨close, root⟩
    rw [← toOption_rationalPower p q position] at root
    exact ⟨⟨⟩, c', expect_close_eq_ok.2 close, lift_eq_ok.2 ⟨root, rfl⟩⟩

/-- In parentheses behind a caret stand an integer or two with a solidus between them. -/
theorem exists_of_readQuotient {position : Nat} (h : readQuotient u position c = .ok v c') :
    (∃ p : SignedInteger, c.Passes (p.lexemes ++ [.closeParen]) c' ∧
      (Suffix.quotient p none).apply u = some v) ∨
    (∃ p q : SignedInteger, c.Passes (p.lexemes ++ .solidus :: (q.lexemes ++ [.closeParen])) c' ∧
      (Suffix.quotient p (some q)).apply u = some v) := by
  rw [readQuotient] at h
  obtain ⟨p, c₁, first, h⟩ := bind_eq_ok.1 h
  obtain ⟨n, passes, power⟩ := readInteger_eq_ok.1 first
  rw [bind_lexeme] at h
  by_cases next : c₁.next = .solidus
  · simp only [next, if_true, bind_skip] at h
    obtain ⟨q, c₂, second, h⟩ := bind_eq_ok.1 h
    obtain ⟨d, passes', power'⟩ := readInteger_eq_ok.1 second
    obtain ⟨close, root⟩ := closePower_eq_ok.1 h
    have slash := Cursor.passes_of_next next nofun
    refine Or.inr ⟨n, d, passes.trans (slash.trans (passes'.trans close)), ?_⟩
    simp only [Suffix.apply, power, power']
    exact root
  · simp only [next, if_false, bind_pure'] at h
    obtain ⟨close, root⟩ := closePower_eq_ok.1 h
    refine Or.inl ⟨n, passes.trans close, ?_⟩
    simp only [Suffix.apply, power]
    exact root

theorem readQuotient_integer {position : Nat} {n : SignedInteger}
    (passes : c.Passes (n.lexemes ++ [.closeParen]) c')
    (h : (Suffix.quotient n none).apply u = some v) : readQuotient u position c = .ok v c' := by
  obtain ⟨p, power, root⟩ := Option.bind_eq_some_iff.1 h
  obtain ⟨c₁, front, close⟩ := Cursor.passes_append.1 passes
  rw [readQuotient]
  refine bind_eq_ok.2 ⟨p, c₁, readInteger_eq_ok.2 ⟨n, front, power⟩, ?_⟩
  rw [bind_lexeme]
  simp only [Cursor.next_of_passes close, reduceCtorEq, if_false, bind_pure']
  exact closePower_eq_ok.2 ⟨close, root⟩

theorem readQuotient_fraction {position : Nat} {n d : SignedInteger}
    (passes : c.Passes (n.lexemes ++ .solidus :: (d.lexemes ++ [.closeParen])) c')
    (h : (Suffix.quotient n (some d)).apply u = some v) : readQuotient u position c = .ok v c' := by
  obtain ⟨p, power, h⟩ := Option.bind_eq_some_iff.1 h
  obtain ⟨q, power', root⟩ := Option.bind_eq_some_iff.1 h
  obtain ⟨c₁, front, back⟩ := Cursor.passes_append.1 passes
  obtain ⟨c₂, slash, back⟩ := Cursor.passes_cons.1 back
  obtain ⟨c₃, second, close⟩ := Cursor.passes_append.1 back
  rw [readQuotient]
  refine bind_eq_ok.2 ⟨p, c₁, readInteger_eq_ok.2 ⟨n, front, power⟩, ?_⟩
  rw [bind_lexeme]
  simp only [Cursor.next_of_passes slash, if_true, bind_skip, Cursor.tail_of_passes slash]
  refine bind_eq_ok.2 ⟨q, c₃, readInteger_eq_ok.2 ⟨d, second, power'⟩, ?_⟩
  exact closePower_eq_ok.2 ⟨close, root⟩

theorem next_of_passes_integer {n : SignedInteger} (h : c.Passes n.lexemes c') :
    c.next ≠ .openParen := by
  obtain ⟨⟨sign, literal⟩, isInteger⟩ := n
  rcases sign with - | - | - <;> · rw [Cursor.next_of_passes h]; nofun

theorem integerPower_eq_ok {position : Nat} :
    (readInteger >>= fun n => unitAt position (u.pow n)) c = .ok v c' ↔
      ∃ n : SignedInteger, c.Passes n.lexemes c' ∧ (Suffix.plain n).apply u = some v := by
  rw [bind_eq_ok]
  constructor
  · rintro ⟨p, c₁, integer, h⟩
    obtain ⟨n, passes, power⟩ := readInteger_eq_ok.1 integer
    obtain ⟨raised, rfl⟩ := unitAt_eq_ok.1 h
    refine ⟨n, passes, ?_⟩
    simp [Suffix.apply, power, raised]
  · rintro ⟨n, passes, raised⟩
    obtain ⟨p, power, raised⟩ := Option.bind_eq_some_iff.1 raised
    exact ⟨p, c', readInteger_eq_ok.2 ⟨n, passes, power⟩, unitAt_eq_ok.2 ⟨raised, rfl⟩⟩

/-! The next word tells the form of an exponent, and for a caret also the word after it. -/

/-- A caret without a parenthesis is followed by an integer. -/
theorem readExponent_caret (next : c.next = .caret) (bare : c.tail.next ≠ .openParen) :
    readExponent u c = (readInteger >>= fun n => unitAt (c.peek 0).position (u.pow n)) c.tail := by
  have next : (c.peek 0).lexeme = .caret := next
  rw [readExponent, bind_token]
  simp only [next, bind_skip, bind_lexeme, bare, if_false]

/-- A caret with a parenthesis is followed by a quotient. -/
theorem readExponent_enclosed (next : c.next = .caret) (opens : c.tail.next = .openParen) :
    readExponent u c = readQuotient u (c.peek 0).position c.tail.tail := by
  have next : (c.peek 0).lexeme = .caret := next
  rw [readExponent, bind_token]
  simp only [next, bind_skip, bind_lexeme, opens, if_true]

theorem readExponent_superscript {digits : List Char} (next : c.next = .superscript digits) :
    readExponent u c = .ok v c' ↔
      (Suffix.superscript digits).apply u = some v ∧ c.tail = c' := by
  have next : (c.peek 0).lexeme = .superscript digits := next
  rw [readExponent, bind_token]
  simp only [next, bind_skip, Suffix.apply]
  cases exponentOf .plus digits with
  | some n => exact unitAt_eq_ok
  | none => simp

/-- Without a caret or a superscript the unit stays as it is. -/
theorem readExponent_absent (noCaret : c.next ≠ .caret)
    (noSuperscript : ∀ digits, c.next ≠ .superscript digits) : readExponent u c = .ok u c := by
  rw [readExponent, bind_token]
  cases next : (c.peek 0).lexeme with
  | caret => exact absurd next noCaret
  | superscript digits => exact absurd next (noSuperscript digits)
  | _ => rfl

theorem exists_of_readExponent (h : readExponent u c = .ok v c') : ∃ suffix : Option Suffix,
    c.Passes ((suffix.map Suffix.lexemes).getD []) c' ∧
    suffix.elim (some u) (Suffix.apply u) = some v ∧
    (suffix = none → c'.next ≠ .caret ∧ ∀ digits, c'.next ≠ .superscript digits) := by
  by_cases caret : c.next = .caret
  · have passed := Cursor.passes_of_next caret nofun
    by_cases paren : c.tail.next = .openParen
    · rw [readExponent_enclosed caret paren] at h
      have opened := Cursor.passes_of_next paren nofun
      rcases exists_of_readQuotient h with ⟨p, passes, power⟩ | ⟨p, q, passes, power⟩
      · exact ⟨some (.quotient p none), passed.trans (opened.trans passes), power, nofun⟩
      · exact ⟨some (.quotient p (some q)), passed.trans (opened.trans passes), power, nofun⟩
    · rw [readExponent_caret caret paren] at h
      obtain ⟨n, passes, raised⟩ := integerPower_eq_ok.1 h
      exact ⟨some (.plain n), passed.trans passes, raised, nofun⟩
  by_cases superscript : ∃ digits, c.next = .superscript digits
  · obtain ⟨digits, next⟩ := superscript
    obtain ⟨raised, rfl⟩ := (readExponent_superscript next).1 h
    exact ⟨some (.superscript digits), Cursor.passes_of_next next nofun, raised, nofun⟩
  · have noSuperscript : ∀ digits, c.next ≠ .superscript digits := not_exists.1 superscript
    rw [readExponent_absent caret noSuperscript] at h
    cases h
    exact ⟨none, Cursor.passes_nil.2 rfl, rfl, fun _ => ⟨caret, noSuperscript⟩⟩

theorem readExponent_suffix {suffix : Suffix} (passes : c.Passes suffix.lexemes c')
    (raised : suffix.apply u = some v) : readExponent u c = .ok v c' := by
  have enclosed {l : List Lexeme} (front : c.Passes (.caret :: .openParen :: l) c') :
      c.tail.tail.Passes l c' ∧ readExponent u c = readQuotient u (c.peek 0).position c.tail.tail := by
    obtain ⟨c₁, caret, front⟩ := Cursor.passes_cons.1 front
    obtain rfl := Cursor.tail_of_passes caret
    obtain ⟨c₂, paren, front⟩ := Cursor.passes_cons.1 front
    obtain rfl := Cursor.tail_of_passes paren
    exact ⟨front, readExponent_enclosed (Cursor.next_of_passes caret) (Cursor.next_of_passes paren)⟩
  cases suffix with
  | plain n =>
    obtain ⟨c₁, caret, passes⟩ := Cursor.passes_cons.1 passes
    obtain rfl := Cursor.tail_of_passes caret
    rw [readExponent_caret (Cursor.next_of_passes caret) (next_of_passes_integer passes)]
    exact integerPower_eq_ok.2 ⟨n, passes, raised⟩
  | quotient p q =>
    cases q with
    | none =>
      obtain ⟨passes, read⟩ := enclosed passes
      rw [read]
      exact readQuotient_integer passes raised
    | some q =>
      obtain ⟨passes, read⟩ := enclosed passes
      rw [read]
      exact readQuotient_fraction passes raised
  | superscript digits =>
    exact (readExponent_superscript (Cursor.next_of_passes passes)).2
      ⟨raised, Cursor.tail_of_passes passes⟩

/-- An exponent is read just if it stands there and the power exists. -/
theorem readExponent_eq_ok :
    readExponent u c = .ok v c' ↔ ∃ suffix : Option Suffix,
      c.Passes ((suffix.map Suffix.lexemes).getD []) c' ∧
      suffix.elim (some u) (Suffix.apply u) = some v ∧
      (suffix = none → c'.next ≠ .caret ∧ ∀ digits, c'.next ≠ .superscript digits) := by
  constructor
  · exact exists_of_readExponent
  · rintro ⟨suffix, passes, raised, absent⟩
    cases suffix with
    | none =>
      cases Cursor.passes_nil.1 passes
      cases raised
      obtain ⟨noCaret, noSuperscript⟩ := absent rfl
      exact readExponent_absent noCaret noSuperscript
    | some suffix => exact readExponent_suffix passes raised

/-- A note is read whenever one stands there. -/
theorem readNote_eq_ok :
    readNote u c = .ok v c' ↔ ∃ note : Option String, c.Passes (noteLexemes note) c' ∧
      annotated? u note = some v ∧ (note = none → ∀ text, c'.next ≠ .note text) := by
  rw [readNote, bind_lexeme]
  constructor
  · intro h
    cases next : c.next with
    | note text =>
      simp only [next, bind_skip] at h
      obtain ⟨annotated, rfl⟩ := lift_eq_ok.1 h
      exact ⟨some text, Cursor.passes_of_next next nofun, annotated, nofun⟩
    | _ =>
      simp only [next] at h
      obtain ⟨rfl, rfl⟩ := pure_eq_ok.1 h
      refine ⟨none, Cursor.passes_nil.2 rfl, rfl, fun _ text => ?_⟩
      rw [next]
      nofun
  · rintro ⟨note, passes, annotated, absent⟩
    cases note with
    | some text =>
      simp only [Cursor.next_of_passes passes, bind_skip, Cursor.tail_of_passes passes]
      exact lift_eq_ok.2 ⟨annotated, rfl⟩
    | none =>
      cases Cursor.passes_nil.1 passes
      cases annotated
      have absent := absent rfl
      cases next : c.next with
      | note text => exact absurd next (absent text)
      | _ => rfl

/-- An offset is read whenever a sign stands there. -/
theorem readTrailingOffset_eq_ok :
    readTrailingOffset u c = .ok v c' ↔ ∃ trailing : Option (Sign × SignedNumber),
      c.Passes (trailingLexemes trailing) c' ∧ trailingShift u trailing = some v ∧
      (trailing = none → c'.next.sign? = none) := by
  rw [readTrailingOffset, bind_lexeme]
  constructor
  · intro h
    cases next : c.next.sign? with
    | some sign =>
      simp only [next, bind_skip] at h
      obtain ⟨offset, c₁, number, rest⟩ := bind_eq_ok.1 h
      obtain ⟨n, passes, value⟩ := readNumber_eq_ok.1 number
      obtain ⟨rfl, rfl⟩ := pure_eq_ok.1 rest
      have spelled := sign?_eq_some.1 next
      have front := Cursor.passes_of_next spelled (by cases sign <;> nofun)
      exact ⟨some (sign, n), front.trans passes, by simp [trailingShift, value], nofun⟩
    | none =>
      simp only [next] at h
      obtain ⟨rfl, rfl⟩ := pure_eq_ok.1 h
      exact ⟨none, Cursor.passes_nil.2 rfl, rfl, fun _ => next⟩
  · rintro ⟨trailing, passes, shifted, absent⟩
    cases trailing with
    | none =>
      cases Cursor.passes_nil.1 passes
      cases shifted
      rw [absent rfl]
      rfl
    | some trailing =>
      obtain ⟨sign, n⟩ := trailing
      obtain ⟨c₁, front, back⟩ := Cursor.passes_cons.1 passes
      obtain ⟨offset, value, shifted⟩ := Option.bind_eq_some_iff.1 shifted
      cases shifted
      have next : c.next.sign? = some sign := sign?_eq_some.2 (Cursor.next_of_passes front)
      simp only [next, bind_skip, Cursor.tail_of_passes front]
      exact bind_eq_ok.2 ⟨offset, c', readNumber_eq_ok.2 ⟨n, back, value⟩, rfl⟩

theorem readFactors_eq {operand : Reading MeasureUnit} {op : Operator} (count : Nat)
    (h : c.next = op.lexeme) : readFactors operand (count + 1) u c = (do
      let w ← operand
      readFactors operand count (← unitAt (c.peek 0).position (op.apply u w))) c.tail := by
  have next : (c.peek 0).lexeme = op.lexeme := h
  rw [readFactors, bind_token]
  rcases op with sign | -
  · cases sign <;> simp only [next, Operator.lexeme, Separator.lexeme, bind_skip] <;> rfl
  · simp only [next, Operator.lexeme, bind_skip]
    rfl

/-- The factors end where no operator follows. -/
theorem readFactors_of_no_operator {operand : Reading MeasureUnit} (count : Nat)
    (h : ∀ op : Operator, c.next ≠ op.lexeme) : readFactors operand count u c = .ok u c := by
  cases count with
  | zero => rfl
  | succ count =>
    rw [readFactors, bind_token]
    cases next : (c.peek 0).lexeme with
    | asterisk => exact absurd next (h (.times .asterisk))
    | middleDot => exact absurd next (h (.times .middleDot))
    | solidus => exact absurd next (h .divide)
    | _ => rfl

end Parts

/-! ### Looking ahead -/

namespace Cursor

variable {c c' : Cursor} {l : List Lexeme} {x : Lexeme} {n : Nat}

theorem peek_eq_of_drop (h : c.lexemes.drop n = x :: l) :
    (c.peek n).lexeme = x ∧ c.lexemes.drop (n + 1) = l := by
  constructor
  · rw [peek_lexeme, List.getD_eq_getElem?_getD, ← List.head?_drop, h]
    rfl
  · rw [← List.tail_drop, h]
    rfl

theorem peek_eq_of_drop_nil (h : c.lexemes.drop n = []) : (c.peek n).lexeme = .endOfInput := by
  rw [peek_lexeme, List.getD_eq_getElem?_getD, ← List.head?_drop, h]
  rfl

/-- The signs at a place are what `skipSign` skips there. -/
theorem drop_signsAt : c.lexemes.drop (n + c.signsAt n) = skipSign (c.lexemes.drop n) := by
  rw [signsAt]
  cases h : c.lexemes.drop n with
  | nil =>
    rw [peek_eq_of_drop_nil h]
    exact h
  | cons x l =>
    obtain ⟨peek, drop⟩ := peek_eq_of_drop h
    rw [peek, skipSign]
    split
    · exact drop
    · exact h

/-- Looking ahead over an integer by positions is skipping its words. -/
theorem drop_afterInteger? :
    (c.afterInteger? n).map (fun m => c.lexemes.drop m) = skipInteger? (c.lexemes.drop n) := by
  rw [afterInteger?, skipInteger?, ← drop_signsAt]
  cases h : c.lexemes.drop (n + c.signsAt n) with
  | nil => simp [peek_eq_of_drop_nil h, Lexeme.integer?]
  | cons x l =>
    obtain ⟨peek, drop⟩ := peek_eq_of_drop h
    simp only [peek]
    split <;> simp [drop]

/-- Looking ahead for an exponent by positions is the rule on the words. -/
theorem isExponentAt_eq : c.isExponentAt n = startsExponent (c.lexemes.drop (n + 1)) := by
  rw [isExponentAt, startsExponent, ← drop_afterInteger?]
  cases c.afterInteger? (n + 1) with
  | none => rfl
  | some m =>
    simp only [Option.map_some]
    cases h : c.lexemes.drop m with
    | nil => simp [peek_eq_of_drop_nil h]
    | cons x l =>
      obtain ⟨peek, drop⟩ := peek_eq_of_drop h
      rw [peek]
      by_cases slash : x = .solidus
      · subst slash
        simp only [if_true]
        rw [← drop, ← drop_afterInteger?]
        cases c.afterInteger? (m + 1) with
        | none => rfl
        | some k =>
          simp only [Option.map_some]
          cases h : c.lexemes.drop k with
          | nil => simp [peek_eq_of_drop_nil h]
          | cons y l' =>
            rw [(peek_eq_of_drop h).1]
            cases y <;> rfl
      · rw [if_neg slash]
        cases x <;> first | rfl | exact absurd rfl slash

/-- Looking ahead for an offset by positions is the rule on the words. -/
theorem startsWithOffset_eq : c.startsWithOffset = startsOffset c.lexemes := by
  have drop := drop_signsAt (c := c) (n := 0)
  rw [Nat.zero_add, List.drop_zero] at drop
  rw [startsWithOffset, startsOffset, ← drop]
  cases h : c.lexemes.drop (c.signsAt 0) with
  | nil => simp [peek_eq_of_drop_nil h]
  | cons x l =>
    obtain ⟨peek, drop⟩ := peek_eq_of_drop h
    simp only [peek]
    cases x with
    | number literal =>
      cases l with
      | nil => simp [peek_eq_of_drop_nil drop, Lexeme.sign?]
      | cons y l => simp [(peek_eq_of_drop drop).1]
    | _ => rfl

theorem lexemes_of_caret (caret : (c.peek 1).lexeme = .caret) :
    c.lexemes = c.next :: .caret :: c.lexemes.drop 2 := by
  rw [next_eq_getD]
  rw [peek_lexeme] at caret
  match h : c.lexemes with
  | [] | [_] =>
    rw [h] at caret
    cases caret
  | x :: y :: l =>
    rw [h] at caret
    cases caret
    rfl

/-- An exponential is read where a base, a caret and a unit stand in front. -/
theorem exponential?_eq_some {base : Float} :
    c.exponential? = some base ↔
      ∃ l, c.lexemes = c.next :: .caret :: l ∧ exponentialBase? c.next = some base ∧
        startsUnit l = true := by
  have first : (c.peek 0).lexeme = c.next := rfl
  rw [exponential?, first]
  cases eq : exponentialBase? c.next with
  | none => simp
  | some found =>
    by_cases caret : (c.peek 1).lexeme = .caret
    · have front := lexemes_of_caret caret
      have unit : (∃ l, c.lexemes = c.next :: .caret :: l ∧ some found = some base ∧
          startsUnit l = true) ↔ found = base ∧ startsUnit (c.lexemes.drop 2) = true := by
        constructor
        · rintro ⟨l, words, found, starts⟩
          rw [words]
          exact ⟨Option.some.inj found, starts⟩
        · rintro ⟨rfl, starts⟩
          exact ⟨_, front, rfl, starts⟩
      simp only [if_pos caret]
      rw [unit, isExponentAt_eq]
      cases h : c.lexemes.drop 2 with
      | nil => simp [peek_eq_of_drop_nil h, startsUnit]
      | cons x l =>
        obtain ⟨peek, drop⟩ := peek_eq_of_drop h
        rw [peek, drop]
        cases x with
        | openParen =>
          cases h' : startsExponent l <;> simp [startsUnit, h']
        | _ => simp [startsUnit]
    · simp only [if_neg caret]
      constructor
      · nofun
      · rintro ⟨l, words, -⟩
        rw [peek_lexeme, words] at caret
        exact absurd rfl caret

end Cursor

theorem skipSign_append {l rest : List Lexeme} (h : l ≠ []) : skipSign (l ++ rest) = skipSign l ++ rest := by
  cases l with
  | nil => exact absurd rfl h
  | cons x l =>
    rw [List.cons_append, skipSign, skipSign]
    split <;> rfl

/-- An integer in front of a closing parenthesis lies before it. -/
theorem skipInteger?_append (l rest : List Lexeme) :
    skipInteger? (l ++ .closeParen :: rest) =
      (skipInteger? l).map (· ++ Lexeme.closeParen :: rest) := by
  have front : skipSign (l ++ .closeParen :: rest) = skipSign l ++ .closeParen :: rest := by
    cases l with
    | nil => rfl
    | cons x l => exact skipSign_append (List.cons_ne_nil x l)
  rw [skipInteger?, skipInteger?, front]
  cases skipSign l with
  | nil => rfl
  | cons x l =>
    simp only [List.cons_append]
    split <;> rfl

/-- What stands behind the first closing parenthesis does not matter to an exponent. -/
theorem startsExponent_append (l rest : List Lexeme) :
    startsExponent (l ++ .closeParen :: rest) = startsExponent (l ++ [.closeParen]) := by
  rw [startsExponent, startsExponent, skipInteger?_append, skipInteger?_append]
  cases skipInteger? l with
  | none => rfl
  | some l =>
    simp only [Option.map_some]
    cases l with
    | nil => rfl
    | cons x l =>
      cases x with
      | solidus =>
        simp only [List.cons_append, skipInteger?_append]
        cases skipInteger? l with
        | none => rfl
        | some l =>
          cases l with
          | nil => rfl
          | cons y l => cases y <;> rfl
      | _ => rfl

/-- An offset in front stays one when more words follow. -/
theorem startsOffset_append {l : List Lexeme} (rest : List Lexeme) (h : startsOffset l = true) :
    startsOffset (l ++ rest) = true := by
  have nonempty : l ≠ [] := by
    rintro rfl
    cases h
  rw [startsOffset, skipSign_append nonempty]
  rw [startsOffset] at h
  split at h
  · rename_i eq
    rw [eq]
    exact h
  · cases h

/-- A number starts an offset if a sign follows it. -/
theorem startsOffset_number (n : SignedNumber) (l : List Lexeme) :
    startsOffset (n.lexemes ++ l) = l.head?.any fun x => x.sign?.isSome := by
  obtain ⟨sign, literal⟩ := n
  rcases sign with - | - | - <;> cases l <;> rfl

/-- A number is taken for an offset if a sign stands behind it, and only then. -/
theorem readLeadingOffset_eq_ok {c c' : Cursor} {leading : Option (Rat × Sign)} :
    readLeadingOffset c = .ok leading c' ↔
      (startsOffset c.lexemes = false ∧ leading = none ∧ c = c') ∨
      (∃ (n : SignedNumber) (sign : Sign) (value : Rat), c.Passes (n.lexemes ++ [sign.lexeme]) c' ∧
        n.value? = some value ∧ leading = some (value, sign)) := by
  rw [readLeadingOffset, bind_get, Cursor.startsWithOffset_eq]
  constructor
  · intro h
    cases starts : startsOffset c.lexemes with
    | false =>
      rw [starts] at h
      obtain ⟨rfl, rfl⟩ := pure_eq_ok.1 h
      exact Or.inl ⟨rfl, rfl, rfl⟩
    | true =>
      rw [starts, if_pos rfl] at h
      obtain ⟨value, c₁, number, h⟩ := bind_eq_ok.1 h
      obtain ⟨s, c₂, signed, h⟩ := bind_eq_ok.1 h
      obtain ⟨rfl, rfl⟩ := pure_eq_ok.1 h
      obtain ⟨n, passes, known⟩ := readNumber_eq_ok.1 number
      obtain ⟨sign, passes', rfl, absent⟩ := readSign_eq_ok.1 signed
      rw [Cursor.lexemes_of_passes passes, startsOffset_number] at starts
      cases sign with
      | some sign => exact Or.inr ⟨n, sign, value, passes.trans passes', known, rfl⟩
      | none =>
        have next := absent rfl
        rw [Cursor.next_eq_getD] at next
        cases words : c₁.lexemes with
        | nil => simp [words] at starts
        | cons x l =>
          rw [words] at next starts
          simp [show x.sign? = none from next] at starts
  · rintro (⟨starts, rfl, rfl⟩ | ⟨n, sign, value, passes, known, rfl⟩)
    · rw [starts]
      rfl
    · obtain ⟨c₁, front, back⟩ := Cursor.passes_append.1 passes
      have starts : startsOffset c.lexemes = true := by
        rw [Cursor.lexemes_of_passes passes, List.append_assoc, startsOffset_number]
        simp [sign?_lexeme]
      rw [starts, if_pos rfl]
      refine bind_eq_ok.2 ⟨value, c₁, readNumber_eq_ok.2 ⟨n, front, known⟩, ?_⟩
      exact bind_eq_ok.2 ⟨sign, c', readSign_eq_ok.2 ⟨some sign, back, rfl, nofun⟩, rfl⟩

theorem applyLeadingOffset_eq_ok {c c' : Cursor} {u v : MeasureUnit}
    (leading : Option (SignedNumber × Sign)) {value : Option (Rat × Sign)}
    (h : value = none ∧ leading = none ∨
      ∃ (n : SignedNumber) (sign : Sign) (x : Rat), leading = some (n, sign) ∧ n.value? = some x ∧ value = some (x, sign)) :
    applyLeadingOffset u value c = .ok v c' ↔ leadingShift u leading = some v ∧ c = c' := by
  rcases h with ⟨rfl, rfl⟩ | ⟨n, sign, x, rfl, known, rfl⟩
  · rw [applyLeadingOffset, pure_eq_ok, leadingShift, Option.some.injEq]
  · cases sign with
    | plus =>
      rw [applyLeadingOffset, pure_eq_ok, leadingShift, known]
      simp
    | minus =>
      rw [applyLeadingOffset, leadingShift, known, bind_eq_ok]
      simp only [converter_eq_ok, pure_eq_ok, Option.bind_eq_bind, Option.bind_eq_some_iff,
        Option.bind_some, Option.pure_def, Option.some.injEq]
      constructor
      · rintro ⟨k, _, ⟨negation, rfl⟩, rfl, rfl⟩
        exact ⟨⟨k, negation, rfl⟩, rfl⟩
      · rintro ⟨⟨k, negation, rfl⟩, rfl⟩
        exact ⟨k, c, ⟨negation, rfl⟩, rfl, rfl⟩

end Metrology.Expression
