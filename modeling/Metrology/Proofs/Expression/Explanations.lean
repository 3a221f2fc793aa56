import Metrology.Proofs.Expression.Reuse
import Metrology.Proofs.Expression.TrailingNote

/-!
# What errors say of a text

Every error of a reading is explained by what was read: it is at the place of a token or at the end,
an unknown symbol is one of the tokens and not in the table, and a converter is refused because there
is none or its terms grow too large. An exponent that leaves its range never shows as such, since each
operation on powers is given the place of its operator; nor does a note that is not allowed, since no
note of a text has a closing brace in it. This holds of each reader once it holds of the readers it is
made of.
-/
namespace Metrology

/-! ### Converters -/

/-- Whether a converter was refused for what it is, or for growing too large. -/
def ConversionError.isRefusal : ConversionError → Bool
  | invalid _ | overflow => true
  | inexact _ => false

namespace Converter

theorem isRefusal_of_powNat {c : Converter} {n : Nat} {cause : ConversionError}
    (failed : c.powNat n = .error cause) : cause.isRefusal = true := by
  fun_induction powNat c n generalizing cause with
  | case1 | case2 => cases failed
  | case3 =>
    unfold ratioPower at failed
    split at failed <;> cases failed
    rfl
  | case4 =>
    unfold multiplyPower at failed
    dsimp only at failed
    split at failed <;> cases failed
    rfl
  | case5 _ outer inner _ outer_ih inner_ih =>
    cases outerPower : outer.powNat n with
    | error e =>
      rw [outerPower] at failed
      cases failed
      exact outer_ih outerPower
    | ok p =>
      cases innerPower : inner.powNat n with
      | error e =>
        rw [outerPower, innerPower] at failed
        cases failed
        exact inner_ih innerPower
      | ok q =>
        rw [outerPower, innerPower] at failed
        cases failed
  | case6 | case7 =>
    cases failed
    rfl

theorem isRefusal_of_pow {c : Converter} {n : Int} {cause : ConversionError}
    (failed : c.pow n = .error cause) : cause.isRefusal = true := by
  rw [pow] at failed
  cases power : c.powNat n.natAbs with
  | error cause' =>
    rw [power] at failed
    cases failed
    exact isRefusal_of_powNat power
  | ok p =>
    rw [power] at failed
    cases failed

theorem isRefusal_of_ofTerms {n d : Int} {cause : ConversionError}
    (failed : ofTerms n d = .error cause) : cause.isRefusal = true := by
  unfold ofTerms at failed
  split at failed <;> cases failed
  rfl

theorem isRefusal_of_scaling {factor : Rat} {cause : ConversionError}
    (failed : scaling factor = .error cause) : cause.isRefusal = true := by
  unfold scaling at failed
  split at failed
  · cases failed
  · exact isRefusal_of_ofTerms failed

theorem isRefusal_of_logTo {base : Float} {cause : ConversionError}
    (failed : logTo base = .error cause) : cause.isRefusal = true := by
  unfold logTo at failed
  split at failed <;> cases failed
  rfl

theorem isRefusal_of_expOf {base : Float} {cause : ConversionError}
    (failed : expOf base = .error cause) : cause.isRefusal = true := by
  unfold expOf at failed
  split at failed <;> cases failed
  rfl

end Converter

namespace Expression

open Reading

/-! ### Passages -/

/-- What is read: the tokens of a text with the place where it stops, and the table of its symbols.
The notes of a text have no closing brace in them. -/
structure Passage where
  table : SymbolTable
  tokens : List Token
  stop : Nat
  closed : ∀ t ∈ tokens, ∀ a, t.lexeme = .note a → '\x7d' ∉ a.toList

namespace Passage

variable (s : Passage) {α β : Type}

/-- Whether the rest of the passage stands in front of a cursor. -/
structure IsAt (c : Cursor) : Prop where
  suffix : c.rest <:+ s.tokens
  stop : c.stop = s.stop

/-- Whether a reader can come to the token. -/
def Has (t : Token) : Prop := t ∈ s.tokens ∨ t = ⟨.endOfInput, s.stop⟩

def IsPlace (position : Nat) : Prop := ∃ t, s.Has t ∧ t.position = position

inductive Explains : Error → Prop
  | malformed {position : Nat} (fault : Fault) :
      s.IsPlace position → Explains (.malformed position fault)
  | unknownUnit {symbol : String} {position : Nat} : ⟨.identifier symbol, position⟩ ∈ s.tokens →
      s.table.unit? symbol = none → Explains (.unknownUnit symbol position)
  | conversion {cause : ConversionError} : cause.isRefusal = true → Explains (.conversion cause)

/-- Whether a reading ends at some place of the passage, with an error that it accounts for if it
fails. -/
inductive Ends : EStateM.Result Error Cursor α → Prop
  | ok (a : α) {c : Cursor} : s.IsAt c → Ends (.ok a c)
  | error {e : Error} {c : Cursor} : s.Explains e → s.IsAt c → Ends (.error e c)

/-- Whether a reader ends so wherever it starts. -/
def Explained (m : Reading α) : Prop := ∀ c, s.IsAt c → s.Ends (m c)

variable {s}

/-! ### Steps -/

theorem explained_pure (a : α) : s.Explained (pure a) := fun _ place => .ok a place

/-- Readers one after the other end in the passage if each of them does. -/
theorem Explained.bind {m : Reading α} {f : α → Reading β} (h : s.Explained m)
    (next : ∀ a, s.Explained (f a)) : s.Explained (m >>= f) := by
  intro c place
  change s.Ends (EStateM.bind m f c)
  unfold EStateM.bind
  have first := h c place
  generalize m c = r at first
  cases first with
  | ok a behind => exact next a _ behind
  | error explains behind => exact .error explains behind

theorem explained_get {f : Cursor → Reading β} (next : ∀ c, s.Explained (f c)) :
    s.Explained (get >>= f) := fun c place => next c c place

/-- The next token of a cursor in the passage is one of the passage. -/
theorem IsAt.has {c : Cursor} (place : s.IsAt c) : s.Has (c.peek 0) := by
  obtain ⟨suffix, stop⟩ := place
  obtain ⟨rest, stop', depth⟩ := c
  cases stop
  cases rest with
  | nil => exact Or.inr rfl
  | cons t rest => exact Or.inl (suffix.subset (List.mem_cons_self))

/-- What depends on the next token may take it to be one of the passage. -/
theorem explained_token {f : Token → Reading β} (next : ∀ t, s.Has t → s.Explained (f t)) :
    s.Explained (token >>= f) := fun c place => next _ place.has c place

theorem explained_lexeme {f : Lexeme → Reading β}
    (next : ∀ t, s.Has t → s.Explained (f t.lexeme)) : s.Explained (lexeme >>= f) :=
  fun c place => next _ place.has c place

theorem explained_skip : s.Explained skip := fun c place =>
  .ok _ ⟨(List.tail_suffix c.rest).trans place.suffix, place.stop⟩

theorem Has.isPlace {t : Token} (h : s.Has t) : s.IsPlace t.position := ⟨t, h, rfl⟩

/-- A fault at a place of the passage is accounted for. -/
theorem explained_fail {position : Nat} (place : s.IsPlace position) (fault : Fault) :
    s.Explained (fail position fault : Reading α) :=
  fun _ here => .error (.malformed fault place) here

theorem explained_unexpected (what : Expectation) : s.Explained (unexpected what : Reading α) :=
  explained_token fun _ has => explained_fail has.isPlace _

theorem explained_expect (x : Lexeme) (what : Expectation) : s.Explained (expect x what) := by
  refine explained_lexeme fun t _ => ?_
  split
  · exact explained_skip
  · exact explained_unexpected what

/-- A step without reading needs its errors accounted for. -/
theorem explained_lift {step : Except Error α} (h : ∀ e, step = .error e → s.Explains e) :
    s.Explained (lift step) := by
  intro c place
  cases step with
  | ok a => exact .ok a place
  | error e => exact .error (h e rfl) place

/-- Whatever makes a converter is refused as a conversion. -/
theorem explained_converter {k : Except ConversionError Converter}
    (h : ∀ cause, k = .error cause → cause.isRefusal = true) : s.Explained (converter k) := by
  refine explained_lift fun e failed => ?_
  cases k <;> cases failed
  exact .conversion (h _ rfl)

/-- Errors of the arithmetic are put at the place where the operation stands. -/
theorem explains_locate {position : Nat} {step : Except Error MeasureUnit} {e : Error}
    (place : s.IsPlace position) (arithmetic : MeasureUnit.FailsInArithmetic step)
    (failed : step.mapError (locate position) = .error e) : s.Explains e := by
  cases step with
  | ok u => cases failed
  | error e' =>
    cases failed
    cases arithmetic e' rfl with
    | overflow => exact .malformed _ place
    | conversion cause power =>
      obtain ⟨c, n, power⟩ := power
      exact .conversion (Converter.isRefusal_of_pow power)

theorem explained_unitAt {position : Nat} {step : Except Error MeasureUnit}
    (place : s.IsPlace position) (arithmetic : MeasureUnit.FailsInArithmetic step) :
    s.Explained (unitAt position step) :=
  explained_lift fun _ failed => explains_locate place arithmetic failed

/-! ### Numbers and exponents -/

theorem explained_readSign : s.Explained readSign := by
  refine explained_lexeme fun t _ => ?_
  cases t.lexeme.sign? with
  | none => exact explained_pure _
  | some sign => exact explained_skip.bind fun _ => explained_pure sign

theorem explained_readNumber : s.Explained readNumber := by
  refine explained_readSign.bind fun sign => explained_token fun t has => ?_
  cases t.lexeme with
  | number literal =>
    refine explained_skip.bind fun _ => ?_
    cases literal.value? with
    | some value => exact explained_pure _
    | none => exact explained_fail has.isPlace _
  | _ => exact explained_unexpected _

theorem explained_readInteger : s.Explained readInteger := by
  refine explained_readSign.bind fun sign => explained_token fun t has => ?_
  cases t.lexeme.integer? with
  | none => exact explained_unexpected _
  | some digits =>
    refine explained_skip.bind fun _ => ?_
    cases exponentOf sign digits with
    | some n => exact explained_pure n
    | none => exact explained_fail has.isPlace _

/-- A power by a quotient of integers fails at the place of the caret. -/
theorem explains_rationalPower {u : MeasureUnit} {p q : Power} {position : Nat} {e : Error}
    (place : s.IsPlace position) (failed : rationalPower u p q position = .error e) :
    s.Explains e := by
  simp only [rationalPower] at failed
  split at failed
  · cases failed
    exact .malformed _ place
  · split at failed
    · rename_i n d _ _
      cases power : (u.pow n).mapError (locate position) with
      | error e' =>
        rw [power] at failed
        cases failed
        exact explains_locate place (MeasureUnit.failsInArithmetic_pow u n) power
      | ok w =>
        rw [power] at failed
        simp only [bind, Except.bind] at failed
        split at failed <;> cases failed
        exact .malformed _ place
    · cases failed
      exact .malformed _ place

theorem explained_readQuotient (u : MeasureUnit) {position : Nat} (place : s.IsPlace position) :
    s.Explained (readQuotient u position) := by
  have rest (p q : Power) : s.Explained (do
      expect .closeParen .closeParen
      lift (rationalPower u p q position)) :=
    (explained_expect _ _).bind fun _ => explained_lift fun _ => explains_rationalPower place
  refine explained_readInteger.bind fun p => explained_lexeme fun t _ => ?_
  split
  · exact explained_skip.bind fun _ => explained_readInteger.bind (rest p)
  · exact (explained_pure _).bind (rest p)

theorem explained_readExponent (u : MeasureUnit) : s.Explained (readExponent u) := by
  have power (n : Power) {position : Nat} (place : s.IsPlace position) :
      s.Explained (unitAt position (u.pow n)) :=
    explained_unitAt place (MeasureUnit.failsInArithmetic_pow u n)
  refine explained_token fun t has => ?_
  cases t.lexeme with
  | caret =>
    refine explained_skip.bind fun _ => explained_lexeme fun _ _ => ?_
    split
    · exact explained_skip.bind fun _ => explained_readQuotient u has.isPlace
    · exact explained_readInteger.bind fun n => power n has.isPlace
  | superscript digits =>
    refine explained_skip.bind fun _ => ?_
    cases exponentOf .plus digits with
    | some n => exact power n has.isPlace
    | none => exact explained_fail has.isPlace _
  | _ => exact explained_pure u

/-! ### Expressions -/

variable {nested : Reading MeasureUnit}

theorem explained_readEnclosed (h : s.Explained nested) : s.Explained (readEnclosed nested) :=
  h.bind fun u => (explained_expect _ _).bind fun _ => explained_pure u

/-- A note of the passage can be put on any unit. -/
theorem Has.annotate {t : Token} {a : String} (h : s.Has t) (note : t.lexeme = .note a)
    (u : MeasureUnit) : u.annotate a = .ok (.noted u a) := by
  rcases h with member | rfl
  · have closed := s.closed t member a note
    rw [MeasureUnit.annotate, if_neg (by simpa using closed)]
  · cases note

/-- A note of the passage is never refused, as it holds no closing brace. -/
theorem explained_annotate {t : Token} {a : String} (h : s.Has t) (note : t.lexeme = .note a)
    (u : MeasureUnit) : s.Explained (lift (u.annotate a)) := by
  rw [h.annotate note]
  exact explained_pure _

theorem explained_readNote (u : MeasureUnit) : s.Explained (readNote u) := by
  refine explained_lexeme fun t has => ?_
  split
  · rename_i note
    exact explained_skip.bind fun _ => explained_annotate has note u
  · exact explained_pure u

theorem explained_readOperand (h : s.Explained nested) : s.Explained (readOperand s.table nested) := by
  refine explained_token fun t has => ?_
  have number : s.Explained (do
      let value ← readNumber
      let scale ← converter (Converter.scaling value)
      readNote (MeasureUnit.one.transform scale)) :=
    explained_readNumber.bind fun value =>
      (explained_converter fun _ => Converter.isRefusal_of_scaling).bind fun scale =>
        explained_readNote _
  obtain ⟨x, position⟩ := t
  cases x with
  | number | plus | minus => exact number
  | identifier name =>
    refine explained_skip.bind fun _ => ?_
    cases found : s.table.unit? name with
    | some u => exact explained_readNote u
    | none =>
      intro c place
      have member : ⟨.identifier name, position⟩ ∈ s.tokens := has.resolve_right nofun
      exact .error (.unknownUnit member found) place
  | openParen => exact explained_skip.bind fun _ => (explained_readEnclosed h).bind explained_readNote
  | note a => exact explained_skip.bind fun _ => explained_annotate has rfl _
  | _ => exact explained_unexpected _

theorem explained_readLogarithm (base : LogBase) (h : s.Explained nested) :
    s.Explained (readLogarithm nested base) :=
  (explained_expect _ _).bind fun _ => (explained_readEnclosed h).bind fun _ =>
    (explained_converter fun _ => Converter.isRefusal_of_logTo).bind fun _ => explained_pure _

theorem explained_readPower (h : s.Explained nested) : s.Explained (readPower s.table nested) := by
  have operand := explained_readOperand h
  refine explained_lexeme fun t _ => ?_
  split
  · exact explained_skip.bind fun _ => explained_readLogarithm _ h
  · refine explained_get fun c => ?_
    cases c.exponential? with
    | some base =>
      exact explained_skip.bind fun _ => explained_skip.bind fun _ => operand.bind fun u =>
        (explained_converter fun _ => Converter.isRefusal_of_expOf).bind fun _ => explained_pure _
    | none => exact operand.bind explained_readExponent

/-- Factors end in the passage, however many there are. -/
theorem explained_readFactors {operand : Reading MeasureUnit} (h : s.Explained operand) (count : Nat)
    (u : MeasureUnit) : s.Explained (readFactors operand count u) := by
  induction count generalizing u with
  | zero => exact explained_pure u
  | succ count ih =>
    refine explained_token fun t has => ?_
    have times := explained_skip.bind fun _ => h.bind fun v =>
      (explained_unitAt has.isPlace (MeasureUnit.onlyOverflows_mul u v).failsInArithmetic).bind ih
    cases t.lexeme with
    | asterisk | middleDot => exact times
    | solidus =>
      exact explained_skip.bind fun _ => h.bind fun v =>
        (explained_unitAt has.isPlace (MeasureUnit.failsInArithmetic_div u v)).bind ih
    | _ => exact explained_pure u

theorem explained_readProduct (h : s.Explained nested) : s.Explained (readProduct s.table nested) :=
  (explained_readPower h).bind fun u => explained_get fun _ =>
    explained_readFactors (explained_readPower h) _ u

theorem explained_readLeadingOffset : s.Explained readLeadingOffset := by
  refine explained_get fun c => ?_
  split
  · exact explained_readNumber.bind fun _ => explained_readSign.bind fun _ => explained_pure _
  · exact explained_pure none

theorem explained_applyLeadingOffset (u : MeasureUnit) :
    (leading : Option (Rat × Sign)) → s.Explained (applyLeadingOffset u leading)
  | none => explained_pure u
  | some (_, .plus) => explained_pure _
  | some (_, .minus) =>
    (explained_converter fun _ => Converter.isRefusal_of_ofTerms).bind fun _ => explained_pure _

theorem explained_readTrailingOffset (u : MeasureUnit) : s.Explained (readTrailingOffset u) := by
  refine explained_lexeme fun t _ => ?_
  cases t.lexeme.sign? with
  | none => exact explained_pure u
  | some sign =>
    exact explained_skip.bind fun _ => explained_readNumber.bind fun _ => explained_pure _

/-- An expression ends in the passage. The induction is on the levels that are left. -/
theorem explained_offsetSum (levels : Nat) : s.Explained (offsetSum s.table levels) := by
  induction levels with
  | zero =>
    have counted : s.Explained (modify fun c => { c with depth := c.depth + 1 } : Reading PUnit) :=
      fun c place => .ok _ ⟨place.suffix, place.stop⟩
    exact counted.bind fun _ => explained_token fun t has => explained_fail has.isPlace _
  | succ levels ih =>
    exact explained_readLeadingOffset.bind fun leading => (explained_readProduct ih).bind fun u =>
      (explained_applyLeadingOffset u leading).bind explained_readTrailingOffset

theorem explained_readComponents {component : Reading MeasureUnit} (h : s.Explained component)
    (system : MeasureUnit) (count : Nat) :
    s.Explained (readComponents component system count) := by
  induction count with
  | zero => exact explained_pure _
  | succ count ih =>
    refine explained_lexeme fun t _ => ?_
    split
    · refine explained_skip.bind fun _ => explained_token fun t has => h.bind fun u => ?_
      have known := MeasureUnit.failsInArithmetic_systemUnit u
      refine (explained_unitAt has.isPlace known).bind fun other => ?_
      split
      · exact ih
      · exact explained_fail has.isPlace _
    · exact explained_pure _

theorem explained_readCompound : s.Explained (readCompound s.table) := by
  refine explained_get fun c => explained_token fun t has => ?_
  refine (explained_offsetSum _).bind fun u => explained_lexeme fun _ _ => ?_
  split
  · have known := MeasureUnit.failsInArithmetic_systemUnit u
    exact (explained_unitAt has.isPlace known).bind fun system => explained_get fun _ =>
      (explained_readComponents (explained_offsetSum _) system _).bind fun _ => explained_pure u
  · exact explained_pure u

/-- What is read of a passage ends at some place of it, with errors that it accounts for. -/
theorem explained_readExpression : s.Explained (readExpression s.table) := by
  refine explained_lexeme fun t _ => ?_
  split
  · exact explained_pure _
  · refine explained_readCompound.bind fun u => explained_lexeme fun t _ => ?_
    split
    · exact explained_pure u
    · exact explained_unexpected _

/-- A reading leaves the cursor in the passage and accounts for its error. -/
theorem IsAt.read {c : Cursor} (place : s.IsAt c) : s.IsAt (c.read s.table).2 ∧
    ∀ e, (c.read s.table).1 = .error e → s.Explains e := by
  have ends := explained_readExpression c place
  unfold Cursor.read
  generalize readExpression s.table c = r at ends
  cases ends with
  | ok u behind => exact ⟨behind, nofun⟩
  | error explains behind =>
    refine ⟨behind, fun e failed => ?_⟩
    cases failed
    exact explains

/-- A cursor stays in the passage, whatever the readings come to. -/
theorem IsAt.afterReads {c : Cursor} (place : s.IsAt c) (n : Nat) :
    s.IsAt (c.afterReads s.table n) := by
  induction n with
  | zero => exact place
  | succ n ih => exact ih.read.1

end Passage

/-! ### Texts -/

/-- The notes of a text that is read through have no closing brace in them. -/
theorem closed_of_tokens {text : List Char} {n : Nat} {tokens : List Token}
    (h : (Scanner.mk text n).tokens = .ok tokens) :
    ∀ t ∈ tokens, ∀ a, t.lexeme = .note a → '\x7d' ∉ a.toList := by
  refine Scanner.tokens_induction_words (P := fun _ _ tokens => ∀ t ∈ tokens, ∀ a,
    t.lexeme = .note a → '\x7d' ∉ a.toList) ?_ ?_ h
  · exact fun _ _ => List.forall_mem_nil _
  · intro x blanks word rest tokens n _ isWord _ ih
    refine List.forall_mem_cons.2 ⟨fun a note => ?_, ih⟩
    rcases isWord.isPlainOrNote with ⟨inner, closed, eq, -⟩ | ⟨plain, -⟩
    · cases eq.symm.trans note
      rwa [String.toList_ofList]
    · exact absurd note (plain a)

def Passage.ofText (table : SymbolTable) {text : String} {tokens : List Token}
    (scanned : (Scanner.ofText text).tokens = .ok tokens) : Passage :=
  ⟨table, tokens, text.length, closed_of_tokens scanned⟩

/-- Reading starts in the passage of the text. -/
theorem Passage.isAt_ofText (table : SymbolTable) {text : String} {tokens : List Token}
    (scanned : (Scanner.ofText text).tokens = .ok tokens) :
    (Passage.ofText table scanned).IsAt ⟨tokens, text.length, 0⟩ :=
  ⟨List.suffix_refl tokens, rfl⟩

end Expression

/-- Whether reading a text can come to the error. -/
def Error.isReported : Error → Bool
  | .malformed _ _ | .unknownUnit _ _ | .conversion (.invalid _) | .conversion .overflow => true
  | _ => false

namespace Expression

/-- All errors that a passage accounts for are of the reported kinds. -/
theorem Passage.Explains.isReported {s : Passage} {e : Error} (h : s.Explains e) :
    e.isReported = true := by
  cases h with
  | malformed | unknownUnit => rfl
  | @conversion cause refusal => cases cause <;> first | rfl | cases refusal

/-- The errors of the scanner are of the reported kinds. -/
theorem isReported_of_tokens {s : Scanner} {e : Error} (failed : s.tokens = .error e) :
    e.isReported = true := by
  obtain ⟨_, _, _, -, -, -, rfl⟩ := Scanner.refused_of_tokens failed
  rfl

theorem isReported_of_parseBody {table : SymbolTable} {text : String} {e : Error}
    (failed : parseBody table text = .error e) : e.isReported = true := by
  cases scanned : (Scanner.ofText text).tokens with
  | error e' =>
    cases (parseBody_of_error scanned).symm.trans failed
    exact isReported_of_tokens scanned
  | ok tokens =>
    rw [parseBody_eq scanned] at failed
    exact ((Passage.isAt_ofText table scanned).read.2 e failed).isReported

theorem isReported_of_ofText {text : String} {e : Error} (failed : Cursor.ofText text = .error e) :
    e.isReported = true := by
  cases scanned : (Scanner.ofText text).tokens with
  | error e' =>
    rw [Cursor.ofText, scanned] at failed
    cases failed
    exact isReported_of_tokens scanned
  | ok tokens =>
    rw [Cursor.ofText, scanned] at failed
    cases failed

/-- Reading a text, with or without a note at its end, comes to a unit or to one of four kinds of
error: the text is malformed, a unit in it is unknown, or a converter in it does not exist or grows
too large. So does every reading that goes on where others have stopped. -/
theorem isReported_of_parse (table : SymbolTable) (text : String) :
    (∀ e, parse table text = .error e → e.isReported = true) ∧
    (∀ e, Cursor.ofText text = .error e → e.isReported = true) ∧
    ∀ c, Cursor.ofText text = .ok c → ∀ n e,
      ((c.afterReads table n).read table).1 = .error e → e.isReported = true := by
  refine ⟨fun e failed => ?_, fun e => isReported_of_ofText, fun c start n e failed => ?_⟩
  · unfold parse at failed
    split at failed
    · cases failed
    · split at failed
      · rename_i body note split
        cases read : parseBody table (String.ofList body) with
        | error e' =>
          rw [read] at failed
          cases failed
          exact isReported_of_parseBody read
        | ok u =>
          have closed := not_mem_of_splitNote? split
          rw [read] at failed
          change u.annotate (String.ofList note) = .error e at failed
          rw [MeasureUnit.annotate, if_neg (by simpa using closed)] at failed
          cases failed
      · exact isReported_of_parseBody failed
  · cases scanned : (Scanner.ofText text).tokens with
    | error e' =>
      rw [Cursor.ofText, scanned] at start
      cases start
    | ok tokens =>
      rw [Cursor.ofText, scanned] at start
      cases start
      have place := (Passage.isAt_ofText table scanned).afterReads n
      exact (place.read.2 e failed).isReported

/-- A number that is no scaling, a brace that closes nothing, and the second reading of three words. -/
theorem isReported_of_parse_zero :
    let table := (SymbolMap.empty.addLabel (.base "m") "m").table
    let scaling : Error := .conversion (.invalid (.terms .zeroDividend))
    let brace : Error := .malformed 1 (.unexpectedCharacter '\x7d')
    let words : Cursor := ⟨[⟨.identifier "m", 0⟩, ⟨.identifier "m", 2⟩, ⟨.identifier "m", 4⟩], 5, 0⟩
    let second : Error := .malformed 4 (.expected .endOfInput (.identifier "m"))
    (parse table "0" = .error scaling ∧ scaling.isReported = true) ∧
    (Cursor.ofText "m\x7d" = .error brace ∧ brace.isReported = true) ∧
    Cursor.ofText "m m m" = .ok words ∧
      ((words.afterReads table 1).read table).1 = .error second ∧ second.isReported = true := by
  intro table scaling brace words second
  have zero : parse table "0" = .error scaling := by
    have scanned : (Scanner.ofText "0").tokens = .ok [⟨.number ⟨['0'], [], none⟩, 0⟩] := by
      refine Scanner.tokens_of_next ⟨_, 1⟩ rfl (by decide) ?_
      exact Scanner.tokens_of_end ⟨[], 1⟩ rfl rfl
    have plain : ∀ front a p, [⟨.number ⟨['0'], [], none⟩, 0⟩] ≠ front ++ [(⟨.note a, p⟩ : Token)] := by
      intro front a p eq
      rcases List.append_eq_singleton_iff.1 eq.symm with ⟨-, last⟩ | ⟨-, last⟩ <;> cases last
    rw [parse_of_no_last_note table scanned plain, parseBody_eq scanned]
    rfl
  have refused : Cursor.ofText "m\x7d" = .error brace := by
    have scanned : (Scanner.ofText "m\x7d").tokens = .error brace := by
      rw [Scanner.tokens_eq_map (t := ⟨.identifier "m", 0⟩) ⟨['\x7d'], 1⟩ rfl (by decide),
        Scanner.tokens_of_error ⟨['\x7d'], 1⟩ rfl]
      rfl
    rw [Cursor.ofText, scanned]
    rfl
  have start : Cursor.ofText "m m m" = .ok words := by
    have scanned : (Scanner.ofText "m m m").tokens = .ok words.rest := by
      refine Scanner.tokens_of_next ⟨_, 1⟩ rfl (by decide) ?_
      refine Scanner.tokens_of_next ⟨_, 3⟩ rfl (by decide) ?_
      refine Scanner.tokens_of_next ⟨_, 5⟩ rfl (by decide) ?_
      exact Scanner.tokens_of_end ⟨[], 5⟩ rfl rfl
    rw [Cursor.ofText, scanned]
    rfl
  have failed : ((words.afterReads table 1).read table).1 = .error second := rfl
  exact ⟨⟨zero, (isReported_of_parse table "0").1 _ zero⟩,
    ⟨refused, (isReported_of_parse table "m\x7d").2.1 _ refused⟩, start, failed,
    (isReported_of_parse table "m m m").2.2 _ start 1 _ failed⟩

end Expression

end Metrology
