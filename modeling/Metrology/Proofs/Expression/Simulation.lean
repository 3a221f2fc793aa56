import Metrology.Proofs.Expression.Completeness
import Metrology.Proofs.MeasureUnit.Failures

/-!
# Reading two texts side by side

Two readers that stand before tokens of the same meaning take the same steps. What may differ is said
by a `Latitude`: where the tokens stand, how exponents and factor signs are spelled, and how many
levels of nesting are left, where the first reader may be stopped for nesting too deep while the
second goes on. Each reader is compared once for all latitudes, in the order of the parser.

Only a reading that is stopped for nesting too deep leaves a level counted.
-/
namespace Metrology

/-- Whether reading was stopped because no level of nesting was left. -/
def Error.isTooDeep : Error → Bool
  | .malformed _ (.tooDeep _) => true
  | _ => false

namespace Expression

open Reading

theorem bind_of_eq_error {α β : Type} {m : Reading α} {f : α → Reading β} {c c₁ : Cursor} {e : Error}
    (h : m c = .error e c₁) : (m >>= f) c = .error e c₁ := by
  change EStateM.bind m f c = _
  rw [EStateM.bind, h]

/-- What two readings need not have in common. -/
structure Latitude where
  /-- Which positions may stand for each other. -/
  position : Nat → Nat → Prop
  /-- Whether exponents and factor signs may be spelled in different ways. -/
  respelled : Prop
  /-- Whether the first reading may have fewer levels of nesting left. -/
  excused : Prop

namespace Latitude

variable {L : Latitude} {α β : Type} {c c' c₁ c₁' : Cursor} {x : Lexeme} {l l' : List Token}

/-! ### Places with the same meaning -/

inductive Alike (L : Latitude) : List Token → List Token → Prop
  | nil : L.Alike [] []
  | same (x : Lexeme) {p p' : Nat} {l l' : List Token} : L.position p p' → L.Alike l l' →
    L.Alike (⟨x, p⟩ :: l) (⟨x, p'⟩ :: l')
  | times (s s' : Separator) {p p' : Nat} {l l' : List Token} : L.respelled → L.position p p' →
    L.Alike l l' → L.Alike (⟨s.lexeme, p⟩ :: l) (⟨s'.lexeme, p'⟩ :: l')
  | exponent (digits : List Char) {p q p' : Nat} {l l' : List Token} : L.respelled →
    L.position p p' → L.position q p' → L.Alike l l' →
    L.Alike (⟨.caret, p⟩ :: ⟨.number ⟨digits, [], none⟩, q⟩ :: l) (⟨.superscript digits, p'⟩ :: l')

/-- Whether two places have tokens of the same meaning in front of them. -/
structure Matches (L : Latitude) (c c' : Cursor) : Prop where
  tokens : L.Alike c.rest c'.rest
  stop : L.position c.stop c'.stop

/-- How the next words of two such places compare. -/
inductive Nexts (L : Latitude) (c c' : Cursor) : Lexeme → Lexeme → Prop
  | same (x : Lexeme) : c.next = x → c'.next = x → L.Matches c.tail c'.tail → L.Nexts c c' x x
  | times (s s' : Separator) : c.next = s.lexeme → c'.next = s'.lexeme → L.Matches c.tail c'.tail →
    L.Nexts c c' s.lexeme s'.lexeme
  | exponent (digits : List Char) : c.tail.next = .number ⟨digits, [], none⟩ →
    L.Matches c.tail.tail c'.tail → L.position (c.tail.peek 0).position (c'.peek 0).position →
    L.Nexts c c' .caret (.superscript digits)

/-- The next words are the same, or two spellings of one. -/
theorem Matches.nexts (h : L.Matches c c') : L.Nexts c c' c.next c'.next := by
  obtain ⟨rest, stop, depth⟩ := c
  obtain ⟨rest', stop', depth'⟩ := c'
  obtain ⟨tokens, stops⟩ := h
  cases tokens with
  | nil => exact .same _ rfl rfl ⟨.nil, stops⟩
  | same x position rest => exact .same _ rfl rfl ⟨rest, stops⟩
  | times s s' respelled position rest => exact .times s s' rfl rfl ⟨rest, stops⟩
  | exponent digits respelled position position' rest =>
    exact .exponent digits rfl ⟨rest, stops⟩ position'

theorem Matches.position (h : L.Matches c c') :
    L.position (c.peek 0).position (c'.peek 0).position := by
  obtain ⟨rest, stop, depth⟩ := c
  obtain ⟨rest', stop', depth'⟩ := c'
  obtain ⟨tokens, stops⟩ := h
  cases tokens <;> assumption

theorem Matches.next_eq_or_respelled (h : L.Matches c c') : c.next = c'.next ∨ L.respelled := by
  obtain ⟨rest, stop, depth⟩ := c
  obtain ⟨rest', stop', depth'⟩ := c'
  obtain ⟨tokens, stops⟩ := h
  cases tokens with
  | nil | same => exact Or.inl rfl
  | times | exponent => exact Or.inr (by assumption)

/-- What does not tell factor signs apart nor the two ways to start an exponent gets the same answer
of the next words. -/
theorem Matches.agree (h : L.Matches c c') (f : Lexeme → β) (times : f .asterisk = f .middleDot)
    (exponent : ∀ digits, f .caret = f (.superscript digits)) : f c.next = f c'.next := by
  have nexts := h.nexts
  generalize c.next = x at nexts ⊢
  generalize c'.next = x' at nexts ⊢
  cases nexts with
  | same => rfl
  | times s s' => cases s <;> cases s' <;> first | rfl | exact times | exact times.symm
  | exponent digits => exact exponent digits

/-- Whether a word has one spelling. -/
def isPlain : Lexeme → Bool
  | .asterisk | .middleDot | .caret | .superscript _ => false
  | _ => true

/-- A word with one spelling stands in front of both places or of neither. -/
theorem Matches.next_iff (h : L.Matches c c') (plain : isPlain x = true) :
    c.next = x ↔ c'.next = x := by
  have agree := h.agree (fun y => decide (y = x)) ?_ ?_
  · simpa using agree
  · cases x <;> first | rfl | cases plain
  · intro digits
    cases x <;> first | rfl | cases plain

theorem Matches.tail (h : L.Matches c c') (plain : isPlain c.next = true) :
    L.Matches c.tail c'.tail := by
  have nexts := h.nexts
  generalize c.next = x at nexts plain
  generalize c'.next = x' at nexts
  cases nexts with
  | same _ _ _ tail => exact tail
  | times _ _ _ _ tail => exact tail
  | exponent => cases plain

/-! ### Outcomes with the same meaning -/

inductive Errors (L : Latitude) : Error → Error → Prop
  | refl (e : Error) : L.Errors e e
  | malformed {p p' : Nat} {fault fault' : Fault} : L.position p p' → fault = fault' ∨ L.respelled →
    L.Errors (.malformed p fault) (.malformed p' fault')
  | unknownUnit (symbol : String) {p p' : Nat} : L.position p p' →
    L.Errors (.unknownUnit symbol p) (.unknownUnit symbol p')

/-- Whether a place lies behind another or is the same, with as many levels counted. -/
structure Follows (c₁ c : Cursor) : Prop where
  depth : c₁.depth = c.depth
  length : c₁.rest.length ≤ c.rest.length

theorem Follows.refl (c : Cursor) : Follows c c := ⟨rfl, Nat.le_refl _⟩

theorem Follows.trans {c₂ : Cursor} (h : Follows c₂ c₁) (h' : Follows c₁ c) : Follows c₂ c :=
  ⟨h.depth.trans h'.depth, Nat.le_trans h.length h'.length⟩

theorem follows_tail (c : Cursor) : Follows c.tail c := by
  refine ⟨rfl, ?_⟩
  simp [Cursor.tail]

/-- Whether two readings, from these places, come to results of the same meaning. -/
inductive Outcome (L : Latitude) (c c' : Cursor) :
    EStateM.Result Error Cursor α → EStateM.Result Error Cursor α → Prop
  | ok (a : α) {c₁ c₁' : Cursor} : L.Matches c₁ c₁' → Follows c₁ c → Follows c₁' c' →
    L.Outcome c c' (.ok a c₁) (.ok a c₁')
  | error {e e' : Error} {c₁ c₁' : Cursor} : L.Errors e e' → L.Matches c₁ c₁' →
    c₁.depth = c.depth + e.isTooDeep.toNat → c₁'.depth = c'.depth + e'.isTooDeep.toNat →
    L.Outcome c c' (.error e c₁) (.error e' c₁')
  | excused {p : Nat} {c₁ : Cursor} {r : EStateM.Result Error Cursor α} : L.excused →
    c₁.depth = c.depth + 1 → L.Outcome c c' (.error (.malformed p (.tooDeep maxDepth)) c₁) r

/-- What holds from a place holds from any place before it. -/
theorem Outcome.before {r r' : EStateM.Result Error Cursor α} (h : L.Outcome c₁ c₁' r r')
    (behind : Follows c₁ c) (behind' : Follows c₁' c') : L.Outcome c c' r r' := by
  cases h with
  | ok a matched follows follows' =>
    exact .ok a matched (follows.trans behind) (follows'.trans behind')
  | error errors matched depth depth' =>
    exact .error errors matched (behind.depth ▸ depth) (behind'.depth ▸ depth')
  | excused excused depth => exact .excused excused (behind.depth ▸ depth)

/-- Whether two readers come to results of the same meaning from any places of the same meaning. -/
def Simulates (L : Latitude) (m m' : Reading α) : Prop :=
  ∀ ⦃c c' : Cursor⦄, L.Matches c c' → L.Outcome c c' (m c) (m' c')

/-- Outcomes go on alike if the rest does, from any places that match further on. -/
theorem Outcome.bind {m m' : Reading α} {f f' : α → Reading β}
    (h : L.Outcome c c' (m c) (m' c'))
    (next : ∀ a c₁ c₁', L.Matches c₁ c₁' → Follows c₁ c → Follows c₁' c' →
      L.Outcome c₁ c₁' (f a c₁) (f' a c₁')) :
    L.Outcome c c' ((m >>= f) c) ((m' >>= f') c') := by
  change L.Outcome c c' (EStateM.bind m f c) (EStateM.bind m' f' c')
  unfold EStateM.bind
  generalize m c = r at h
  generalize m' c' = r' at h
  cases h with
  | ok a matched follows follows' =>
    exact (next a _ _ matched follows follows').before follows follows'
  | error errors matched depth depth' => exact .error errors matched depth depth'
  | excused excused depth => exact .excused excused depth

/-- Readers one after the other are simulated one by one. -/
theorem Simulates.bind {m m' : Reading α} {f f' : α → Reading β} (h : L.Simulates m m')
    (next : ∀ a, L.Simulates (f a) (f' a)) : L.Simulates (m >>= f) (m' >>= f') :=
  fun _ _ matched => (h matched).bind fun a _ _ matched _ _ => next a matched

theorem simulates_pure (a : α) : L.Simulates (pure a) (pure a) :=
  fun _ _ matched => .ok a matched (.refl _) (.refl _)

/-- Readers that pass a word first. -/
theorem Outcome.skip {f f' : PUnit → Reading α} (matched : L.Matches c.tail c'.tail)
    (h : L.Simulates (f ⟨⟩) (f' ⟨⟩)) : L.Outcome c c' ((skip >>= f) c) ((skip >>= f') c') :=
  (h matched).before (follows_tail c) (follows_tail c')

/-- Readers that go by the next word. -/
theorem Matches.lexeme {f f' : Lexeme → Reading α} (h : L.Matches c c')
    (next : ∀ x x', L.Nexts c c' x x' → L.Outcome c c' (f x c) (f' x' c')) :
    L.Outcome c c' ((Reading.lexeme >>= f) c) ((Reading.lexeme >>= f') c') :=
  next _ _ h.nexts

/-- Readers that go by the next word and may fail at its position. -/
theorem Matches.token {f f' : Token → Reading α} (h : L.Matches c c')
    (next : ∀ x x', L.Nexts c c' x x' → L.Outcome c c' (f ⟨x, (c.peek 0).position⟩ c)
      (f' ⟨x', (c'.peek 0).position⟩ c')) :
    L.Outcome c c' ((Reading.token >>= f) c) ((Reading.token >>= f') c') :=
  next _ _ h.nexts

/-! ### Errors -/

theorem outcome_fail {p p' : Nat} {fault fault' : Fault} (h : L.Matches c c')
    (position : L.position p p') (same : fault = fault' ∨ L.respelled)
    (shallow : ∀ p, (Error.malformed p fault).isTooDeep = false)
    (shallow' : ∀ p, (Error.malformed p fault').isTooDeep = false) :
    L.Outcome c c' ((fail p fault : Reading α) c) ((fail p' fault' : Reading α) c') :=
  .error (.malformed position same) h (by rw [shallow]; rfl) (by rw [shallow']; rfl)

theorem simulates_unexpected (what : Expectation) :
    L.Simulates (unexpected what : Reading α) (unexpected what) := by
  intro c c' h
  refine outcome_fail h h.position ?_ (fun _ => rfl) fun _ => rfl
  exact h.next_eq_or_respelled.imp_left (congrArg (Fault.expected what))

/-- Whether two computations without reading come to the same value, or to errors of the same
meaning. -/
inductive Steps (L : Latitude) : Except Error α → Except Error α → Prop
  | ok (a : α) : L.Steps (.ok a) (.ok a)
  | error {e e' : Error} : L.Errors e e' → e.isTooDeep = false → e'.isTooDeep = false →
    L.Steps (.error e) (.error e')

theorem Steps.refl {step : Except Error α} (h : ∀ e, step = .error e → e.isTooDeep = false) :
    L.Steps step step := by
  cases step with
  | ok a => exact .ok a
  | error e => exact .error (.refl e) (h e rfl) (h e rfl)

/-- Steps without reading leave the places as they are. -/
theorem outcome_lift {step step' : Except Error α} (h : L.Matches c c') (same : L.Steps step step') :
    L.Outcome c c' (lift step c) (lift step' c') := by
  cases same with
  | ok a => exact .ok a h (.refl _) (.refl _)
  | error errors shallow shallow' =>
    exact .error errors h (by rw [shallow]; rfl) (by rw [shallow']; rfl)

theorem simulates_converter (k : Except ConversionError Converter) :
    L.Simulates (converter k) (converter k) := by
  intro c c' h
  refine outcome_lift h (.refl fun e failed => ?_)
  cases k <;> cases failed
  rfl

/-- Errors of the arithmetic are put at places that correspond. -/
theorem steps_locate {p p' : Nat} {step : Except Error MeasureUnit} (position : L.position p p')
    (arithmetic : MeasureUnit.FailsInArithmetic step) :
    L.Steps (step.mapError (locate p)) (step.mapError (locate p')) := by
  cases step with
  | ok u => exact .ok u
  | error e =>
    cases arithmetic e rfl with
    | overflow => exact .error (.malformed position (Or.inl rfl)) rfl rfl
    | conversion cause => exact .error (.refl _) rfl rfl

theorem outcome_unitAt {p p' : Nat} {step : Except Error MeasureUnit} (h : L.Matches c c')
    (position : L.position p p') (arithmetic : MeasureUnit.FailsInArithmetic step) :
    L.Outcome c c' (unitAt p step c) (unitAt p' step c') :=
  outcome_lift h (steps_locate position arithmetic)

/-- A power by a quotient of integers fails alike at places that correspond. -/
theorem steps_rationalPower (u : MeasureUnit) (n d : Power) {p p' : Nat}
    (position : L.position p p') : L.Steps (rationalPower u n d p) (rationalPower u n d p') := by
  have failed (fault : Fault) (shallow : ∀ p, (Error.malformed p fault).isTooDeep = false) :
      L.Steps (.error (.malformed p fault) : Except Error MeasureUnit)
        (.error (.malformed p' fault)) :=
    .error (.malformed position (Or.inl rfl)) (shallow p) (shallow p')
  simp only [rationalPower]
  by_cases zero : d.val = 0
  · rw [if_pos zero, if_pos zero]
    exact failed _ fun _ => rfl
  · rw [if_neg zero, if_neg zero]
    generalize Power.ofInt? (_ * n.val.tdiv _) = n'
    generalize Power.ofInt? (_ * d.val.tdiv _) = d'
    cases n' with
    | none => exact failed _ fun _ => rfl
    | some n' =>
      cases d' with
      | none => exact failed _ fun _ => rfl
      | some d' =>
        have power := steps_locate position (MeasureUnit.failsInArithmetic_pow u n')
        dsimp only
        generalize (u.pow n').mapError (locate p) = r at power
        generalize (u.pow n').mapError (locate p') = r' at power
        cases power with
        | error errors shallow shallow' => exact .error errors shallow shallow'
        | ok w =>
          simp only [bind, Except.bind]
          cases w.root? d' with
          | some root => exact .ok root
          | none => exact failed _ fun _ => rfl

end Latitude

end Expression

end Metrology
