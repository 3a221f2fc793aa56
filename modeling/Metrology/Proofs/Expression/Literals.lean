import Metrology.Expression.Parser
import Metrology.Proofs.Token.Decimals
import Metrology.Proofs.Token.Lookahead

/-!
# Number literals

A literal is read as the number that its digits and its exponent say, or refused when it stands for
too many zeros. The decimal expansion of a number is such a literal, behind a minus if the number is
negative, and is read as the number that it was written for.
-/
namespace Metrology

open Rational (HasPlaces)

namespace Numeral

/-! ### Scanned literals -/

/-- Digits, with at most one point among them or before them, and perhaps an exponent. -/
structure IsLiteral (n : Numeral) : Prop where
  whole : ∀ c ∈ n.whole, c.isDigit = true
  fraction : ∀ c ∈ n.fraction, c.isDigit = true
  digits : n.whole ≠ [] ∨ n.fraction ≠ []
  exponent : ∀ e ∈ n.exponent, (e.marker = 'e' ∨ e.marker = 'E') ∧ IsDigits e.digits

theorem forall_scanDigits (text : List Char) : ∀ c ∈ (scanDigits text).1, c.isDigit = true :=
  List.all_eq_true.1 List.all_takeWhile

theorem forall_scanFraction (text : List Char) : ∀ c ∈ (scanFraction text).1, c.isDigit = true := by
  unfold scanFraction
  split
  · split
    · exact forall_scanDigits _
    · simp
  · simp

theorem isDigits_scanExponent {text : List Char} {e : Exponent} (h : (Exponent.scan text).1 = some e) :
    (e.marker = 'e' ∨ e.marker = 'E') ∧ IsDigits e.digits := by
  unfold Exponent.scan at h
  split at h
  · cases h
  · rename_i marker rest
    simp only at h
    split at h
    · rename_i starts
      cases h
      rw [Bool.and_eq_true, Bool.or_eq_true, beq_iff_eq, beq_iff_eq] at starts
      exact ⟨starts.1, Lexeme.startsWithDigit_iff.1 starts.2, forall_scanDigits _⟩
    · cases h

/-- What is scanned as a number is a literal. -/
theorem isLiteral_scan {text : List Char} (h : starts text = true) : (scan text).1.IsLiteral where
  whole := forall_scanDigits _
  fraction := forall_scanFraction _
  digits := Lexeme.starts_iff.1 h
  exponent := fun _ he => isDigits_scanExponent he

/-! ### Values -/

/-- The exponent, 0 if there is none. -/
def power (n : Numeral) : Int := (n.exponent.map Exponent.value).getD 0

/-- Whether the exponent is an integer of 64 bits and the point moves by at most 400 places. -/
def IsInRange (n : Numeral) : Prop :=
  (-2 ^ 63 ≤ n.power ∧ n.power < 2 ^ 63) ∧ |n.power - n.fraction.length| ≤ 400

/-- Moving the point by a power of ten on one side or the other multiplies by it. -/
theorem mkRat_shift (n : Nat) (k : Int) :
    mkRat (n * Nat.pow 10 k.toNat) (Nat.pow 10 (-k).toNat) = n * (10 : Rat) ^ k := by
  have up (j : Nat) : ((Nat.pow 10 j : Nat) : Rat) = 10 ^ j := Nat.cast_pow 10 j
  rw [Rat.mkRat_eq_div]
  rcases Int.le_total 0 k with nonneg | nonpos
  · obtain ⟨j, rfl⟩ := Int.eq_ofNat_of_zero_le nonneg
    have none : (-(j : Int)).toNat = 0 := by omega
    rw [none, Int.toNat_natCast, zpow_natCast]
    push_cast [up]
    simp
  · obtain ⟨j, rfl⟩ := Int.exists_eq_neg_ofNat nonpos
    have none : (-(j : Int)).toNat = 0 := by omega
    rw [none, neg_neg, Int.toNat_natCast, zpow_neg, zpow_natCast, ← div_eq_mul_inv]
    push_cast [up]
    simp

/-- A literal has the value of its digits with the point moved, unless it is out of range. -/
theorem value?_eq {n : Numeral} : n.value? =
    if (exponentInRange n.power && (n.power - n.fraction.length).natAbs ≤ maxShift) = true then
      some (n.digits * (10 : Rat) ^ (n.power - n.fraction.length)) else none := by
  rw [← mkRat_shift]
  rfl

/-- The test for the range decides it. -/
theorem isInRange_iff {n : Numeral} : n.IsInRange ↔
    (exponentInRange n.power && (n.power - n.fraction.length).natAbs ≤ maxShift) = true := by
  simp only [IsInRange, exponentInRange, maxShift]
  grind

theorem value?_of_isInRange {n : Numeral} (h : n.IsInRange) :
    n.value? = some (n.digits * (10 : Rat) ^ (n.power - n.fraction.length)) := by
  rw [value?_eq, if_pos (isInRange_iff.1 h)]

theorem value?_of_not_isInRange {n : Numeral} (h : ¬n.IsInRange) : n.value? = none := by
  rw [value?_eq, if_neg (mt isInRange_iff.2 h)]

end Numeral

namespace Lexeme

/-- A number is scanned as a literal. -/
theorem isLiteral_of_scan {text rest : List Char} {literal : Numeral}
    (h : scan text = .ok (number literal, rest)) : literal.IsLiteral := by
  cases text with
  | nil => cases h
  | cons c tail =>
    rw [scan] at h
    split at h
    · rename_i char
      cases h
      unfold ofChar? at char
      split at char <;> cases char
    · split at h
      · rename_i starts
        cases h
        exact Numeral.isLiteral_scan starts
      · split at h
        · cases h
        · split at h
          · split at h <;> cases h
          · split at h
            · have word := congrArg Prod.fst (Except.ok.inj h)
              rcases ofName_cases ((c :: tail).takeWhile continuesIdentifier)
                ((c :: tail).dropWhile continuesIdentifier) with ⟨s, name⟩ | ⟨base, name⟩
              · cases name.symm.trans word
              · cases name.symm.trans word
            · cases h

end Lexeme

namespace Scanner

/-- A number that is read is a literal and stands where its token says. -/
theorem Yields.number {s : Scanner} {literal : Numeral} {p : Nat} (h : s.Yields ⟨.number literal, p⟩) :
    literal.IsLiteral ∧
      ∃ front back, s.rest = front ++ literal.text ++ back ∧ s.position + front.length = p := by
  generalize eq : (⟨.number literal, p⟩ : Token) = t at h
  induction h with
  | @here s t after next =>
    subst eq
    obtain ⟨x, rest, scanned, token, -⟩ := next_eq_ok next
    cases token
    obtain ⟨piece, token, text, position, -⟩ := exists_piece_of_next next (by simp)
    have spelled := piece.isSpelled
    rw [token] at spelled
    obtain spelling : piece.spelling = literal.text := by
      simpa [Lexeme.spellings, Lexeme.value] using spelled
    refine ⟨Lexeme.isLiteral_of_scan scanned, piece.blanks, after.rest, ?_, position.symm⟩
    rw [text, Piece.text, spelling]
  | @later s t first after next notEnd _ ih =>
    obtain ⟨isLiteral, front, back, chars, place⟩ := ih eq
    obtain ⟨piece, -, text, -, position⟩ := exists_piece_of_next next notEnd
    refine ⟨isLiteral, piece.text ++ front, back, ?_, ?_⟩
    · rw [text, chars]
      simp only [List.append_assoc]
    · rw [List.length_append, ← place, position, Nat.add_assoc]

end Scanner

/-! ### Reading literals -/

namespace Expression

variable {literal : Numeral}

theorem readNumber_number (literal : Numeral) (p : Nat) (rest : List Token) (stop depth : Nat) :
    readNumber ⟨⟨.number literal, p⟩ :: rest, stop, depth⟩ =
      match literal.value? with
      | some value => .ok value ⟨rest, stop, depth⟩
      | none => .error (.malformed p .numberOutOfRange) ⟨rest, stop, depth⟩ := by
  change (match literal.value? with
    | some value => pure value
    | none => Reading.fail p .numberOutOfRange : Reading Rat) ⟨rest, stop, depth⟩ = _
  cases literal.value? <;> rfl

theorem readNumber_of_isInRange (h : literal.IsInRange) (p : Nat) (rest : List Token)
    (stop depth : Nat) : readNumber ⟨⟨.number literal, p⟩ :: rest, stop, depth⟩ =
      .ok (literal.digits * 10 ^ (literal.power - literal.fraction.length)) ⟨rest, stop, depth⟩ := by
  rw [readNumber_number, Numeral.value?_of_isInRange h]

theorem readNumber_of_not_isInRange (h : ¬literal.IsInRange) (p : Nat) (rest : List Token)
    (stop depth : Nat) : readNumber ⟨⟨.number literal, p⟩ :: rest, stop, depth⟩ =
      .error (.malformed p .numberOutOfRange) ⟨rest, stop, depth⟩ := by
  rw [readNumber_number, Numeral.value?_of_not_isInRange h]

/-! ### Expansions -/

variable {v : Rat} {s : String}

/-- A number is written with the fewest places that it has. -/
theorem decimalText?_eq_some_iff : Rational.decimalText? v = some s ↔
    ∃ k, IsLeast {k | HasPlaces v k} k ∧
      s = Text.minusIf (v < 0) ++ Text.fixedPoint (Rational.scaled v k).natAbs k := by
  simp only [Rational.decimalText?, Option.map_eq_some_iff, Rational.places?_den_eq_some_iff,
    Rat.num_neg, @eq_comm _ s]

/-- Exactly the numbers with a finite expansion are written. -/
theorem exists_decimalText?_iff : (∃ s, Rational.decimalText? v = some s) ↔ ∃ k, HasPlaces v k := by
  constructor
  · rintro ⟨s, text⟩
    obtain ⟨k, least, -⟩ := decimalText?_eq_some_iff.1 text
    exact ⟨k, least.1⟩
  · rintro ⟨k, enough⟩
    obtain ⟨places, found, -⟩ := Rational.places?_eq_some (Rational.hasPlaces_iff.1 enough)
    exact ⟨_, decimalText?_eq_some_iff.2 ⟨places, Rational.places?_den_eq_some_iff.1 found, rfl⟩⟩

/-- What is written is scanned as one number. -/
theorem tokenize_fixedPoint (n k : Nat) : tokenize (Text.fixedPoint n k) =
    .ok [⟨.number (.fixed n k), 0⟩, ⟨.endOfInput, (Text.fixedPoint n k).length⟩] := by
  have ends : (Lexeme.number (.fixed n k)).Ends [] := by
    intro c hc
    cases hc
  have next := Lexeme.next_spelling 0 (Numeral.isSpelled_fixed n k) ends
  rw [Lexeme.spelling, Numeral.text_fixed, List.append_nil] at next
  have scanned := Scanner.tokens_of_next _ next (by simp) (Scanner.tokens_of_end ⟨[], _⟩ rfl rfl)
  exact Scanner.tokenize_of_tokens scanned

theorem head?_fixedPoint_ne (n k : Nat) : (Text.fixedPoint n k).toList.head? ≠ some '-' := by
  rw [← Numeral.text_fixed]
  obtain ⟨⟨some, digits⟩, -⟩ := Numeral.isSpelled_fixed n k
  obtain ⟨c, tail, whole⟩ := List.exists_cons_of_ne_nil some
  have digit : c.isDigit = true := digits c (by simp [whole])
  intro minus
  simp only [Numeral.text, whole, List.cons_append, List.head?_cons, Option.some.injEq] at minus
  subst minus
  cases digit

theorem head?_minusIf (negative : Bool) {text : String} (plain : text.toList.head? ≠ some '-') :
    (Text.minusIf negative ++ text).toList.head? = some '-' ↔ negative = true := by
  cases negative <;> simp [Text.minusIf, plain]

/-- What is written is in range unless it has more than 400 places. -/
theorem isInRange_fixed_iff (n k : Nat) : (Numeral.fixed n k).IsInRange ↔ k ≤ 400 := by
  have power : (Numeral.fixed n k).power = 0 := rfl
  rw [Numeral.IsInRange, Numeral.length_fraction_fixed, power, zero_sub, abs_neg, Nat.abs_cast]
  omega

/-- A number in a text is a literal that stands there, and is read as its digits times ten to the power
of its exponent less the digits behind the point, as long as that is in range. The numbers with a decimal
expansion are those that have finitely many places; the expansion is one literal, behind a minus just if
the number is negative, and is read as the magnitude if 400 places suffice. -/
theorem number_literals_exact :
    (∀ (text : String) (literal : Numeral) (p : Nat),
      (Scanner.ofText text).Yields ⟨.number literal, p⟩ →
      literal.IsLiteral ∧
      (∃ front back, text.toList = front ++ literal.text ++ back ∧ front.length = p) ∧
      ∀ rest stop depth,
        (literal.IsInRange → readNumber ⟨⟨.number literal, p⟩ :: rest, stop, depth⟩ =
          .ok (literal.digits * 10 ^ (literal.power - literal.fraction.length))
            ⟨rest, stop, depth⟩) ∧
        (¬literal.IsInRange → readNumber ⟨⟨.number literal, p⟩ :: rest, stop, depth⟩ =
          .error (.malformed p .numberOutOfRange) ⟨rest, stop, depth⟩)) ∧
    ∀ v : Rat, ((∃ s, Rational.decimalText? v = some s) ↔ ∃ k, HasPlaces v k) ∧
      ∀ s, Rational.decimalText? v = some s → ∃ u literal,
        s = Text.minusIf (v < 0) ++ u ∧ (s.toList.head? = some '-' ↔ v < 0) ∧
        tokenize u = .ok [⟨.number literal, 0⟩, ⟨.endOfInput, u.length⟩] ∧
        ∀ rest stop depth,
          (HasPlaces v 400 → readNumber ⟨⟨.number literal, 0⟩ :: rest, stop, depth⟩ =
            .ok |v| ⟨rest, stop, depth⟩) ∧
          (¬HasPlaces v 400 → readNumber ⟨⟨.number literal, 0⟩ :: rest, stop, depth⟩ =
            .error (.malformed 0 .numberOutOfRange) ⟨rest, stop, depth⟩) := by
  refine ⟨fun text literal p yields => ?_, fun v => ⟨exists_decimalText?_iff, ?_⟩⟩
  · obtain ⟨isLiteral, front, back, chars, place⟩ := yields.number
    refine ⟨isLiteral, ⟨front, back, chars, (Nat.zero_add _).symm.trans place⟩, ?_⟩
    exact fun rest stop depth => ⟨fun range => readNumber_of_isInRange range p rest stop depth,
      fun range => readNumber_of_not_isInRange range p rest stop depth⟩
  · intro s text
    obtain ⟨k, least, rfl⟩ := decimalText?_eq_some_iff.1 text
    refine ⟨_, _, rfl, ?_, tokenize_fixedPoint _ k, fun rest stop depth => ⟨fun short => ?_, fun long => ?_⟩⟩
    · rw [head?_minusIf _ (head?_fixedPoint_ne _ k), decide_eq_true_eq]
    · rw [readNumber_number, Numeral.value?_fixed_scaled (least.2 short) least.1]
    · refine readNumber_of_not_isInRange (fun range => long ?_) 0 rest stop depth
      exact least.1.mono ((isInRange_fixed_iff _ k).1 range)

/-- A small literal and a huge one in front of a brace that is refused, and the expansion of a negative
number. -/
theorem number_literals_exact_eighth :
    let small : Numeral := ⟨['1'], ['5'], some ⟨'e', some .minus, ['2']⟩⟩
    let huge : Numeral := ⟨['1'], [], some ⟨'E', none, ['5', '0', '0']⟩⟩
    let start := Scanner.ofText " 1.5e-2·1E500\x7d"
    ((start.Yields ⟨.number small, 1⟩ ∧ start.Yields ⟨.number huge, 8⟩) ∧
      small.IsInRange ∧ readNumber ⟨[⟨.number small, 1⟩], 14, 0⟩ = .ok (3 / 200) ⟨[], 14, 0⟩ ∧
      ¬huge.IsInRange ∧ readNumber ⟨[⟨.number huge, 8⟩], 14, 0⟩ =
        .error (.malformed 8 .numberOutOfRange) ⟨[], 14, 0⟩) ∧
    Rational.decimalText? (-1 / 8) = some "-0.125" ∧ HasPlaces (-1 / 8) 400 ∧
      ∃ u literal, "-0.125" = "-" ++ u ∧
        tokenize u = .ok [⟨.number literal, 0⟩, ⟨.endOfInput, u.length⟩] ∧
        readNumber ⟨[⟨.number literal, 0⟩], 5, 0⟩ = .ok (1 / 8) ⟨[], 5, 0⟩ := by
  intro small huge start
  have yields : start.Yields ⟨.number small, 1⟩ := .here ⟨"·1E500\x7d".toList, 7⟩ rfl
  have yields' : start.Yields ⟨.number huge, 8⟩ := by
    refine .later ⟨"·1E500\x7d".toList, 7⟩ rfl (by decide) ?_
    refine .later ⟨"1E500\x7d".toList, 8⟩ rfl (by decide) ?_
    exact .here ⟨"\x7d".toList, 13⟩ rfl
  have inRange : small.IsInRange := Numeral.isInRange_iff.2 (by decide)
  have outOfRange : ¬huge.IsInRange := mt Numeral.isInRange_iff.1 (by decide)
  have value : (small.digits : Rat) * 10 ^ (small.power - small.fraction.length) = 3 / 200 := by
    rw [← Numeral.mkRat_shift]
    decide +kernel
  have text : Rational.decimalText? (-1 / 8) = some "-0.125" := by decide +kernel
  have short : HasPlaces (-1 / 8) 400 := Rational.hasPlaces_iff.2 (by decide +kernel)
  have negative : decide ((-1 / 8 : Rat) < 0) = true := by decide +kernel
  have magnitude : |(-1 / 8 : Rat)| = 1 / 8 := by decide +kernel
  obtain ⟨-, -, read⟩ := number_literals_exact.1 _ _ _ yields
  obtain ⟨-, -, refuse⟩ := number_literals_exact.1 _ _ _ yields'
  obtain ⟨u, literal, split, -, single, back⟩ := (number_literals_exact.2 (-1 / 8)).2 _ text
  rw [negative] at split
  have back := (back [] 5 0).1 short
  rw [magnitude] at back
  refine ⟨⟨⟨yields, yields'⟩, inRange, ?_, outOfRange, (refuse [] 14 0).2 outOfRange⟩, text, short, u,
    literal, split, single, back⟩
  rw [← value]
  exact (read [] 14 0).1 inRange

end Expression

end Metrology
