import Metrology.Expression.Printer
import Metrology.Proofs.Decimal
import Metrology.Proofs.Expression.Grammar
import Metrology.Proofs.Token.Spelling

/-!
# Numbers in print

The literals that integers and offsets are written as, and that they have the value of what was
written. An offset is exact when its denominator divides a power of ten, and is read as long as
that is no more than the zeros that a literal may stand for.
-/
namespace Metrology

/-! ### Literals -/

namespace Numeral

/-- The literal of `n` in units of `10 ^ -places`, as `fixedPoint` writes it. -/
def fixed (n places : Nat) : Numeral :=
  let digits := Nat.toDigits 10 n
  let padded := List.replicate (places + 1 - digits.length) '0' ++ digits
  ⟨padded.take (padded.length - places), padded.drop (padded.length - places), none⟩

def ofNat (n : Nat) : Numeral := ⟨Nat.toDigits 10 n, [], none⟩

theorem fixed_zero (n : Nat) : fixed n 0 = ofNat n := by
  have some : 0 < (Nat.toDigits 10 n).length := Nat.length_toDigits_pos
  have none : 0 + 1 - (Nat.toDigits 10 n).length = 0 := by omega
  simp [fixed, ofNat, none]

theorem text_ofNat (n : Nat) : (ofNat n).text = (toString n).toList := by
  simp [ofNat, text]

/-- The literal is spelled as the number is written. -/
theorem text_fixed (n places : Nat) : (fixed n places).text = (Text.fixedPoint n places).toList := by
  by_cases whole : places = 0
  · rw [whole, fixed_zero, text_ofNat]
    rfl
  · have fraction : (fixed n places).fraction ≠ [] := by
      intro none
      have length := congrArg List.length none
      simp only [fixed, List.length_drop, List.length_append, List.length_replicate,
        List.length_nil] at length
      omega
    rw [text, Text.fixedPoint, if_neg whole, if_neg (by simpa using fraction)]
    simp [fixed]

/-- A literal of digits and perhaps a point. -/
theorem isSpelled_fixed (n places : Nat) : (Lexeme.number (fixed n places)).IsSpelled := by
  have digits : ∀ c ∈ List.replicate (places + 1 - (Nat.toDigits 10 n).length) '0' ++
      Nat.toDigits 10 n, c.isDigit = true := by
    intro c hc
    rcases List.mem_append.1 hc with hc | hc
    · rw [List.eq_of_mem_replicate hc]
      rfl
    · exact Nat.isDigit_of_mem_toDigits (by decide) (by decide) hc
  refine ⟨⟨?_, fun c hc => digits c (List.mem_of_mem_take hc)⟩,
    fun c hc => digits c (List.mem_of_mem_drop hc), rfl⟩
  intro none
  have length := congrArg List.length none
  simp only [fixed, List.length_take, List.length_append, List.length_replicate,
    List.length_nil] at length
  omega

theorem isSpelled_ofNat (n : Nat) : (Lexeme.number (ofNat n)).IsSpelled := by
  rw [← fixed_zero]
  exact isSpelled_fixed n 0

theorem length_fraction_fixed (n places : Nat) : (fixed n places).fraction.length = places := by
  simp only [fixed, List.length_drop, List.length_append, List.length_replicate]
  omega

/-- The literal has the value that is written. -/
theorem value?_fixed {n places : Nat} (short : places ≤ maxShift) :
    (fixed n places).value? = some (mkRat n (10 ^ places)) := by
  have digits : (fixed n places).digits = n := by
    simp only [fixed, Numeral.digits, List.take_append_drop, digitsValue, Nat.ofDigitChars_append,
      Nat.ofDigitChars_replicate_zero, Nat.mul_zero, Nat.ofDigitChars_ten_toDigits]
  have exponent : (fixed n places).exponent = none := rfl
  have range : exponentInRange 0 = true := rfl
  rw [value?, digits, length_fraction_fixed, exponent]
  simp only [Option.map_none, Option.getD_none, range, Bool.true_and, decide_eq_true_eq]
  rw [if_pos (by omega)]
  simp

/-- The literal of the expansion of a number has its magnitude. -/
theorem value?_fixed_scaled {v : Rat} {k : Nat} (short : k ≤ maxShift) (finite : Rational.HasPlaces v k) :
    (fixed (Rational.scaled v k).natAbs k).value? = some |v| := by
  have positive : (0 : Rat) < 10 ^ k := by positivity
  have magnitude : ((Rational.scaled v k).natAbs : Rat) = |v| * 10 ^ k := by
    rw [Nat.cast_natAbs, Int.cast_abs, Rational.scaled_eq (Rational.hasPlaces_iff.1 finite), abs_mul,
      abs_of_pos positive]
  have value : (mkRat (Rational.scaled v k).natAbs (10 ^ k) : Rat) = |v| := by
    rw [Rat.mkRat_eq_div, Int.cast_natCast, magnitude, Nat.cast_pow, Nat.cast_ofNat,
      mul_div_cancel_right₀ _ positive.ne']
  rw [value?_fixed short, value]

theorem value?_ofNat (n : Nat) : (ofNat n).value? = some (n : Rat) := by
  rw [← fixed_zero, value?_fixed (Nat.zero_le _), pow_zero]
  exact congrArg some (Rat.mkRat_one _)

theorem digitsValue_ofNat (n : Nat) : digitsValue (ofNat n).whole = n :=
  Nat.ofDigitChars_ten_toDigits

end Numeral

namespace Expression

/-! ### Integers -/

def SignedNumber.ofInt (k : Int) : SignedNumber :=
  ⟨if k < 0 then some .minus else none, .ofNat k.natAbs⟩

theorem SignedNumber.ofInt_negSucc (n : Nat) :
    ofInt (Int.negSucc n) = ⟨some .minus, .ofNat (n + 1)⟩ := by
  rw [ofInt, if_pos (Int.negSucc_lt_zero n)]
  rfl

theorem SignedNumber.spells_ofInt (k : Int) :
    Lexeme.Spells (SignedNumber.ofInt k).lexemes (toString k).toList := by
  have digits (n : Nat) : Lexeme.Spells [.number (.ofNat n)] (toString n).toList := by
    have spells := Lexeme.spells_singleton (Numeral.isSpelled_ofNat n)
    rwa [Lexeme.spelling, Numeral.text_ofNat] at spells
  cases k with
  | ofNat n => exact digits n
  | negSucc n =>
    rw [ofInt_negSucc]
    have text : (toString (Int.negSucc n)).toList = '-' :: (toString (n + 1)).toList :=
      String.toList_append
    rw [text]
    exact Lexeme.Spells.cons (x := .minus) trivial (digits (n + 1))

theorem SignedNumber.value?_ofInt (k : Int) : (SignedNumber.ofInt k).value? = some (k : Rat) := by
  cases k with
  | ofNat n =>
    change (Numeral.ofNat n).value?.map _ = _
    rw [Numeral.value?_ofNat]
    rfl
  | negSucc n =>
    rw [ofInt_negSucc]
    change (Numeral.ofNat (n + 1)).value?.map (fun value => -value) = _
    rw [Numeral.value?_ofNat]
    exact congrArg some (Int.cast_negSucc n).symm

theorem exponentOf_ofNat {n : Nat} {p : Power} (h : p.val = n) :
    exponentOf .plus (Numeral.ofNat n).whole = some p := by
  have power : Power.ofInt? (digitsValue (Numeral.ofNat n).whole) = some p := by
    rw [Numeral.digitsValue_ofNat, Power.ofInt?_eq_some_iff]
    exact h
  rw [exponentOf, power]
  exact Power.ofInt?_eq_some_iff.2 rfl

/-! ### Offsets -/

/-- The literal of the magnitude of an offset with a finite expansion that is not too long. -/
theorem exists_numeral_offsetText {x : Rat} {k : Nat} (short : k ≤ Numeral.maxShift)
    (finite : x.den ∣ 10 ^ k) :
    ∃ literal : Numeral, literal.text = (Printer.offsetText x.abs).toList ∧
      (Lexeme.number literal).IsSpelled ∧ literal.value? = some x.abs := by
  have den : x.abs.den = x.den := by
    unfold Rat.abs
    split <;> rfl
  rw [← den] at finite
  obtain ⟨places, found, least, divides⟩ := Rational.places?_eq_some finite
  refine ⟨.fixed (Rational.scaled x.abs places).natAbs places, ?_, Numeral.isSpelled_fixed _ _, ?_⟩
  · rw [Numeral.text_fixed, Printer.offsetText, Rational.decimalText?, found]
    simp [Text.minusIf]
  · rw [Numeral.value?_fixed_scaled (least.trans short) (Rational.hasPlaces_iff.2 divides),
      abs_of_nonneg Rat.abs_nonneg]

end Expression

end Metrology
