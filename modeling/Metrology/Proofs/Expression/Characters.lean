import Metrology.Proofs.Expression.Glyphs
import Metrology.Proofs.Token.Decimals

/-!
# Characters in print

Numbers, the names of logarithms and of converters, and identifiers have nothing in them that could
be taken for a note or an exponent.
-/
namespace Metrology.Expression

open Glyph (isOrdinary)
open Lexeme (continuesIdentifier)

/-- Whether a text has nothing to do with notes and exponents. -/
def IsOrdinary (text : String) : Prop := ∀ c ∈ text.toList, isOrdinary c = true

/-- Whether a text is made of what identifiers go on with. -/
def IsWord (text : String) : Prop := ∀ c ∈ text.toList, continuesIdentifier c = true

theorem isOrdinary_of_continues {c : Char} (h : continuesIdentifier c = true) : isOrdinary c = true := by
  have ink := Lexeme.ne_brace_of_isInk (Lexeme.isInk_of_continues h)
  have superscript : Lexeme.isSuperscript c = false := by
    rw [continuesIdentifier, Bool.or_eq_true] at h
    rcases h with starts | digit
    · exact (Lexeme.startsIdentifier_facts starts).2.2.2.2.2
    · exact (Lexeme.isDigit_facts digit).2.2.2
  simp [isOrdinary, ink, superscript]

theorem IsWord.isOrdinary {text : String} (h : IsWord text) : IsOrdinary text :=
  fun c hc => isOrdinary_of_continues (h c hc)

theorem isOrdinary_of_isDigit {c : Char} (h : c.isDigit = true) : isOrdinary c = true :=
  isOrdinary_of_continues (by rw [continuesIdentifier, h, Bool.or_true])

theorem IsOrdinary.append {a b : String} (ha : IsOrdinary a) (hb : IsOrdinary b) :
    IsOrdinary (a ++ b) := by
  intro c hc
  rw [String.toList_append] at hc
  exact (List.mem_append.1 hc).elim (ha c) (hb c)

/-- What can be computed of a fixed text. -/
theorem isOrdinary_of_all {text : String} (h : text.toList.all isOrdinary = true) :
    IsOrdinary text :=
  List.all_eq_true.1 h

theorem isOrdinary_nat (n : Nat) : IsOrdinary (toString n) := by
  intro c hc
  rw [← Numeral.text_ofNat] at hc
  obtain ⟨-, digits⟩ := (Numeral.isSpelled_ofNat n).1
  simp only [Numeral.text, Numeral.ofNat, List.isEmpty_nil, if_true, Option.map_none,
    Option.getD_none, List.append_nil] at hc
  exact isOrdinary_of_isDigit (digits c hc)

theorem isOrdinary_int (k : Int) : IsOrdinary (toString k) := by
  cases k with
  | ofNat n => exact isOrdinary_nat n
  | negSucc n => exact (isOrdinary_of_all (by decide)).append (isOrdinary_nat (n + 1))

theorem isOrdinary_fixedPoint (n places : Nat) : IsOrdinary (Text.fixedPoint n places) := by
  intro c hc
  obtain ⟨⟨-, whole⟩, fraction, -⟩ := Numeral.isSpelled_fixed n places
  rw [← Numeral.text_fixed] at hc
  have exponent : (Numeral.fixed n places).exponent = none := rfl
  simp only [Numeral.text, exponent, Option.map_none, Option.getD_none, List.append_nil,
    List.mem_append] at hc
  rcases hc with hc | hc
  · exact isOrdinary_of_isDigit (whole c hc)
  · split at hc
    · cases hc
    · rcases List.mem_cons.1 hc with rfl | hc
      · decide
      · exact isOrdinary_of_isDigit (fraction c hc)

theorem isOrdinary_minusIf (negative : Bool) : IsOrdinary (Text.minusIf negative) := by
  cases negative <;> exact isOrdinary_of_all (by decide)

theorem isOrdinary_double (x : Float) : IsOrdinary (Double.text x) := by
  unfold Double.text
  split
  · exact isOrdinary_of_all (by decide)
  · refine (isOrdinary_minusIf _).append ?_
    split
    · exact isOrdinary_of_all (by decide)
    · split
      · exact isOrdinary_of_all (by decide)
      · exact isOrdinary_fixedPoint _ _

theorem isOrdinary_rational (q : Rat) : IsOrdinary (Rational.text q) := by
  unfold Rational.text
  split
  · exact isOrdinary_int _
  · exact ((isOrdinary_int _).append (isOrdinary_of_all (by decide))).append (isOrdinary_nat _)

/-- Whatever converter is written, there are no braces or raised digits in its text. -/
theorem isOrdinary_converter (c : Converter) : IsOrdinary c.text := by
  have named (front : String) {text : String} (word : front.toList.all isOrdinary = true)
      (h : IsOrdinary text) : IsOrdinary (front ++ text ++ ")") :=
    ((isOrdinary_of_all word).append h).append (isOrdinary_of_all (by decide))
  have comma : IsOrdinary ", " := isOrdinary_of_all (by decide)
  induction c with
  | identity => exact isOrdinary_of_all (by decide)
  | add offset => exact named "Add(" (by decide) (isOrdinary_rational offset)
  | multiply factor => exact named "Multiply(" (by decide) (isOrdinary_double factor)
  | ratio r =>
    have terms := ((isOrdinary_int r.dividend).append comma).append (isOrdinary_nat r.divisor)
    have whole := named "Rational(" (by decide) terms
    simpa only [Converter.text, String.append_assoc] using whole
  | log base => exact named "Log(" (by decide) (isOrdinary_double base)
  | exp base => exact named "Exp(" (by decide) (isOrdinary_double base)
  | pair outer inner ho hi =>
    have parts := (ho.append comma).append hi
    have whole := named "Pair(" (by decide) parts
    simpa only [Converter.text, String.append_assoc] using whole

theorem isOrdinary_offsetText (x : Rat) : IsOrdinary (Printer.offsetText x) := by
  unfold Printer.offsetText
  cases decimal : Rational.decimalText? x with
  | none => exact isOrdinary_double _
  | some text =>
    obtain ⟨k, -, rfl⟩ := Option.map_eq_some_iff.1 decimal
    exact (isOrdinary_minusIf _).append (isOrdinary_fixedPoint _ _)

theorem isOrdinary_logarithmName {base : Float} {name : String}
    (h : Printer.logarithmName? base = some name) : IsOrdinary name := by
  unfold Printer.logarithmName? at h
  split at h
  · cases h
    exact isOrdinary_of_all (by decide)
  · obtain ⟨n, -, rfl⟩ := Option.map_eq_some_iff.1 h
    split
    · exact isOrdinary_of_all (by decide)
    · exact (isOrdinary_of_all (by decide)).append (isOrdinary_nat n)

theorem isOrdinary_exponentialName {base : Float} {name : String}
    (h : Printer.exponentialName? base = some name) : IsOrdinary name := by
  unfold Printer.exponentialName? at h
  split at h
  · cases h
    exact isOrdinary_of_all (by decide)
  · obtain ⟨n, -, rfl⟩ := Option.map_eq_some_iff.1 h
    exact isOrdinary_nat n

/-! ### Identifiers -/

/-- A name that was scanned is made of the characters of names. -/
theorem isWord_of_scan {text rest : List Char} {name : String}
    (h : Lexeme.scan text = .ok (.identifier name, rest)) : IsWord name := by
  cases text with
  | nil => cases h
  | cons c tail =>
    rw [Lexeme.scan] at h
    split at h
    · rename_i sign
      cases h
      unfold Lexeme.ofChar? at sign
      split at sign <;> cases sign
    · split at h
      · cases h
      · split at h
        · cases h
        · split at h
          · split at h <;> cases h
          · split at h
            · have word : Lexeme.ofName ((c :: tail).takeWhile continuesIdentifier)
                  ((c :: tail).dropWhile continuesIdentifier) = .identifier name :=
                congrArg Prod.fst (Except.ok.inj h)
              have run : name = String.ofList ((c :: tail).takeWhile continuesIdentifier) := by
                unfold Lexeme.ofName at word
                split at word
                · split at word <;> cases word
                  rfl
                · cases word
                  rfl
              intro d hd
              rw [run, String.toList_ofList] at hd
              exact List.all_eq_true.1 List.all_takeWhile d hd
            · cases h

/-- The identifiers among the tokens of a text. -/
theorem isWord_of_mem_tokens {s : Scanner} {tokens : List Token} (h : s.tokens = .ok tokens) :
    ∀ t ∈ tokens, ∀ name, t.lexeme = .identifier name → IsWord name := by
  refine Scanner.tokens_induction
    (P := fun _ tokens => ∀ t ∈ tokens, ∀ name, t.lexeme = .identifier name → IsWord name) ?_ ?_ h
  · intro _ _ _ _ _
    exact List.forall_mem_nil _
  · intro s after t tokens next _ ih
    refine List.forall_mem_cons.2 ⟨fun name eq => ?_, ih⟩
    obtain ⟨x, rest, scanned, rfl, -⟩ := Scanner.next_eq_ok next
    cases eq
    exact isWord_of_scan scanned

end Metrology.Expression
