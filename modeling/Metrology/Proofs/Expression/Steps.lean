import Metrology.Proofs.Expression.Denotation

/-!
# Steps in print

The steps of a converter that the language has words for, and that the text of a unit with one
of them applied is read back.
-/
namespace Metrology

open Lexeme (Spells)

namespace Converter

def IsSpokenBase (base : Float) : Prop :=
  base = Double.euler ∨ ∃ n, Double.integer? base = some n

/-- Whether the language has words for a step: an offset has a finite expansion that is not too
long, a scaling is in lowest terms and its divisor is not too long, and a logarithm or an
exponential is to Euler's number or an integer. -/
def IsSpoken : Converter → Prop
  | add offset => offset ≠ 0 ∧ ∃ places ≤ Numeral.maxShift, offset.den ∣ 10 ^ places
  | ratio r => r.IsReduced ∧ r.divisor < 2 ^ 4096
  | log base | exp base => IsSpokenBase base
  | _ => False

theorem isBase_of_integer? {x : Float} {n : Nat} (h : Double.integer? x = some n) :
    isBase x = true := by
  obtain ⟨pos, finite⟩ := Double.pos_of_integer? h
  have one : (x == 1) = false := by
    rw [← Bool.not_eq_true]
    intro one
    have none : Double.integer? 1 = none := by decide +kernel
    rw [Double.eq_of_beq_of_pos pos finite one, none] at h
    cases h
  simp [isBase, finite, pos, one]

theorem isBase_euler : isBase Double.euler = true := by
  decide +kernel

theorem isBase_of_isSpokenBase {x : Float} (h : IsSpokenBase x) : isBase x = true := by
  rcases h with rfl | ⟨n, h⟩
  · exact isBase_euler
  · exact isBase_of_integer? h

theorem isProper_of_isSpoken {s : Converter} (h : s.IsSpoken) : s.IsProper := by
  cases s with
  | add => exact h.1
  | ratio => exact h.1
  | log | exp => exact isBase_of_isSpokenBase h
  | _ => exact h.elim

theorem isStep_of_isSpoken {s : Converter} (h : s.IsSpoken) : s.IsStep := by
  cases s with
  | identity | pair => exact h.elim
  | _ => trivial

end Converter

namespace Expression

open Converter
open Printer (isNumeric)

variable {table : SymbolTable} {p : Precedence} {text : String} {u : MeasureUnit}

/-! ### Offsets -/

/-- The operand of an offset: a number is enclosed, so that it is not taken for the offset. -/
theorem Reads.unmistakable_operand (h : Reads table text .product u) :
    ∃ t : Tree .product,
      t.Denotes table (if isNumeric u then Rendered.enclosed text else text) u ∧
        IsUnmistakable .product t.lexemes := by
  cases numeric : isNumeric u with
  | true =>
    obtain ⟨t, denotes, -⟩ := h.addition
    refine ⟨.single (.power (.enclosed t none) none),
      denotes.enclosed.congr (List.append_nil _) denotes.preferred rfl, ?_⟩
    exact ⟨fun _ => rfl, fun _ => rfl, nofun⟩
  | false =>
    obtain ⟨t, denotes, unmistakable⟩ := h
    exact ⟨t, denotes, unmistakable numeric⟩

theorem Tree.Denotes.transform {t : Tree p} {k : Converter} (h : t.Denotes table text u)
    (proper : u.IsProper) (hk : k.IsProper) :
    ∃ v, t.eval table = some v ∧ v.IsProper ∧ (u.transform k == v.transform k) = true ∧
      (v.transform k).isTidy = true := by
  obtain ⟨v, eval, same, tidy⟩ := h.value
  exact ⟨v, eval, proper.of_beq tidy same, proper.transform_beq hk tidy same,
    MeasureUnit.isTidy_transform tidy k⟩

/-- A sign and a literal behind a text. -/
theorem spells_sign {l : List Lexeme} {literal : Numeral} {text' : String} (sign : Sign)
    (h : Spells l text.toList) (spelled : (Lexeme.number literal).IsSpelled)
    (eq : literal.text = text'.toList) :
    Spells (l ++ [sign.lexeme, .number literal])
      (text ++ (if sign = .minus then "-" else "+") ++ text').toList := by
  have number := Lexeme.spells_singleton spelled
  rw [Lexeme.spelling, eq] at number
  cases sign with
  | plus =>
    have spells := h.append (Spells.cons (x := .plus) trivial number)
    simpa [Lexeme.spelling, Lexeme.value, Sign.lexeme] using spells
  | minus =>
    have spells := h.append (Spells.cons (x := .minus) trivial number)
    simpa [Lexeme.spelling, Lexeme.value, Sign.lexeme] using spells

theorem Renders.offsetOperand {r : Rendered} (h : Renders table r u)
    (strong : r.precedence ≠ .addition) :
    ∃ t : Tree .product,
      t.Denotes table (if isNumeric u then Rendered.enclosed r.textOrOne else r.text) u ∧
        IsUnmistakable .product t.lexemes := by
  obtain ⟨q, stronger, reads⟩ := h.textOrOne
  have product : Precedence.product.strength ≤ r.precedence.strength := by
    cases eq : r.precedence <;> first | exact absurd eq strong | decide
  cases numeric : isNumeric u with
  | true =>
    have enclosed := (reads.weaken (product.trans stronger)).unmistakable_operand
    rwa [numeric] at enclosed
  | false =>
    have bare := ((h.reads numeric).weaken product).unmistakable_operand
    rwa [numeric] at bare

/-- An offset is its magnitude with its sign. -/
theorem exists_sign_abs (x : Rat) :
    ∃ sign : Sign, (sign = .minus ↔ x.num < 0) ∧ sign.apply x.abs = x := by
  by_cases negative : x.num < 0
  · refine ⟨.minus, by simp [negative], ?_⟩
    rw [Rat.abs_of_nonpos (Rat.num_nonpos.1 (by omega))]
    exact neg_neg x
  · refine ⟨.plus, by simp [negative], ?_⟩
    rw [Rat.abs_of_nonneg (Rat.num_nonneg.1 (by omega))]
    rfl

/-- A unit with an offset behind it. -/
theorem renders_addOffset {r : Rendered} {x : Rat} (h : Renders table r u)
    (strong : r.precedence ≠ .addition) (proper : u.IsProper) (spoken : (add x).IsSpoken) :
    Renders table (Printer.addOffset x u r) (u.transform (add x)) := by
  obtain ⟨nonzero, places, short, finite⟩ := spoken
  obtain ⟨t, denotes, unmistakable⟩ := h.offsetOperand strong
  obtain ⟨literal, spelling, spelled, value⟩ := exists_numeral_offsetText short finite
  obtain ⟨sign, minus, back⟩ := exists_sign_abs x
  refine Or.inr ⟨.sum none t (some (sign, ⟨none, literal⟩)), ⟨?_, ?_, ?_, ?_⟩, fun _ => ?_⟩
  · have spells := spells_sign sign denotes.spells spelled spelling
    simp only [minus] at spells
    exact spells
  · exact ⟨fun _ => unmistakable.offset _, denotes.preferred⟩
  · change endsWithNote (t.lexemes ++ sign.lexeme :: SignedNumber.lexemes _) = false
    rw [endsWithNote_append (List.cons_ne_nil _ _),
      endsWithNote_cons (SignedNumber.lexemes_ne_nil _)]
    exact SignedNumber.endsWithNote_lexemes _
  · obtain ⟨v, eval, -, same, tidy⟩ := denotes.transform (k := add x) proper nonzero
    refine ⟨v.transform (add x), ?_, same, tidy⟩
    have offset : (⟨none, literal⟩ : SignedNumber).value? = some x.abs := by
      rw [SignedNumber.value?, value]
      rfl
    simp only [Tree.eval, eval, leadingShift, trailingShift, offset, Option.bind_eq_bind,
      Option.bind_some, back, MeasureUnit.shift_of_ne nonzero]
    rfl
  · exact unmistakable.append _ (by simp [Printer.addOffset])

/-! ### Scalings -/

def integerFactor (k : Int) : Tree .exponent := .power (.number (.ofInt k) none) none

theorem lexemes_integerFactor (k : Int) :
    (integerFactor k).lexemes = (SignedNumber.ofInt k).lexemes := by
  simp [integerFactor, Tree.lexemes, noteLexemes]

theorem spells_integerFactor (k : Int) : Spells (integerFactor k).lexemes (toString k).toList := by
  rw [lexemes_integerFactor]
  exact SignedNumber.spells_ofInt k

theorem endsWithNote_integerFactor (t : Tree .product) (op : Operator) (k : Int) :
    endsWithNote (Tree.chain t op (integerFactor k)).lexemes = false := by
  rw [endsWithNote_chain, lexemes_integerFactor]
  exact SignedNumber.endsWithNote_lexemes _

theorem eval_integerFactor (table : SymbolTable) {k : Int} (nonzero : k ≠ 0) :
    (integerFactor k).eval table = some (MeasureUnit.number k) :=
  (denotes_int table nonzero).2

theorem Tree.Denotes.times {t : Tree .product} {k : Int} (h : t.Denotes table text u)
    (proper : u.IsProper) (nonzero : k ≠ 0) (sign : Separator) :
    (Tree.chain t (.times sign) (integerFactor k)).Denotes table (text ++ sign.text ++ toString k)
      (u.transform (scaleBy k)) := by
  obtain ⟨v, eval, properV, same, tidy⟩ := h.transform proper (isProper_scaleBy k)
  refine ⟨spells_factor (.times sign) h.spells (spells_integerFactor k), ⟨h.preferred, trivial⟩,
    endsWithNote_integerFactor _ _ _, _, Tree.eval_chain eval (eval_integerFactor table nonzero) ?_, same, tidy⟩
  exact MeasureUnit.mul_number (fun _ _ => properV) (by exact_mod_cast nonzero)

theorem Tree.Denotes.divided {t : Tree .product} {d : Nat} (h : t.Denotes table text u)
    (proper : u.IsProper) (pos : 0 < d) (bound : d < 2 ^ 4096) :
    (Tree.chain t .divide (integerFactor d)).Denotes table (text ++ "/" ++ toString d)
      (u.transform (scaleBy (d : Rat)⁻¹)) := by
  obtain ⟨v, eval, properV, same, tidy⟩ := h.transform proper (isProper_scaleBy (d : Rat)⁻¹)
  refine ⟨spells_factor .divide h.spells (spells_integerFactor d), ⟨h.preferred, trivial⟩,
    endsWithNote_integerFactor _ _ _, _, Tree.eval_chain eval (eval_integerFactor table (k := d) (by omega)) ?_, same, tidy⟩
  rw [Int.cast_natCast]
  exact MeasureUnit.div_number properV pos bound

theorem toRat_eq_mul_inv {r : Ratio} : r.toRat = (r.dividend : Rat) * (r.divisor : Rat)⁻¹ := by
  rw [Ratio.toRat, Rat.mkRat_eq_div, div_eq_mul_inv]

/-- A scaling is one by its dividend and then one by the inverse of its divisor. -/
theorem transform_dividend_divisor {r : Ratio} (proper : u.IsProper) (reduced : r.IsReduced) :
    (u.transform (scaleBy r.dividend)).transform (scaleBy (r.divisor : Rat)⁻¹) =
      u.transform (ratio r) := by
  have nonzero : (r.dividend : Rat) ≠ 0 := by exact_mod_cast r.dividend_ne_zero
  have nonzero' : (r.divisor : Rat)⁻¹ ≠ 0 :=
    inv_ne_zero (by exact_mod_cast Nat.ne_of_gt r.divisor_pos)
  rw [proper.transform_transform (isProper_scaleBy _) (isProper_scaleBy _),
    scaleBy_compose nonzero nonzero', ← toRat_eq_mul_inv, scaleBy_toRat reduced]

/-- The divisor of a scaling, if it is not one, behind what the dividend has scaled. -/
theorem Tree.Denotes.quotient {t : Tree .product} {r : Ratio}
    (h : t.Denotes table text (u.transform (scaleBy r.dividend))) (proper : u.IsProper)
    (spoken : (ratio r).IsSpoken) :
    ∃ (t' : Tree .product) (l : List Lexeme), t'.lexemes = t.lexemes ++ l ∧
      t'.Denotes table (text ++ if r.divisor = 1 then "" else "/" ++ toString r.divisor)
        (u.transform (ratio r)) := by
  obtain ⟨reduced, bound⟩ := spoken
  have whole := transform_dividend_divisor proper reduced
  by_cases divisor : r.divisor = 1
  · rw [divisor, Nat.cast_one, inv_one, scaleBy_one] at whole
    refine ⟨t, [], (List.append_nil _).symm, ?_⟩
    rw [if_pos divisor, String.append_empty, ← whole]
    exact h
  · have divided := h.divided (proper.transform (isProper_scaleBy _)) r.divisor_pos bound
    rw [whole] at divided
    refine ⟨.chain t .divide (integerFactor r.divisor), _, rfl, ?_⟩
    rw [if_neg divisor, ← String.append_assoc]
    exact divided

/-- A scaling behind a product: a dividend other than one, and a divisor other than one. -/
theorem Tree.Denotes.scaled {t : Tree .product} {r : Ratio} (h : t.Denotes table text u)
    (proper : u.IsProper) (spoken : (ratio r).IsSpoken) (sign : Separator) :
    ∃ (t' : Tree .product) (l : List Lexeme), t'.lexemes = t.lexemes ++ l ∧
      t'.Denotes table (text ++ (if r.dividend = 1 then "" else sign.text ++ toString r.dividend) ++
        (if r.divisor = 1 then "" else "/" ++ toString r.divisor)) (u.transform (ratio r)) := by
  by_cases dividend : r.dividend = 1
  · have same : u.transform (scaleBy r.dividend) = u := by
      rw [dividend, Int.cast_one, scaleBy_one]
      rfl
    rw [if_pos dividend, String.append_empty]
    exact Tree.Denotes.quotient (by rwa [same]) proper spoken
  · have times := h.times proper r.dividend_ne_zero sign
    obtain ⟨t', l, words, denotes⟩ := times.quotient proper spoken
    refine ⟨t', _, words.trans (List.append_assoc _ _ _), ?_⟩
    rw [if_neg dividend, ← String.append_assoc]
    exact denotes

/-- Where there is nothing to scale but the dimensionless unit the text is the number. -/
theorem renders_number (printer : Printer) {q : Ratio} (spoken : (ratio q).IsSpoken) :
    Renders table (printer.addRatio q ⟨"", .product⟩) (MeasureUnit.one.transform (ratio q)) := by
  have proper : MeasureUnit.one.IsProper := MeasureUnit.isProper_of_plain rfl
  have numeric : isNumeric (MeasureUnit.one.transform (ratio q)) = true :=
    MeasureUnit.isNumeric_transform_ratio proper spoken.1 rfl
  have dividend : (Tree.single (integerFactor q.dividend)).Denotes table (toString q.dividend)
      (MeasureUnit.number q.dividend) :=
    (denotes_int table q.dividend_ne_zero).1.congr (List.append_nil _) trivial rfl
  have rendered : printer.addRatio q ⟨"", .product⟩ =
      ⟨toString q.dividend ++ (if q.divisor = 1 then "" else "/" ++ toString q.divisor),
        .product⟩ := by
    have operand : Rendered.textFor ⟨"", .product⟩ .product = "" := rfl
    rw [Printer.addRatio, operand, String.empty_append]
    rfl
  obtain ⟨t, -, -, denotes⟩ := Tree.Denotes.quotient dividend proper spoken
  rw [rendered]
  refine Reads.renders ⟨t, denotes, fun plain => ?_⟩
  rw [numeric] at plain
  cases plain

/-- A scaled unit. -/
theorem renders_addRatio {r : Rendered} {q : Ratio} (printer : Printer) (h : Renders table r u)
    (proper : u.IsProper) (spoken : (ratio q).IsSpoken) :
    Renders table (printer.addRatio q r) (u.transform (ratio q)) := by
  rcases h with ⟨rfl, rfl⟩ | h
  · exact renders_number printer spoken
  · have product := h.textFor .product
    have some : (r.textFor .product).isEmpty = false := by simpa using product.text_ne
    have rendered : printer.addRatio q r = ⟨r.textFor .product ++
        (if q.dividend = 1 then "" else printer.style.separator.text ++ toString q.dividend) ++
        (if q.divisor = 1 then "" else "/" ++ toString q.divisor), .product⟩ := by
      simp only [Printer.addRatio, some, Bool.false_eq_true, if_false]
    obtain ⟨t, denotes, unmistakable⟩ := product
    obtain ⟨t', l, words, scaled⟩ := denotes.scaled proper spoken printer.style.separator
    rw [rendered]
    refine Reads.renders ⟨t', scaled, fun plain => ?_⟩
    have unscaled : isNumeric u = false := by
      rw [← Bool.not_eq_true]
      intro numeric
      rw [MeasureUnit.isNumeric_transform_ratio proper spoken.1 numeric] at plain
      cases plain
    rw [words]
    exact (unmistakable unscaled).append l (by simp)

/-! ### Logarithms and exponentials -/

theorem nearest_of_integer? {x : Float} {n : Nat} (h : Double.integer? x = some n) :
    Double.nearest n = x := by
  obtain ⟨pos, finite⟩ := Double.pos_of_integer? h
  exact Double.nearest_of_integer? pos finite h

theorem euler_beq_euler : (Double.euler == Double.euler) = true := by
  decide +kernel

/-- The word that a logarithm is written with. -/
theorem exists_logarithm {base : Float} (spoken : IsSpokenBase base) :
    ∃ name b, Printer.logarithmName? base = some name ∧ (Lexeme.logarithm b).IsSpelled ∧
      (Lexeme.logarithm b).spelling = name.toList ∧ logarithmBase b = base := by
  rcases spoken with rfl | ⟨n, integer⟩
  · refine ⟨"ln", .natural, ?_, trivial, rfl, rfl⟩
    rw [Printer.logarithmName?, euler_beq_euler, if_pos rfl]
  · by_cases euler : (base == Double.euler) = true
    · have eq := (beq_base_iff (isBase_of_integer? integer)).1 euler
      refine ⟨"ln", .natural, ?_, trivial, rfl, eq.symm⟩
      rw [Printer.logarithmName?, if_pos euler]
    · by_cases ten : n = 10
      · refine ⟨"log", .decimal [], ?_, nofun, rfl, ?_⟩
        · simp [Printer.logarithmName?, euler, integer, ten]
        · have rounded : Double.nearest (10 : Nat) = 10 := by decide +kernel
          rw [← nearest_of_integer? integer, ten, rounded]
          rfl
      · have digits : Nat.toDigits 10 n ≠ [] := Nat.toDigits_ne_nil
        refine ⟨"log" ++ toString n, .decimal (Nat.toDigits 10 n), ?_, ?_, ?_, ?_⟩
        · simp [Printer.logarithmName?, euler, integer, ten]
        · exact fun c hc => Nat.isDigit_of_mem_toDigits (by decide) (by decide) hc
        · simp [Lexeme.spelling]
        · rw [logarithmBase]
          · rw [digitsValue, Nat.ofDigitChars_ten_toDigits]
            exact nearest_of_integer? integer
          · exact digits

/-- A logarithm of a unit. -/
theorem renders_addLogarithm {r : Rendered} {base : Float} (h : Renders table r u)
    (proper : u.IsProper) (spoken : (log base).IsSpoken) :
    Renders table (Printer.addLogarithm base r) (u.transform (log base)) := by
  obtain ⟨name, b, named, spelled, spelling, value⟩ := exists_logarithm spoken
  obtain ⟨p, -, reads⟩ := h.textOrOne
  obtain ⟨t, denotes, -⟩ := reads.weaken (q := .addition) (Nat.zero_le _)
  have rendered : Printer.addLogarithm base r =
      ⟨name ++ Rendered.enclosed r.textOrOne, .exponent⟩ := by
    rw [Printer.addLogarithm, named]
  have valid := isBase_of_isSpokenBase spoken
  rw [rendered]
  refine Or.inr ⟨.logarithm b t, ⟨?_, denotes.preferred, ?_, ?_⟩, fun _ =>
    ⟨fun _ => rfl, fun _ => rfl, nofun⟩⟩
  · have spells := Spells.cons spelled (spells_enclosed denotes.spells)
    rw [spelling, ← String.toList_append] at spells
    exact spells
  · rw [Tree.lexemes, endsWithNote_cons (List.cons_ne_nil _ _), endsWithNote_cons (by simp)]
    exact endsWithNote_concat _ _
  · obtain ⟨v, eval, -, same, tidy⟩ := denotes.transform (k := log base) proper valid
    refine ⟨v.transform (log base), ?_, same, tidy⟩
    rw [Tree.eval, eval, value, logTo, if_pos valid]
    rfl

/-- The word that the base of an exponential is written with. -/
theorem exists_base {base : Float} (spoken : IsSpokenBase base) :
    ∃ name, ∃ b : Base, Printer.exponentialName? base = some name ∧ b.lexeme.IsSpelled ∧
      b.lexeme.spelling = name.toList ∧ b.value = base := by
  by_cases euler : (base == Double.euler) = true
  · have eq : base = Double.euler := (beq_base_iff (isBase_of_isSpokenBase spoken)).1 euler
    have word : Lexeme.isName "e".toList = true := by decide +kernel
    refine ⟨"e", .euler, ?_, word, rfl, eq.symm⟩
    rw [Printer.exponentialName?, if_pos euler]
  · rcases spoken with rfl | ⟨n, integer⟩
    · exact absurd euler_beq_euler euler
    · refine ⟨toString n, .integer (.ofNat n) rfl, ?_, Numeral.isSpelled_ofNat n,
        Numeral.text_ofNat n, ?_⟩
      · simp [Printer.exponentialName?, euler, integer]
      · change Double.nearest (digitsValue (Numeral.ofNat n).whole) = base
        rw [Numeral.digitsValue_ofNat]
        exact nearest_of_integer? integer

/-- The operand of an exponential: a number is enclosed twice, so that it is no exponent. -/
theorem Renders.exponentialOperand {r : Rendered} (h : Renders table r u) :
    ∃ t : Tree .atom, t.Denotes table
      (if isNumeric u then Rendered.enclosed (Rendered.enclosed r.textOrOne) else r.textFor .atom) u ∧
        startsUnit t.lexemes = true := by
  cases numeric : isNumeric u with
  | true =>
    obtain ⟨p, -, reads⟩ := h.textOrOne
    exact reads.enclosed_enclosed
  | false =>
    obtain ⟨t, denotes, unmistakable⟩ := (h.reads numeric).textFor .atom
    exact ⟨t, denotes, (unmistakable numeric).unit rfl⟩

/-- An exponential of a unit. -/
theorem renders_addExponential {r : Rendered} {base : Float} (h : Renders table r u)
    (proper : u.IsProper) (spoken : (exp base).IsSpoken) :
    Renders table (Printer.addExponential base u r) (u.transform (exp base)) := by
  obtain ⟨name, b, named, spelled, spelling, value⟩ := exists_base spoken
  have rendered : Printer.addExponential base u r = ⟨name ++ "^" ++
      (if isNumeric u then Rendered.enclosed (Rendered.enclosed r.textOrOne) else r.textFor .atom),
        .exponent⟩ := by
    rw [Printer.addExponential, named]
  have valid := isBase_of_isSpokenBase spoken
  obtain ⟨t, denotes, starts⟩ := h.exponentialOperand
  rw [rendered]
  refine Or.inr ⟨.exponential b t, ⟨?_, ⟨starts, denotes.preferred⟩, ?_, ?_⟩, fun _ => ?_⟩
  · have spells := Spells.cons spelled (Spells.cons (x := .caret) trivial denotes.spells)
    rw [spelling] at spells
    rw [String.toList_append, String.toList_append, List.append_assoc]
    exact spells
  · rw [Tree.lexemes, endsWithNote_cons (List.cons_ne_nil _ _), endsWithNote_cons t.lexemes_ne_nil]
    exact denotes.bare
  · obtain ⟨v, eval, -, same, tidy⟩ := denotes.transform (k := exp base) proper valid
    refine ⟨v.transform (exp base), ?_, same, tidy⟩
    rw [Tree.eval, eval, value, expOf, if_pos valid]
    rfl
  · cases b with
    | euler => exact ⟨fun _ => rfl, fun _ => rfl, by simp⟩
    | integer literal isInteger =>
      refine ⟨fun rest => ?_, fun _ => rfl, by simp⟩
      simp [Tree.lexemes, Base.lexeme, startsExponent, skipInteger?, skipSign, Lexeme.sign?,
        Lexeme.integer?, isInteger]

end Expression

end Metrology
