import Metrology.Proofs.Expression.Denotation

/-!
# Products in print

The positive powers of a product are printed first, and the others with their magnitudes behind
a solidus. What is read are the same factors in this order, or ones that are equal to them, which
make an equal product.
-/
namespace Metrology

/-- The magnitude of a power, or one if that is out of range. -/
def Power.magnitude (n : Power) : Power := (ofInt? n.val.natAbs).getD one

theorem Power.val_magnitude {n : Power} (h : n.val ≠ -2147483648) :
    n.magnitude.val = n.val.natAbs := by
  have lower := n.lower
  have upper := n.upper
  rw [magnitude, ofInt?, dif_pos (by omega)]
  rfl

namespace Expression

open Lexeme (Spells)
open MeasureUnit

variable {table : SymbolTable} {p : Precedence} {text : String} {u : MeasureUnit}

/-- Whether a derivation is spelled by a text without a note at its end and means the product of
factors. -/
structure Tree.Multiplies (table : SymbolTable) (t : Tree p) (text : String)
    (fs : List (Factor MeasureUnit)) : Prop where
  spells : Spells t.lexemes text.toList
  preferred : t.IsPreferred
  bare : endsWithNote t.lexemes = false
  eval : t.eval table = some (ofFactors fs)

/-! ### Factors -/

/-- The exponent that a magnitude is printed as. -/
theorem exists_suffix (printer : Printer) {n : Power} (nonneg : 0 ≤ n.val) :
    ∃ s : Suffix, Spells s.lexemes (printer.exponentText n.val.natAbs).toList ∧
      (s.lexemes ≠ [] ∧ endsWithNote s.lexemes = false) ∧
        ∀ u, s.apply u = (u.pow n).toOption := by
  have magnitude : n.val = (n.val.natAbs : Nat) := by omega
  have power := exponentOf_ofNat magnitude
  cases form : printer.style.exponents with
  | caret =>
    refine ⟨.plain ⟨⟨none, .ofNat n.val.natAbs⟩, rfl⟩, ?_, ⟨List.cons_ne_nil _ _, rfl⟩, fun u => ?_⟩
    · have spells := Spells.cons (x := .caret) trivial
        (SignedNumber.spells_ofInt (Int.ofNat n.val.natAbs))
      rw [Printer.exponentText, form, String.toList_append]
      exact spells
    · rw [Suffix.apply, SignedInteger.power?]
      change (exponentOf .plus (Numeral.ofNat n.val.natAbs).whole).bind _ = _
      rw [power]
      rfl
  | superscript =>
    refine ⟨.superscript (Nat.toDigits 10 n.val.natAbs), ?_, ⟨List.cons_ne_nil _ _, rfl⟩, fun u => ?_⟩
    · have digits : (Lexeme.superscript (Nat.toDigits 10 n.val.natAbs)).IsSpelled :=
        ⟨Nat.toDigits_ne_nil, fun c hc => Nat.isDigit_of_mem_toDigits (by decide) (by decide) hc⟩
      rw [Printer.exponentText, form, String.toList_ofList]
      exact Lexeme.spells_singleton digits
    · rw [Suffix.apply]
      change (exponentOf .plus (Numeral.ofNat n.val.natAbs).whole).bind _ = _
      rw [power]
      rfl

/-- What a unit with a positive power is read as. -/
theorem exists_factor (printer : Printer) {r : Rendered} {n : Power} (positive : 0 < n.val)
    (h : Reads table r.text r.precedence u) (factor : u.IsFactor) :
    ∃ v, (u == v) = true ∧ v.isTidy = true ∧ ∃ t : Tree .exponent,
      t.Multiplies table (printer.factorText r n.val.natAbs) [⟨v, n⟩] ∧
        IsUnmistakable .exponent t.lexemes := by
  have plain := isNumeric_of_isFactor factor
  by_cases one : n.val = 1
  · obtain ⟨t, ⟨spells, preferred, bare, v, eval, same, tidy⟩, unmistakable⟩ := h.textFor .exponent
    have power : n = Power.one := Power.ext one
    refine ⟨v, same, tidy, t, ⟨?_, preferred, bare, ?_⟩, unmistakable plain⟩
    · rw [Printer.factorText, if_pos (by omega)]
      exact spells
    · rw [eval, power, ofFactors_singleton_one]
  · obtain ⟨t, ⟨spells, preferred, -, v, eval, same, tidy⟩, unmistakable⟩ := h.textFor .atom
    obtain ⟨s, spelled, ⟨suffixed, bare⟩, applied⟩ := exists_suffix printer (Int.le_of_lt positive)
    refine ⟨v, same, tidy, .power t (some s), ⟨?_, preferred, ?_, ?_⟩, ?_⟩
    · rw [Printer.factorText, if_neg (by omega), String.toList_append]
      exact spells.append spelled
    · exact (endsWithNote_append suffixed).trans bare
    · rw [Tree.eval, eval]
      change s.apply v = _
      rw [applied, pow_of_isFactor (factor.of_beq same)]
      rfl
    · exact (unmistakable plain).append _ (by simp)

/-! ### Factors in a row -/

/-- Factors with signs between them are read as their product. -/
theorem exists_separated (printer : Printer) {ι : Type} {text : ι → String}
    {factor : ι → Factor MeasureUnit} {l : List ι} (some : l ≠ [])
    (each : ∀ i ∈ l, ∃ t : Tree .exponent, t.Multiplies table (text i) [factor i] ∧
      IsUnmistakable .exponent t.lexemes)
    (factors : AreFactors (l.map factor)) (apart : Apart (l.map factor)) :
    ∃ t : Tree .product, t.Multiplies table (printer.separated (l.map text)) (l.map factor) ∧
      IsUnmistakable .product t.lexemes := by
  induction l using List.reverseRecOn with
  | nil => exact absurd rfl some
  | append_singleton l i ih =>
    obtain ⟨t, multiplies, unmistakable⟩ := each i (by simp)
    cases eq : l with
    | nil =>
      refine ⟨.single t, ?_, unmistakable.of_ne nofun⟩
      have alone : printer.separated (([] ++ [i]).map text) = text i := by
        simp [Printer.separated]
      rw [alone]
      exact ⟨multiplies.spells, multiplies.preferred, multiplies.bare, multiplies.eval⟩
    | cons j l' =>
      have before : l ≠ [] := by simp [eq]
      rw [← eq]
      rw [List.map_append] at factors apart
      have factorsInit : AreFactors (l.map factor) := fun f hf =>
        factors f (List.mem_append_left _ hf)
      have factorLast : AreFactors [factor i] := fun f hf => factors f (List.mem_append_right _ hf)
      obtain ⟨left, init, unmistakable'⟩ := ih before (fun j hj => each j (by simp [hj])) factorsInit
        (List.pairwise_append.1 apart).1
      refine ⟨.chain left (.times printer.style.separator) t, ⟨?_, ⟨init.preferred,
        multiplies.preferred⟩, ?_, ?_⟩, unmistakable'.append _ nofun⟩
      · have separated : printer.separated ((l ++ [i]).map text) =
            printer.separated (l.map text) ++ printer.style.separator.text ++ text i := by
          rw [Printer.separated, List.map_append, String.intercalate_append_of_ne_nil (by simpa using before)
            (by simp), List.map_singleton, String.intercalate_singleton]
          rfl
        rw [separated]
        exact spells_factor (.times printer.style.separator) init.spells multiplies.spells
      · exact (endsWithNote_chain _ _ t).trans multiplies.bare
      · rw [List.map_append]
        exact Tree.eval_chain init.eval multiplies.eval
          (mul_ofFactors factorsInit factorLast apart)

/-! ### Products -/

/-- Behind a solidus several factors are enclosed. -/
theorem exists_denominator (printer : Printer) {ι : Type} {text : ι → String}
    {factor : ι → Factor MeasureUnit} {l : List ι} (some : l ≠ [])
    (each : ∀ i ∈ l, ∃ t : Tree .exponent, t.Multiplies table (text i) [factor i] ∧
      IsUnmistakable .exponent t.lexemes)
    (factors : AreFactors (l.map factor)) (apart : Apart (l.map factor)) :
    ∃ t : Tree .exponent, t.Multiplies table (if l.length > 1 then
        Rendered.enclosed (printer.separated (l.map text)) else printer.separated (l.map text))
      (l.map factor) ∧ IsUnmistakable .exponent t.lexemes := by
  by_cases several : l.length > 1
  · obtain ⟨t, multiplies, -⟩ := exists_separated printer some each factors apart
    have words : (Tree.sum none t none).lexemes = t.lexemes := List.append_nil _
    refine ⟨.power (.enclosed (.sum none t none) none) none, ⟨?_, ?_, ?_, ?_⟩,
      fun _ => rfl, fun _ => rfl, nofun⟩
    · rw [if_pos several]
      have spells := spells_enclosed multiplies.spells
      rw [← words] at spells
      simpa [Tree.lexemes, noteLexemes] using spells
    · refine ⟨fun _ => ?_, multiplies.preferred⟩
      rw [trailingLexemes, List.append_nil]
      exact startsOffset_product t
    · change endsWithNote (_ :: (_ ++ [_]) ++ []) = false
      rw [List.append_nil, endsWithNote_cons (by simp)]
      exact endsWithNote_concat _ _
    · have eval := multiplies.eval
      simp [Tree.eval, eval, leadingShift, trailingShift, annotated?]
  · rw [if_neg several]
    cases l with
    | nil => exact absurd rfl some
    | cons i l =>
      obtain rfl : l = [] := by simpa using several
      have alone : printer.separated ([i].map text) = text i := by simp [Printer.separated]
      rw [alone]
      exact each i (by simp)

/-- The words of a quotient of one are not an exponent, as its divisor is none. -/
theorem isUnmistakable_reciprocal {t : Tree .exponent}
    (h : IsUnmistakable .exponent t.lexemes) :
    IsUnmistakable .product
      (Tree.chain (.single (.power (.number (.ofInt 1) none) none)) .divide t).lexemes where
  exponent rest := by
    have plain := h.exponent rest
    have front : skipInteger? ((Tree.chain (.single (.power (.number (.ofInt 1) none) none)) .divide
        t).lexemes ++ rest) = some (.solidus :: (t.lexemes ++ rest)) := rfl
    rw [startsExponent, front]
    dsimp only
    unfold startsExponent at plain
    split at plain
    · cases plain
    · rename_i eq
      rw [eq]
    · rename_i other _
      split
      · rename_i eq
        exact absurd eq (other _)
      · rfl
  offset _ := rfl
  unit plain := by cases plain

/-- Factors behind a solidus are divided by; where there is none in front, a one is divided. -/
theorem exists_quotient (printer : Printer) {ι : Type} {text : ι → String}
    {factor : ι → Factor MeasureUnit} {l m : List ι} {ks : List (Factor MeasureUnit)}
    (some : m ≠ [])
    (each : ∀ i ∈ l ++ m, ∃ t : Tree .exponent, t.Multiplies table (text i) [factor i] ∧
      IsUnmistakable .exponent t.lexemes)
    (factors : AreFactors ((l ++ m).map factor)) (apart : Apart ((l ++ m).map factor))
    (negated : (m.map factor).mapM (raise Power.negOne) = .ok ks)
    (same : ks.map (·.unit) = (m.map factor).map (·.unit)) (nonzero : ∀ k ∈ ks, k.power.val ≠ 0) :
    ∃ t : Tree .product, t.Multiplies table
        ((if l.isEmpty then "1" else printer.separated (l.map text)) ++ "/" ++
          if m.length > 1 then Rendered.enclosed (printer.separated (m.map text))
          else printer.separated (m.map text)) (l.map factor ++ ks) ∧
      IsUnmistakable .product t.lexemes := by
  rw [List.map_append] at factors apart
  have factorsLeft : AreFactors (l.map factor) := fun f hf => factors f (List.mem_append_left _ hf)
  have factorsRight : AreFactors (m.map factor) := fun f hf =>
    factors f (List.mem_append_right _ hf)
  obtain ⟨apartLeft, apartRight, -⟩ := List.pairwise_append.1 apart
  obtain ⟨divisor, denominator, unmistakable⟩ := exists_denominator printer some
    (fun i hi => each i (List.mem_append_right _ hi)) factorsRight apartRight
  have quotient := div_ofFactors factorsLeft factorsRight apart negated same nonzero
  cases l with
  | nil =>
    obtain ⟨⟨spells, -, -, -⟩, eval⟩ := denotes_int table (k := 1) Int.one_ne_zero
    refine ⟨.chain (.single (.power (.number (.ofInt 1) none) none)) .divide divisor,
      ⟨spells_factor .divide spells denominator.spells, ⟨trivial, denominator.preferred⟩,
        (endsWithNote_chain _ _ divisor).trans denominator.bare, ?_⟩,
      isUnmistakable_reciprocal unmistakable⟩
    rw [Int.cast_one, number_one] at eval
    exact Tree.eval_chain eval denominator.eval quotient
  | cons i l =>
    obtain ⟨t, numerator, unmistakable⟩ := exists_separated printer (List.cons_ne_nil i l)
      (fun j hj => each j (List.mem_append_left _ hj)) factorsLeft apartLeft
    refine ⟨.chain t .divide divisor,
      ⟨spells_factor .divide numerator.spells denominator.spells,
        ⟨numerator.preferred, denominator.preferred⟩,
        (endsWithNote_chain _ _ divisor).trans denominator.bare,
        Tree.eval_chain numerator.eval denominator.eval quotient⟩,
      unmistakable.append _ nofun⟩

/-- What is printed for a product, by what is printed for the units of its factors. -/
theorem productText_map (printer : Printer) (rendered : MeasureUnit → Rendered)
    (fs : List (Factor MeasureUnit)) :
    let text (f : Factor MeasureUnit) := printer.factorText (rendered f.unit) f.power.val.natAbs
    let positive := fs.filter fun f => 0 < f.power.val
    let negative := fs.filter fun f => !(0 < f.power.val)
    printer.productText (fs.map fun f => ⟨rendered f.unit, f.power⟩) =
      if negative = [] then printer.separated (positive.map text)
      else (if positive.isEmpty then "1" else printer.separated (positive.map text)) ++ "/" ++
        if negative.length > 1 then Rendered.enclosed (printer.separated (negative.map text))
        else printer.separated (negative.map text) := by
  intro text positive negative
  rw [Printer.productText]
  simp only [List.filter_map, List.map_map, List.length_map, List.isEmpty_map]
  split
  · rename_i empty
    have none : negative = [] := List.map_eq_nil_iff.1 empty
    rw [if_pos none]
    rfl
  · rename_i some
    have some : negative ≠ [] := fun none => some (List.map_eq_nil_iff.2 none)
    rw [if_neg some]
    rfl

/-! ### Factors as they are read

The unit of a factor is read as one that equals it. Its power is read as its magnitude, and is
negated behind a solidus if it is negative. -/

section AsRead

variable {value : Factor MeasureUnit → MeasureUnit} {f : Factor MeasureUnit}
  {fs : List (Factor MeasureUnit)}

/-- A factor as it is printed on its side of the solidus, with its unit as it is read. -/
def asPrinted (value : Factor MeasureUnit → MeasureUnit) (f : Factor MeasureUnit) :
    Factor MeasureUnit := ⟨value f, f.power.magnitude⟩

def asRead (value : Factor MeasureUnit → MeasureUnit) (f : Factor MeasureUnit) :
    Factor MeasureUnit := ⟨value f, f.power⟩

theorem asPrinted_of_pos (pos : 0 < f.power.val) : asPrinted value f = asRead value f := by
  have magnitude := f.power.val_magnitude (by omega)
  have power : f.power.magnitude = f.power := Power.ext (by omega)
  rw [asPrinted, asRead, power]

theorem raise_asPrinted (neg : f.power.val ≤ 0) (bounded : f.power.val ≠ -2147483648) :
    raise Power.negOne (asPrinted value f) = .ok (asRead value f) := by
  have magnitude := f.power.val_magnitude bounded
  refine raise_eq_ok_iff.2 ⟨rfl, ?_⟩
  change f.power.val = f.power.magnitude.val * -1
  omega

theorem areFactors_asPrinted (factors : AreFactors fs)
    (bounded : ∀ f ∈ fs, f.power.val ≠ -2147483648)
    (same : ∀ f ∈ fs, (f.unit == value f) = true) : AreFactors (fs.map (asPrinted value)) := by
  intro g hg
  obtain ⟨f, hf, rfl⟩ := List.mem_map.1 hg
  obtain ⟨isFactor, nonzero⟩ := factors f hf
  have magnitude := f.power.val_magnitude (bounded f hf)
  refine ⟨isFactor.of_beq (same f hf), ?_⟩
  change f.power.magnitude.val ≠ 0
  omega

theorem apart_asPrinted (apart : Apart fs) (tidy : ∀ f ∈ fs, f.unit.isTidy = true)
    (same : ∀ f ∈ fs, (f.unit == value f) = true) : Apart (fs.map (asPrinted value)) := by
  rw [apart_iff_units, List.map_map]
  exact apart.map tidy same

end AsRead

/-- What a factor is read as. -/
theorem exists_asPrinted (printer : Printer) {r : Rendered} {f : Factor MeasureUnit}
    (h : Renders table r f.unit) (factor : f.unit.IsFactor) (nonzero : f.power.val ≠ 0)
    (bounded : f.power.val ≠ -2147483648) :
    ∃ v, (f.unit == v) = true ∧ v.isTidy = true ∧ ∃ t : Tree .exponent,
      t.Multiplies table (printer.factorText r f.power.val.natAbs) [⟨v, f.power.magnitude⟩] ∧
        IsUnmistakable .exponent t.lexemes := by
  have magnitude := f.power.val_magnitude bounded
  have printed := exists_factor printer (n := f.power.magnitude) (by omega)
    (h.reads (isNumeric_of_isFactor factor)) factor
  rwa [magnitude, Int.natAbs_natCast] at printed

/-- The factors of a product in the order in which they are printed. -/
def inOrder (fs : List (Factor MeasureUnit)) : List (Factor MeasureUnit) :=
  (fs.filter fun f => 0 < f.power.val) ++ fs.filter fun f => !(0 < f.power.val)

theorem inOrder_perm (fs : List (Factor MeasureUnit)) : (inOrder fs).Perm fs :=
  List.filter_append_perm _ fs

/-- What is printed for a product is read as its factors in the order in which they are printed. -/
theorem exists_product (printer : Printer) {rendered : MeasureUnit → Rendered}
    {value : Factor MeasureUnit → MeasureUnit} {fs : List (Factor MeasureUnit)} (some : fs ≠ [])
    (bounded : ∀ f ∈ fs, f.power.val ≠ -2147483648) (nonzero : ∀ f ∈ fs, f.power.val ≠ 0)
    (each : ∀ f ∈ fs, ∃ t : Tree .exponent,
      t.Multiplies table (printer.factorText (rendered f.unit) f.power.val.natAbs)
        [asPrinted value f] ∧ IsUnmistakable .exponent t.lexemes)
    (factors : AreFactors ((inOrder fs).map (asPrinted value)))
    (apart : Apart ((inOrder fs).map (asPrinted value))) :
    ∃ t : Tree .product,
      t.Multiplies table (printer.productText (fs.map fun f => ⟨rendered f.unit, f.power⟩))
        ((inOrder fs).map (asRead value)) ∧ IsUnmistakable .product t.lexemes := by
  have perm := inOrder_perm fs
  have kept (f : Factor MeasureUnit) (hf : f ∈ inOrder fs) : f ∈ fs := perm.mem_iff.1 hf
  rw [productText_map]
  rw [inOrder] at perm kept factors apart ⊢
  generalize eqPositive : (fs.filter fun f => 0 < f.power.val) = positive at *
  generalize eqNegative : (fs.filter fun f => !(0 < f.power.val)) = negative at *
  have positives : positive.map (asPrinted value) = positive.map (asRead value) := by
    refine List.map_congr_left fun f hf => asPrinted_of_pos ?_
    rw [← eqPositive] at hf
    simpa using (List.mem_filter.1 hf).2
  have negated : (negative.map (asPrinted value)).mapM (raise Power.negOne) =
      .ok (negative.map (asRead value)) := by
    rw [List.mapM_map, mapM_eq_ok fun f hf => ?_]
    rw [← eqNegative] at hf
    obtain ⟨member, neg⟩ := List.mem_filter.1 hf
    exact raise_asPrinted (by simpa using neg) (bounded f member)
  by_cases divided : negative = []
  · subst divided
    rw [List.append_nil] at perm factors apart kept ⊢
    have somePositive : positive ≠ [] := by
      rintro rfl
      exact some perm.nil_eq.symm
    rw [if_pos rfl, ← positives]
    exact exists_separated printer somePositive (fun f hf => each f (kept f hf)) factors apart
  · have nonzeroRead : ∀ k ∈ negative.map (asRead value), k.power.val ≠ 0 := by
      intro k hk
      obtain ⟨f, hf, rfl⟩ := List.mem_map.1 hk
      exact nonzero f (kept f (List.mem_append_right _ hf))
    have sameUnits : (negative.map (asRead value)).map (·.unit) =
        (negative.map (asPrinted value)).map (·.unit) := by
      rw [List.map_map, List.map_map]
      rfl
    rw [if_neg divided, List.map_append, ← positives]
    exact exists_quotient printer divided (fun f hf => each f (kept f hf)) factors apart negated
      sameUnits nonzeroRead

/-- A product of units that are read back is read back. -/
theorem renders_product (printer : Printer) {fs : List (Factor MeasureUnit)}
    (rendered : MeasureUnit → Rendered) (tidy : (product fs).isTidy = true)
    (units : ∀ f ∈ fs, Renders table (rendered f.unit) f.unit)
    (bounded : ∀ f ∈ fs, f.power.val ≠ -2147483648) :
    Renders table ⟨printer.productText (fs.map fun f => ⟨rendered f.unit, f.power⟩), .product⟩
      (product fs) := by
  obtain ⟨⟨apart, factors, -⟩, unitsTidy⟩ := isTidy_product.1 tidy
  by_cases empty : fs = []
  · subst empty
    exact Or.inl ⟨rfl, rfl⟩
  have each (f : Factor MeasureUnit) (hf : f ∈ fs) :=
    exists_asPrinted printer (units f hf) (factors f hf).1 (factors f hf).2 (bounded f hf)
  choose! value same values trees using each
  have perm := inOrder_perm fs
  have kept (f : Factor MeasureUnit) (hf : f ∈ inOrder fs) : f ∈ fs := perm.mem_iff.1 hf
  have printedFactors : AreFactors ((inOrder fs).map (asPrinted value)) :=
    areFactors_asPrinted (fun f hf => factors f (kept f hf)) (fun f hf => bounded f (kept f hf))
      fun f hf => same f (kept f hf)
  have printedApart : Apart ((inOrder fs).map (asPrinted value)) :=
    apart_asPrinted (apart.perm unitsTidy perm.symm) (fun f hf => unitsTidy f (kept f hf))
      fun f hf => same f (kept f hf)
  obtain ⟨t, multiplies, unmistakable⟩ := exists_product printer empty bounded
    (fun f hf => (factors f hf).2) trees printedFactors printedApart
  obtain ⟨equal, equalTidy⟩ := product_beq_ofFactors tidy perm.symm same values
  exact Or.inr ⟨t, ⟨multiplies.spells, multiplies.preferred, multiplies.bare, _, multiplies.eval,
    equal, equalTidy⟩, fun _ => unmistakable⟩

end Expression

end Metrology
