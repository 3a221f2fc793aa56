import Metrology.Proofs.Catalog.RoundTrip
import Metrology.Proofs.Catalog.Styles
import Metrology.Proofs.MeasureUnit.Cancellation

/-!
# Powers in print

The units that products, quotients and powers make of those of the catalog have words for their
offsets, whatever the powers are. So they are read back from their texts, as long as what stands
behind a division line can be read: the magnitude of a negative power is read as a power, which that
of the least power is not, and a unit is divided by a number only if the number is not too long.
-/
namespace Metrology

/-! ### Steps of the catalog -/

namespace Converter

variable {c s : Converter}

/-- Whether all offsets are a whole number of hundredths other than zero, all scalings are in lowest
terms and there is nothing else. -/
def IsCentesimal : Converter → Prop
  | identity => True
  | add x => x ≠ 0 ∧ x.den ∣ 100
  | ratio r => r.IsReduced
  | pair outer inner => outer.IsCentesimal ∧ inner.IsCentesimal
  | _ => False

instance decidableIsCentesimal : (c : Converter) → Decidable c.IsCentesimal
  | identity => inferInstanceAs (Decidable True)
  | add x => inferInstanceAs (Decidable (x ≠ 0 ∧ x.den ∣ 100))
  | ratio r => inferInstanceAs (Decidable r.IsReduced)
  | multiply _ | log _ | exp _ => inferInstanceAs (Decidable False)
  | pair outer inner =>
    have := decidableIsCentesimal outer
    have := decidableIsCentesimal inner
    inferInstanceAs (Decidable (outer.IsCentesimal ∧ inner.IsCentesimal))

theorem isCentesimal_iff : c.IsCentesimal ↔ ∀ s ∈ c.steps, s.IsCentesimal :=
  iff_forall_steps trivial (fun _ _ => Iff.rfl) c

/-- Offsets that merge make a whole number of hundredths again. -/
theorem isStable_isCentesimal : IsStable IsCentesimal :=
  isStable_of_steps trivial (fun _ _ => Iff.rfl)
    (fun x y hx hy nonzero =>
      ⟨nonzero, (Rat.add_den_dvd_lcm x y).trans (Nat.lcm_dvd hx.2 hy.2)⟩)
    (fun _ reduced => reduced) (fun _ h => h) fun s step h => by
      cases s with
      | add x => exact ⟨neg_ne_zero.2 h.1, h.2⟩
      | ratio r => exact isReduced_inverse h
      | identity | pair => exact step.elim
      | multiply | log | exp => exact h.elim

theorem isProper_of_isCentesimal (h : c.IsCentesimal) : c.IsProper := by
  induction c with
  | identity => trivial
  | add x => exact h.1
  | ratio r => exact h
  | pair outer inner ho hi => exact ⟨ho h.1, hi h.2⟩
  | multiply | log | exp => exact h.elim

/-- Whether a step is no scaling with a divisor that is too long to divide by. -/
def HasShortDivisor : Converter → Prop
  | ratio r => r.divisor < 2 ^ 4096
  | _ => True

/-- The language has words for offsets of hundredths and for scalings with short divisors. -/
theorem isSpoken_of_isCentesimal (step : s.IsStep) (centesimal : s.IsCentesimal)
    (short : s.HasShortDivisor) : s.IsSpoken := by
  cases s with
  | add x => exact ⟨centesimal.1, 2, by decide, centesimal.2⟩
  | ratio r => exact ⟨centesimal, short⟩
  | identity | pair => exact step.elim
  | multiply | log | exp => exact centesimal.elim

end Converter

/-! ### Division lines -/

namespace Expression

open Converter MeasureUnit

variable {printer : Printer} {u : MeasureUnit} {c : Converter}

/-- Whether what is written behind the division lines in the text of a unit is read: there is no least
power and no divisor that is too long. -/
inductive Printer.HasReadableDivisors (p : Printer) : MeasureUnit → Prop where
  | base (symbol : String) : p.HasReadableDivisors (.base symbol)
  | alternate (symbol : String) (parent : MeasureUnit) : p.HasReadableDivisors (.alternate symbol parent)
  | product {fs : List (Factor MeasureUnit)} (units : ∀ f ∈ fs, p.HasReadableDivisors f.unit)
      (powers : ∀ f ∈ fs, f.power.val ≠ -2147483648) : p.HasReadableDivisors (.product fs)
  | transformed {parent : MeasureUnit} {c : Converter} (mark : Option Nat)
      (readable : p.HasReadableDivisors parent)
      (steps : ∀ s ∈ p.printedSteps parent c, s.HasShortDivisor) :
      p.HasReadableDivisors (.transformed parent c mark)
  | noted {actual : MeasureUnit} (note : String) (readable : p.HasReadableDivisors actual) :
      p.HasReadableDivisors (.noted actual note)

/-- What is printed for a converter are its steps, or those that lead there from a thousandth. -/
theorem exists_printedSteps (printer : Printer) (u : MeasureUnit) (h : c.IsCentesimal) :
    ∃ k : Converter, printer.printedSteps u c = k.steps ∧ k.IsCentesimal := by
  unfold Printer.printedSteps
  split
  · rename_i found
    obtain ⟨-, -, -, rfl⟩ := substituted?_eq_some found
    exact ⟨_, rfl, isStable_isCentesimal.compose (by decide) h⟩
  · exact ⟨c, rfl, h⟩

/-- A unit without notes is printable if its offsets are hundredths and its divisors are readable. -/
theorem Printer.HasReadableDivisors.isPrintable (h : printer.HasReadableDivisors u)
    (unnoted : u.IsUnnoted) (centesimal : u.EveryConverter IsCentesimal) :
    printer.IsPrintable u := by
  induction h with
  | base symbol => exact .base symbol
  | alternate symbol parent => exact .alternate symbol parent
  | product _ powers ih =>
    cases unnoted with
    | product unnoted =>
      cases centesimal with
      | product centesimal =>
        exact .product (fun f hf => ih f hf (unnoted f hf) (centesimal f hf)) powers
  | @transformed parent c mark _ short ih =>
    cases unnoted with
    | transformed _ _ unnoted =>
      cases centesimal with
      | transformed _ inner outer =>
        obtain ⟨k, printed, steps⟩ := exists_printedSteps printer parent outer
        refine .transformed mark (ih unnoted inner) (isProper_of_isCentesimal outer) fun s hs => ?_
        have mem : s ∈ k.steps := printed ▸ hs
        exact isSpoken_of_isCentesimal (isStep_of_mem_steps mem) (isCentesimal_iff.1 steps s mem)
          (short s hs)
  | noted => cases unnoted

end Expression

/-! ### Units of the algebra -/

namespace Catalog

open Expression (maxDepth)
open MeasureUnit

variable {u : MeasureUnit}

/-- The units that products, quotients and powers make of those of the catalog. -/
inductive IsAlgebraic : MeasureUnit → Prop where
  | labelled {entry : MeasureUnit × String} (member : entry ∈ labels) : IsAlgebraic entry.1
  | mul {u v w : MeasureUnit} (left : IsAlgebraic u) (right : IsAlgebraic v)
      (ok : u.mul v = .ok w) : IsAlgebraic w
  | div {u v w : MeasureUnit} (left : IsAlgebraic u) (right : IsAlgebraic v)
      (ok : u.div v = .ok w) : IsAlgebraic w
  | pow {u w : MeasureUnit} (n : Power) (unit : IsAlgebraic u) (ok : u.pow n = .ok w) :
      IsAlgebraic w
  | reciprocal {u w : MeasureUnit} (unit : IsAlgebraic u) (ok : u.reciprocal = .ok w) :
      IsAlgebraic w

theorem IsAlgebraic.isConstructible (h : IsAlgebraic u) : IsConstructible u := by
  induction h with
  | labelled member => exact .labelled member
  | mul _ _ ok left right => exact .mul left right ok
  | div _ _ ok left right => exact .div left right ok
  | pow n _ ok unit => exact .pow n unit ok
  | reciprocal _ ok unit => exact .reciprocal unit ok

/-- The algebra adds no offsets to those of the catalog, and its scalings come out in lowest terms. -/
theorem IsAlgebraic.everyConverter_isCentesimal (h : IsAlgebraic u) :
    u.EveryConverter Converter.IsCentesimal := by
  have closed := isClosed_everyConverter Converter.isStable_isCentesimal
  have atoms : ∀ entry ∈ labels, entry.1.EveryConverter Converter.IsCentesimal := by
    decide +kernel
  induction h with
  | labelled member => exact atoms _ member
  | mul _ _ ok left right => exact closed.mul left right ok
  | div _ _ ok left right => exact closed.div left right ok
  | pow n _ ok unit => exact closed.pow unit ok
  | reciprocal _ ok unit => exact closed.pow unit ok

/-- A product of powers of units of the catalog is read back from its text, in any style, if what
stands behind its division lines is read. -/
theorem exists_parse_format_powers (style : Expression.Style) (algebraic : IsAlgebraic u)
    (readable : (printer style).HasReadableDivisors u)
    (shallow : nesting 0 false (Expression.format (printer style) u).toList < maxDepth) :
    ∃ v, parse (Expression.format (printer style) u) = .ok v ∧ (v == u) = true := by
  have constructible := algebraic.isConstructible
  have tidy := constructible.isTidy
  have unnoted := constructible.of_isHereditary isHereditary_isUnnoted isUnnoted_of_mem_labels
  have labels := constructible.of_isHereditary (SymbolTable.isHereditary_labels symbols.table)
    labels_of_mem_labels
  have printable := readable.isPrintable unnoted algebraic.everyConverter_isCentesimal
  obtain ⟨renders, -⟩ := Expression.renders_render isFaithful_symbols tidy labels printable
  rw [format_of_isUnnoted unnoted] at shallow ⊢
  exact Expression.parse_of_renders renders tidy shallow

/-- The greatest power and the least one that is read. -/
theorem exists_parse_format_powers_speed :
    let most : Power := ⟨2147483647, by decide, by decide⟩
    let least : Power := ⟨-2147483647, by decide, by decide⟩
    let u : MeasureUnit := .product [⟨metre, most⟩, ⟨second, least⟩]
    (∃ speed, metre.div second = .ok speed ∧ speed.pow most = .ok u) ∧
      Expression.format (printer {}) u = "m^2147483647/s^2147483647" ∧
      ∃ v, parse (Expression.format (printer {}) u) = .ok v ∧ (v == u) = true := by
  intro most least u
  have quotient : metre.div second = .ok (.product [⟨metre, Power.one⟩, ⟨second, Power.negOne⟩]) :=
    rfl
  have power : MeasureUnit.pow (.product [⟨metre, Power.one⟩, ⟨second, Power.negOne⟩]) most = .ok u :=
    rfl
  have algebraic : IsAlgebraic u := .pow most (.div
    (@IsAlgebraic.labelled (metre, "m") (by simp [labels]))
    (@IsAlgebraic.labelled (second, "s") (by simp [labels])) quotient) power
  have readable : (printer {}).HasReadableDivisors u := by
    refine .product (fun f hf => ?_) (by decide)
    simp only [List.mem_cons, List.not_mem_nil, or_false] at hf
    rcases hf with rfl | rfl
    · exact .base _
    · exact .base _
  exact ⟨⟨_, quotient, power⟩, by decide +kernel,
    exists_parse_format_powers {} algebraic readable (by decide +kernel)⟩

/-- The least power of the metre is written, but its magnitude is not read as a power, in no style. -/
theorem parse_format_least_power :
    let least : Power := ⟨-2147483648, by decide, by decide⟩
    ∃ u, metre.pow least = .ok u ∧ IsAlgebraic u ∧ format u = "1/m^2147483648" ∧
      nesting 0 false (format u).toList < maxDepth ∧
      parse (format u) = .error (.malformed 4 .exponentOutOfRange) ∧
      ∀ style, ∃ e, parse (Expression.format (printer style) u) = .error e := by
  intro least
  have power : metre.pow least = .ok (.product [⟨metre, least⟩]) := rfl
  have algebraic : IsAlgebraic (.product [⟨metre, least⟩]) :=
    .pow least (@IsAlgebraic.labelled (metre, "m") (by simp [labels])) power
  have text : format (.product [⟨metre, least⟩]) = "1/m^2147483648" := by decide +kernel
  have scanned : (Scanner.ofText "1/m^2147483648").tokens = .ok
      [⟨.number ⟨['1'], [], none⟩, 0⟩, ⟨.solidus, 1⟩, ⟨.identifier "m", 2⟩, ⟨.caret, 3⟩,
        ⟨.number ⟨"2147483648".toList, [], none⟩, 4⟩] := by
    refine Scanner.tokens_of_next ⟨"/m^2147483648".toList, 1⟩ rfl (by decide) ?_
    refine Scanner.tokens_of_next ⟨"m^2147483648".toList, 2⟩ rfl (by decide) ?_
    refine Scanner.tokens_of_next ⟨"^2147483648".toList, 3⟩ rfl (by decide) ?_
    refine Scanner.tokens_of_next ⟨"2147483648".toList, 4⟩ rfl (by decide) ?_
    refine Scanner.tokens_of_next ⟨[], 14⟩ rfl (by decide) ?_
    exact Scanner.tokens_of_end ⟨[], 14⟩ rfl rfl
  have refused : parse (format (.product [⟨metre, least⟩])) =
      .error (.malformed 4 .exponentOutOfRange) := by
    rw [text]
    change Expression.parseBody symbols.table "1/m^2147483648" = _
    rw [Expression.parseBody_eq scanned]
    rfl
  refine ⟨_, power, algebraic, text, by rw [text]; decide, refused, fun style => ?_⟩
  -- What one style says that is not read, no other says.
  have built : IsBuilt (.product [⟨metre, least⟩]) := .pow least (.base "m") power
  have words : (MeasureUnit.product [⟨metre, least⟩]).EverySymbol Expression.IsWord := by
    refine .product fun f hf => ?_
    cases List.mem_singleton.1 hf
    exact .base (Expression.isWord_of_mem_tokens scanned ⟨.identifier "m", 2⟩ (by simp) "m" rfl)
  have same := Expression.toOption_parse_format isFaithful_symbols words built.isRegular style {}
  change (parse (Expression.format (printer style) (.product [⟨metre, least⟩]))).toOption =
    (parse (format (.product [⟨metre, least⟩]))).toOption at same
  rw [refused] at same
  cases other : parse (Expression.format (printer style) (.product [⟨metre, least⟩])) with
  | error e => exact ⟨e, rfl⟩
  | ok v =>
    rw [other] at same
    cases same

end Catalog

end Metrology
