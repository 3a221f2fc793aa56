import Metrology.Expression.Format
import Metrology.Proofs.Expression.Meaning
import Metrology.Proofs.MeasureUnit.Building

/-!
# What is read is exact

No text denotes a scaling by a double: numbers are exact, offsets are never zero, and the base of a
logarithm or an exponential is checked. Where all that the symbols stand for has such converters, so
has all that is read. It therefore equals itself, although units in general need not.
-/
namespace Metrology

/-- Whether all that symbols stand for has exact converters only. -/
def SymbolTable.IsExact (table : SymbolTable) : Prop :=
  ∀ {symbol : String} {v : MeasureUnit}, table.unit? symbol = some v →
    v.EveryConverter Converter.IsProper

theorem Converter.isProper_of_scaling {q : Rat} {c : Converter} (ok : scaling q = .ok c) : c.IsProper := by
  by_cases zero : q = 0
  · subst zero
    cases ok
  · rw [scaling_eq zero] at ok
    cases ok
    exact isProper_scaleBy q

namespace Expression

open Converter (IsProper isStable_isProper)
open MeasureUnit (EveryConverter isClosed_everyConverter)

variable {table : SymbolTable} {u w : MeasureUnit}

/-- What the operations make of units with proper steps has proper steps. -/
theorem isInvariant_exact : MeasureUnit.IsInvariant (EveryConverter IsProper) IsProper :=
  (isClosed_everyConverter isStable_isProper).isInvariant

theorem exact_shift (exact : u.EveryConverter IsProper) (x : Rat) :
    (u.shift x).EveryConverter IsProper :=
  isInvariant_exact.shift exact fun nonzero => nonzero

/-! ### The parts of an expression -/

theorem exact_annotated (note : Option String) (exact : u.EveryConverter IsProper)
    (some : annotated? u note = some w) : w.EveryConverter IsProper := by
  cases note with
  | none =>
    cases some
    exact exact
  | some text =>
    obtain ⟨-, rfl⟩ := MeasureUnit.annotate_eq_ok.1 (toOption_eq_some_iff.1 some)
    exact .noted text exact

theorem exact_rationalPower {p q : Power} {position : Nat} (exact : u.EveryConverter IsProper)
    (ok : rationalPower u p q position = .ok w) : w.EveryConverter IsProper := by
  unfold rationalPower at ok
  split at ok
  · cases ok
  · dsimp only at ok
    split at ok
    · rename_i n d _ _
      cases power : u.pow n with
      | error e =>
        rw [power] at ok
        cases ok
      | ok v =>
        rw [power] at ok
        simp only [bind, Except.bind, Except.mapError] at ok
        split at ok
        · rename_i root
          cases ok
          exact isInvariant_exact.root? (isInvariant_exact.pow exact power) root
        · cases ok
    · cases ok

theorem exact_suffix {suffix : Suffix} (exact : u.EveryConverter IsProper)
    (some : suffix.apply u = some w) : w.EveryConverter IsProper := by
  rcases suffix with n | ⟨p, - | q⟩ | digits
  all_goals simp only [Suffix.apply, Option.bind_eq_bind, Option.bind_eq_some_iff] at some
  · obtain ⟨n, -, power⟩ := some
    exact isInvariant_exact.pow exact (toOption_eq_some_iff.1 power)
  · obtain ⟨p, -, power⟩ := some
    exact exact_rationalPower exact (toOption_eq_some_iff.1 power)
  · obtain ⟨p, -, q, -, power⟩ := some
    exact exact_rationalPower exact (toOption_eq_some_iff.1 power)
  · obtain ⟨n, -, power⟩ := some
    exact isInvariant_exact.pow exact (toOption_eq_some_iff.1 power)

theorem exact_leadingShift {leading : Option (SignedNumber × Sign)} (exact : u.EveryConverter IsProper)
    (some : leadingShift u leading = some w) : w.EveryConverter IsProper := by
  rcases leading with - | ⟨offset, - | -⟩
  · cases some
    exact exact
  · simp only [leadingShift, Option.bind_eq_bind, Option.bind_eq_some_iff] at some
    obtain ⟨x, -, eq⟩ := some
    cases eq
    exact exact_shift exact x
  · simp only [leadingShift, Option.bind_eq_bind, Option.bind_eq_some_iff] at some
    obtain ⟨negation, ok, x, -, eq⟩ := some
    cases eq
    cases ok
    exact exact_shift (isInvariant_exact.transform exact (by decide)) x

theorem exact_trailingShift {trailing : Option (Sign × SignedNumber)}
    (exact : u.EveryConverter IsProper) (some : trailingShift u trailing = some w) :
    w.EveryConverter IsProper := by
  rcases trailing with - | ⟨sign, offset⟩
  · cases some
    exact exact
  · simp only [trailingShift, Option.bind_eq_bind, Option.bind_eq_some_iff] at some
    obtain ⟨x, -, eq⟩ := some
    cases eq
    exact exact_shift exact _

/-! ### Expressions -/

/-- The meaning of a derivation is exact if what the symbols stand for is. -/
theorem exact_eval (exact : table.IsExact) : {p : Precedence} → (t : Tree p) → {u : MeasureUnit} →
    t.eval table = some u → u.EveryConverter IsProper
  | _, .number n note, u, ok => by
    simp only [Tree.eval, Option.bind_eq_bind, Option.bind_eq_some_iff] at ok
    obtain ⟨x, -, c, scaling, ok⟩ := ok
    have proper := Converter.isProper_of_scaling (toOption_eq_some_iff.1 scaling)
    exact exact_annotated note (isInvariant_exact.transform isInvariant_exact.one proper) ok
  | _, .symbol name note, u, ok => by
    simp only [Tree.eval, Option.bind_eq_bind, Option.bind_eq_some_iff] at ok
    obtain ⟨v, found, ok⟩ := ok
    exact exact_annotated note (exact found) ok
  | _, .enclosed inner note, u, ok => by
    simp only [Tree.eval, Option.bind_eq_bind, Option.bind_eq_some_iff] at ok
    obtain ⟨v, eval, ok⟩ := ok
    exact exact_annotated note (exact_eval exact inner eval) ok
  | _, .bareNote text, u, ok => exact_annotated (some text) isInvariant_exact.one ok
  | _, .logarithm base inner, u, ok => by
    simp only [Tree.eval, Option.bind_eq_bind, Option.bind_eq_some_iff] at ok
    obtain ⟨v, eval, c, log, eq⟩ := ok
    cases eq
    refine isInvariant_exact.transform (exact_eval exact inner eval) ?_
    obtain ⟨valid, rfl⟩ := Converter.logTo_eq_ok_iff.1 (toOption_eq_some_iff.1 log)
    exact valid
  | _, .exponential base operand, u, ok => by
    simp only [Tree.eval, Option.bind_eq_bind, Option.bind_eq_some_iff] at ok
    obtain ⟨v, eval, c, exp, eq⟩ := ok
    cases eq
    refine isInvariant_exact.transform (exact_eval exact operand eval) ?_
    obtain ⟨valid, rfl⟩ := Converter.expOf_eq_ok_iff.1 (toOption_eq_some_iff.1 exp)
    exact valid
  | _, .power operand none, u, ok => exact_eval exact operand ok
  | _, .power operand (some suffix), u, ok => by
    simp only [Tree.eval, Option.bind_eq_bind, Option.bind_eq_some_iff] at ok
    obtain ⟨v, eval, ok⟩ := ok
    exact exact_suffix (exact_eval exact operand eval) ok
  | _, .single factor, u, ok => exact_eval exact factor ok
  | _, .chain left op right, u, ok => by
    simp only [Tree.eval, Option.bind_eq_bind, Option.bind_eq_some_iff] at ok
    obtain ⟨v, evalLeft, v', evalRight, ok⟩ := ok
    have exactLeft := exact_eval exact left evalLeft
    have exactRight := exact_eval exact right evalRight
    cases op with
    | times sign => exact isInvariant_exact.mul exactLeft exactRight (toOption_eq_some_iff.1 ok)
    | divide => exact isInvariant_exact.div exactLeft exactRight (toOption_eq_some_iff.1 ok)
  | _, .sum leading product trailing, u, ok => by
    simp only [Tree.eval, Option.bind_eq_bind, Option.bind_eq_some_iff] at ok
    obtain ⟨v, eval, v', shifted, ok⟩ := ok
    exact exact_trailingShift (exact_leadingShift (exact_eval exact product eval) shifted) ok

/-- A compound means its first component. -/
theorem exact_compound (exact : table.IsExact) {t : Compound} (some : t.eval table = some u) :
    u.EveryConverter IsProper := by
  simp only [Compound.eval, Option.bind_eq_bind, Option.bind_eq_some_iff] at some
  obtain ⟨v, eval, some⟩ := some
  have exact := exact_eval exact t.first eval
  split at some
  · cases some
    exact exact
  · obtain ⟨system, -, some⟩ := Option.bind_eq_some_iff.1 some
    split at some
    · cases some
      exact exact
    · cases some

/-- A text has no other steps than those of its symbols and of exact numbers. -/
theorem exact_parseBody (exact : table.IsExact) {text : String} (ok : parseBody table text = .ok u) :
    u.EveryConverter IsProper := by
  cases scanned : (Scanner.ofText text).tokens with
  | error e =>
    rw [parseBody, Cursor.ofText, scanned] at ok
    cases ok
  | ok tokens =>
    by_cases none : tokens = []
    · rw [none] at scanned
      rw [parseBody_nil scanned] at ok
      cases ok
      exact isInvariant_exact.one
    · obtain ⟨t, -, -, eval⟩ := derivation_of_parseBody scanned none ok
      exact exact_compound exact eval

/-- What is read off a text is exact if what the symbols stand for is. -/
theorem exact_parse (exact : table.IsExact) {text : String} (ok : parse table text = .ok u) :
    u.EveryConverter IsProper := by
  unfold parse at ok
  split at ok
  · cases ok
    exact isInvariant_exact.one
  · split at ok
    · rename_i body note _
      cases read : parseBody table (String.ofList body) with
      | error e =>
        rw [read] at ok
        cases ok
      | ok v =>
        rw [read] at ok
        obtain ⟨-, rfl⟩ := MeasureUnit.annotate_eq_ok.1 ok
        exact .noted _ (exact_parseBody exact read)
    · exact exact_parseBody exact ok

theorem beq_self_of_parse (exact : table.IsExact) {text : String} (ok : parse table text = .ok u) :
    (u == u) = true :=
  (exact_parse exact ok).beq_self fun _ => Converter.beq_self_of_isProper

end Expression

end Metrology
