import Metrology.Proofs.Converter.Exactness
import Metrology.Proofs.Decimal
import Metrology.Proofs.MeasureUnit.Coherence
import Metrology.Proofs.MeasureUnit.SystemConverter
import Metrology.Quantity

/-!
# Converting quantities

A conversion that succeeds has lost nothing: the quantity converts back, and has its value again.

Quantities of one value in equal units convert to the same quantity as long as the converters of
factors can be exchanged. Equality looks at factors in any order and a conversion takes them in the
order in which they stand, which matters when a factor has an offset.
-/
namespace Metrology

open Converter
open MeasureUnit (thousandfold sixtyfold kilometre minute isBuilt_kilometre isBuilt_minute
  everyConverter_kilometre everyConverter_minute systemConverter_kilometre systemConverter_minute)

theorem Converter.beq_self_of_isChecked {c : Converter} (h : c.IsChecked) : (c == c) = true := by
  induction c with
  | pair a b iha ihb => exact pair_beq_pair.2 ⟨iha h.1, ihb h.2⟩
  | multiply => exact h.elim
  | log x | exp x => exact (beq_base_iff h).2 rfl
  | add x => exact add_beq_add.2 rfl
  | ratio r => exact ratio_beq_ratio.2 rfl
  | identity => rfl

namespace Quantity

theorem convertValue_eq_ok {value result : Decimal} {c : Converter} :
    convertValue value c = .ok result ↔
      ∃ x, c.applyExact value.toRat = .ok x ∧ Decimal.ofRat x = .ok result := by
  rw [← bind_ok_iff]
  change (applyDecimal c value).mapError Error.conversion = _ ↔ applyDecimal c value = _
  cases applyDecimal c value <;> simp [Except.mapError]

theorem convertTo_eq_ok {q r : Quantity} {t : MeasureUnit} :
    q.convertTo t = .ok r ↔
      ∃ c, q.unit.converterTo t = .ok c ∧ ∃ value, convertValue q.value c = .ok value ∧
        r = ⟨value, t⟩ := by
  simp only [convertTo, bind_ok_iff]
  exact exists_congr fun c => and_congr_right fun _ => exists_congr fun value =>
    and_congr_right fun _ => ⟨fun h => (Except.ok.inj h).symm, fun h => by rw [h]; rfl⟩

/-- A quantity that converts to a unit converts back, to the same value in the same unit. -/
theorem convertTo_back {q r : Quantity} {t : MeasureUnit} (hq : q.unit.IsBuilt) (ht : t.IsBuilt)
    (checked : q.unit.EveryConverter IsChecked) (checked' : t.EveryConverter IsChecked)
    (ok : q.convertTo t = .ok r) :
    ∃ s, r.convertTo q.unit = .ok s ∧ (s.unit == q.unit) = true ∧ s.value.toRat = q.value.toRat ∧
      s.value.scale ≤ q.value.scale := by
  obtain ⟨f, there, value, converted, rfl⟩ := convertTo_eq_ok.1 ok
  obtain ⟨x, forward, decimal⟩ := convertValue_eq_ok.1 converted
  obtain ⟨g, back, ways⟩ := MeasureUnit.exists_converterTo_back hq ht there
  have undone : g.applyExact x = .ok q.value.toRat := by
    rcases ways with ⟨rfl, rfl⟩ | ⟨c, d, hc, hd, rfl, rfl⟩
    · cases forward
      rfl
    · exact applyExact_back (checked.systemConverter isStable_isChecked hc)
        (checked'.systemConverter isStable_isChecked hd) forward
  obtain ⟨e, short, same, places⟩ := q.value.exists_ofRat_toRat
  rw [← Decimal.toRat_of_ofRat decimal] at undone
  exact ⟨⟨e, q.unit⟩, convertTo_eq_ok.2 ⟨g, back, e, convertValue_eq_ok.2 ⟨_, undone, short⟩, rfl⟩,
    checked.beq_self fun _ => beq_self_of_isChecked, same, places⟩

/-- Twenty degrees Celsius are converted to eighths of a kelvin, their scaling not in lowest terms. -/
theorem convertTo_back_celsius :
    let celsius := (MeasureUnit.base "K").transform (.add (27315 / 100))
    let eighth := (MeasureUnit.base "K").transform (ratio ⟨2, 16, by decide, by decide, by decide⟩)
    let q : Quantity := ⟨⟨2000, 2, by decide, by decide⟩, celsius⟩
    (q.unit.IsBuilt ∧ eighth.IsBuilt ∧ q.unit.EveryConverter IsChecked ∧
      eighth.EveryConverter IsChecked) ∧
    ∃ r s, q.convertTo eighth = .ok r ∧ r.convertTo q.unit = .ok s ∧ (s.unit == q.unit) = true ∧
      s.value.toRat = q.value.toRat ∧ s.value.scale ≤ q.value.scale := by
  intro celsius eighth q
  have kelvin : (MeasureUnit.base "K").IsBuilt := .base "K"
  have hq : celsius.IsBuilt := kelvin.transform _
  have ht : eighth.IsBuilt := kelvin.transform _
  have checked : q.unit.EveryConverter IsChecked := .transformed none (.base "K") (by decide +kernel)
  have checked' : eighth.EveryConverter IsChecked := .transformed none (.base "K") (by decide +kernel)
  have there : q.convertTo eighth = .ok ⟨⟨23452, 1, by decide, by decide⟩, eighth⟩ :=
    convertTo_eq_ok.2 ⟨_, rfl, _,
      convertValue_eq_ok.2 ⟨23452 / 10, by decide +kernel, by decide +kernel⟩, rfl⟩
  obtain ⟨s, back⟩ := convertTo_back hq ht checked checked' there
  exact ⟨⟨hq, ht, checked, checked'⟩, _, s, there, back⟩

/-! ### Equal units -/

/-- Quantities of one value in equal units convert alike, if the converters of factors can be
exchanged and both units have a system unit. -/
theorem convertTo_congr {a b : MeasureUnit} (ha : a.IsBuilt) (hb : b.IsBuilt)
    (pa : a.EveryConverter Converter.IsProper) (pb : b.EveryConverter Converter.IsProper)
    (ca : a.HasCommutingFactors) (same : (a == b) = true) :
    (∀ c, a.systemConverter = .ok c ↔ b.systemConverter = .ok c) ∧
    ∀ s s', a.systemUnit = .ok s → b.systemUnit = .ok s' → ∀ (x : Decimal) (t : MeasureUnit) r,
      convertTo ⟨x, a⟩ t = .ok r ↔ convertTo ⟨x, b⟩ t = .ok r := by
  refine ⟨fun c => MeasureUnit.systemConverter_congr ha.isDistinct pa ca same,
    fun s s' hs hs' x t r => ?_⟩
  rw [convertTo_eq_ok, convertTo_eq_ok]
  exact exists_congr fun f =>
    and_congr_left' (MeasureUnit.converterTo_congr ha hb pa pb ca same hs hs')

/-- Kilometre minutes and minute kilometres convert alike. -/
theorem convertTo_congr_kilometre :
    let a := MeasureUnit.product [⟨kilometre, Power.one⟩, ⟨minute, Power.one⟩]
    let b := MeasureUnit.product [⟨minute, Power.one⟩, ⟨kilometre, Power.one⟩]
    (a.IsBuilt ∧ b.IsBuilt ∧ a.EveryConverter Converter.IsProper ∧
      b.EveryConverter Converter.IsProper ∧ a.HasCommutingFactors ∧ (a == b) = true) ∧
    (∀ c, a.systemConverter = .ok c ↔ b.systemConverter = .ok c) ∧
    ∃ s s', a.systemUnit = .ok s ∧ b.systemUnit = .ok s' ∧ ∀ (x : Decimal) (t : MeasureUnit) r,
      convertTo ⟨x, a⟩ t = .ok r ↔ convertTo ⟨x, b⟩ t = .ok r := by
  intro a b
  have ha : a.IsBuilt := .mul isBuilt_kilometre isBuilt_minute rfl
  have hb : b.IsBuilt := .mul isBuilt_minute isBuilt_kilometre rfl
  have pk : kilometre.EveryConverter Converter.IsProper := everyConverter_kilometre (by decide)
  have pm : minute.EveryConverter Converter.IsProper := everyConverter_minute (by decide)
  have pa : a.EveryConverter Converter.IsProper := .product (by simp [pk, pm])
  have pb : b.EveryConverter Converter.IsProper := .product (by simp [pk, pm])
  have sk : kilometre.HasScaledFactors := .transformed _ none (.base "m")
  have sm : minute.HasScaledFactors := .transformed _ none (.base "s")
  have sa : a.HasScaledFactors := .product (by simp [sk, sm])
    (by simp [systemConverter_kilometre, systemConverter_minute, thousandfold, sixtyfold])
  have same : (a == b) = true := by decide +kernel
  obtain ⟨converters, quantities⟩ := convertTo_congr ha hb pa pb (sa.commuting pa) same
  exact ⟨⟨ha, hb, pa, pb, sa.commuting pa, same⟩, converters, _, _, rfl, rfl, quantities _ _ rfl rfl⟩

/-- One degree Celsius times kilometre is 1273.15 kelvin metres, and one kilometre times degree
Celsius, which is the same unit, 274150. -/
theorem exists_beq_convertTo_ne :
    ∃ a b t : MeasureUnit, ∃ x : Decimal, (a.IsBuilt ∧ b.IsBuilt ∧ t.IsBuilt ∧
      a.EveryConverter Converter.IsProper ∧ b.EveryConverter Converter.IsProper ∧ (a == b) = true) ∧
    (∃ c d, a.systemConverter = .ok c ∧ b.systemConverter = .ok d ∧ (c == d) = false) ∧
    ∃ r r', convertTo ⟨x, a⟩ t = .ok r ∧ convertTo ⟨x, b⟩ t = .ok r' ∧
      r.value.toRat ≠ r'.value.toRat := by
  let celsius := (MeasureUnit.base "K").transform (.add (27315 / 100))
  let a := MeasureUnit.product [⟨celsius, Power.one⟩, ⟨kilometre, Power.one⟩]
  let b := MeasureUnit.product [⟨kilometre, Power.one⟩, ⟨celsius, Power.one⟩]
  let t := MeasureUnit.product [⟨.base "K", Power.one⟩, ⟨.base "m", Power.one⟩]
  have kelvin : (MeasureUnit.base "K").IsBuilt := .base "K"
  have metre : (MeasureUnit.base "m").IsBuilt := .base "m"
  have degrees : celsius.IsBuilt := kelvin.transform _
  have pc : celsius.EveryConverter Converter.IsProper :=
    .transformed none (.base "K") (by decide +kernel)
  have pk : kilometre.EveryConverter Converter.IsProper := everyConverter_kilometre (by decide)
  refine ⟨a, b, t, ⟨1, 0, by decide, by decide⟩,
    ⟨.mul degrees isBuilt_kilometre rfl, .mul isBuilt_kilometre degrees rfl, .mul kelvin metre rfl,
      .product (by simp [pc, pk]), .product (by simp [pc, pk]), by decide +kernel⟩,
    ⟨_, _, rfl, rfl, by decide +kernel⟩, ?_⟩
  have first : convertTo ⟨⟨1, 0, by decide, by decide⟩, a⟩ t =
      .ok ⟨⟨127315, 2, by decide, by decide⟩, t⟩ :=
    convertTo_eq_ok.2 ⟨_, rfl, _,
      convertValue_eq_ok.2 ⟨127315 / 100, by decide +kernel, by decide +kernel⟩, rfl⟩
  have second : convertTo ⟨⟨1, 0, by decide, by decide⟩, b⟩ t =
      .ok ⟨⟨274150, 0, by decide, by decide⟩, t⟩ :=
    convertTo_eq_ok.2 ⟨_, rfl, _,
      convertValue_eq_ok.2 ⟨274150, by decide +kernel, by decide +kernel⟩, rfl⟩
  exact ⟨_, _, first, second, by decide +kernel⟩

/-! ### Normalizing -/

/-- To normalize is to convert to the system unit: with the same result, or with the same error. On a
system unit it does nothing. The system unit of a definite unit equals itself, and marks make units
with a NaN in them definite. -/
theorem normalize_eq_convertTo {q : Quantity} {s : MeasureUnit} (ok : q.unit.systemUnit = .ok s)
    (self : (s == s) = true) :
    q.normalize = q.convertTo s ∧ s.systemConverter = .ok .identity := by
  refine ⟨?_, MeasureUnit.systemConverter_systemUnit ok⟩
  rw [normalize, convertTo, MeasureUnit.converterTo_systemUnit ok self, ok]
  rfl

/-- Thirty-six kilometres per hour are ten metres per second, on both ways. -/
theorem normalize_eq_convertTo_speed :
    let hour := (MeasureUnit.base "s").transform (ratio ⟨3600, 1, by decide, by decide, by decide⟩)
    let speed := MeasureUnit.product [⟨kilometre, Power.one⟩, ⟨hour, Power.negOne⟩]
    let q : Quantity := ⟨⟨36, 0, by decide, by decide⟩, speed⟩
    let s := MeasureUnit.product [⟨.base "m", Power.one⟩, ⟨.base "s", Power.negOne⟩]
    (q.unit.systemUnit = .ok s ∧ (s == s) = true) ∧
    q.normalize = .ok ⟨⟨10, 0, by decide, by decide⟩, s⟩ ∧ q.normalize = q.convertTo s ∧
      s.systemConverter = .ok .identity := by
  intro hour speed q s
  have self : (s == s) = true := by decide +kernel
  obtain ⟨same, neutral⟩ := normalize_eq_convertTo (q := q) (s := s) rfl self
  have there : q.convertTo s = .ok ⟨⟨10, 0, by decide, by decide⟩, s⟩ :=
    convertTo_eq_ok.2 ⟨_, rfl, _, convertValue_eq_ok.2 ⟨10, by decide +kernel, by decide +kernel⟩, rfl⟩
  exact ⟨⟨rfl, self⟩, same.trans there, same, neutral⟩

end Quantity

end Metrology
