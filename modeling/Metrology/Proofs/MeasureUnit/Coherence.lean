import Mathlib.Data.List.Perm.Basic
import Metrology.Proofs.MeasureUnit.SystemUnits

/-!
# Coherence of conversions

A conversion goes to the system unit and back from that of the target, unless the units are equal,
when it does nothing. Both ways agree where equal units have equal converters: where the converters
of the factors of a product can be exchanged, since equality does not look at the order of factors.
There and back, any conversion is undone.
-/
namespace Metrology.MeasureUnit

open Converter

/-- Whether the converters of the factors of each product in a unit can be exchanged. -/
inductive HasCommutingFactors : MeasureUnit → Prop where
  | base (symbol : String) : HasCommutingFactors (.base symbol)
  | alternate (symbol : String) (parent : MeasureUnit) :
      HasCommutingFactors (.alternate symbol parent)
  | product {fs : List (Factor MeasureUnit)} (units : ∀ f ∈ fs, f.unit.HasCommutingFactors)
      (commute : ∀ f ∈ fs, ∀ g ∈ fs, ∀ c d, powerConverter f = .ok c → powerConverter g = .ok d →
        c.compose d = d.compose c) : HasCommutingFactors (.product fs)
  | transformed {parent : MeasureUnit} (c : Converter) (mark : Option Nat)
      (inner : parent.HasCommutingFactors) : HasCommutingFactors (.transformed parent c mark)
  | noted {actual : MeasureUnit} (note : String) (inner : actual.HasCommutingFactors) :
      HasCommutingFactors (.noted actual note)

variable {a b u v : MeasureUnit} {n : Power} {c d : Converter}

/-- Which unit a factor has only shows in the error that its converter fails with. -/
theorem factorConverter_congr (ok : factorConverter u n c = .ok d) : factorConverter v n c = .ok d := by
  unfold factorConverter at *
  split_ifs at ok ⊢ <;> exact ok

theorem EveryConverter.powerConverter {Q : Converter → Prop} (hQ : IsStable Q)
    {f : Factor MeasureUnit} (h : f.unit.EveryConverter Q)
    (ok : MeasureUnit.powerConverter f = .ok d) : Q d := by
  obtain ⟨c, base, power⟩ := powerConverter_eq_ok.1 ok
  exact IsStable.factorConverter hQ (h.systemConverter hQ base) power

theorem productConverter_congr {fs gs : List (Factor MeasureUnit)} {acc : Converter}
    (same : List.Forall₂ (fun f g => ∀ d, powerConverter f = .ok d ↔ powerConverter g = .ok d) fs gs) :
    productConverter fs acc = .ok c ↔ productConverter gs acc = .ok c := by
  induction same generalizing acc with
  | nil => exact Iff.rfl
  | cons head _ ih =>
    rw [productConverter, productConverter, bind_ok_iff, bind_ok_iff]
    exact exists_congr fun d => and_congr (head d) ih

theorem productConverter_perm {fs gs : List (Factor MeasureUnit)} (perm : fs.Perm gs)
    (proper : ∀ f ∈ fs, ∀ d, powerConverter f = .ok d → d.IsProper)
    (commute : ∀ f ∈ fs, ∀ g ∈ fs, ∀ c d, powerConverter f = .ok c → powerConverter g = .ok d →
      c.compose d = d.compose c)
    (ok : productConverter fs .identity = .ok c) : productConverter gs .identity = .ok c := by
  obtain ⟨l, related, rfl⟩ := productConverter_eq_ok.1 ok
  obtain ⟨l', related', perm'⟩ := List.perm_comp_forall₂ perm.symm related
  have neutral : Converter.identity.IsProper := trivial
  refine productConverter_eq_ok.2 ⟨l', related', foldl_compose_perm perm'.symm ?_ ?_ neutral⟩
  · intro d hd
    obtain ⟨f, hf, step⟩ := exists_of_forall₂ related d hd
    exact proper f hf d step
  · intro c hc d hd
    obtain ⟨f, hf, step⟩ := exists_of_forall₂ related c hc
    obtain ⟨g, hg, step'⟩ := exists_of_forall₂ related d hd
    exact commute f hf g hg c d step step'

theorem productConverter_perm_iff {fs gs : List (Factor MeasureUnit)} (perm : fs.Perm gs)
    (proper : ∀ f ∈ fs, ∀ d, powerConverter f = .ok d → d.IsProper)
    (commute : ∀ f ∈ fs, ∀ g ∈ fs, ∀ c d, powerConverter f = .ok c → powerConverter g = .ok d →
      c.compose d = d.compose c) :
    productConverter fs .identity = .ok c ↔ productConverter gs .identity = .ok c := by
  have member : ∀ g ∈ gs, g ∈ fs := fun g => perm.mem_iff.2
  exact ⟨productConverter_perm perm proper commute, productConverter_perm perm.symm
    (fun f hf => proper f (member f hf)) fun f hf g hg => commute f (member f hf) g (member g hg)⟩

/-- The factors of the one product in the order in which those of the other match them. -/
theorem exists_reordered_of_product_beq {fs gs : List (Factor MeasureUnit)}
    (distinct : (product fs).IsDistinct) (h : (product fs == product gs) = true) :
    ∃ ls, fs.Perm ls ∧
      List.Forall₂ (fun f g => (f.unit == g.unit) = true ∧ f.power = g.power) ls gs := by
  obtain ⟨ks, perm, related⟩ := exists_perm_of_product_beq distinct h
  have matched : Relation.Comp (List.Forall₂ _) List.Perm fs gs := ⟨ks, related, perm⟩
  rwa [List.forall₂_comp_perm_eq_perm_comp_forall₂] at matched

/-- Equal units have the same system converter, or both have none, if the converters of factors can
be exchanged. -/
theorem systemConverter_congr (distinct : a.IsDistinct) (proper : a.EveryConverter Converter.IsProper)
    (commuting : a.HasCommutingFactors) (h : (a == b) = true) :
    a.systemConverter = .ok c ↔ b.systemConverter = .ok c := by
  induction a generalizing b c with
  | base s | alternate s p =>
    cases b <;> try cases h
    exact Iff.rfl
  | product fs ih =>
    cases b with
    | product gs =>
      obtain ⟨ls, reordered, matched⟩ := exists_reordered_of_product_beq distinct h
      cases distinct with | product _ units =>
      cases proper with | product steps =>
      cases commuting with | product inner commute =>
      have same : ∀ f k : Factor MeasureUnit,
          (f ∈ fs ∧ (f.unit == k.unit) = true ∧ f.power = k.power) →
          ∀ d, powerConverter f = .ok d ↔ powerConverter k = .ok d := by
        rintro f k ⟨hf, equal, power⟩ d
        rw [powerConverter_eq_ok, powerConverter_eq_ok, power]
        exact exists_congr fun c => and_congr (ih f hf (units f hf) (steps f hf) (inner f hf) equal)
          ⟨factorConverter_congr, factorConverter_congr⟩
      have proper : ∀ f ∈ fs, ∀ d, powerConverter f = .ok d → d.IsProper := fun f hf d =>
        (steps f hf).powerConverter isStable_isProper
      have members : ∀ f ∈ ls, f ∈ fs := fun f => reordered.mem_iff.2
      have related := ((List.forall₂_and_left ls gs).2 ⟨members, matched⟩).imp same
      exact (productConverter_perm_iff reordered proper commute).trans (productConverter_congr related)
    | _ => cases h
  | transformed p k m ih =>
    cases b <;> try cases h
    cases distinct with | transformed _ _ distinct =>
    cases proper with | transformed _ proper step =>
    cases commuting with | transformed _ _ commuting =>
    rw [transformed_beq_transformed, Bool.and_eq_true] at h
    have same := eq_of_sameConverter step h.2
    rw [systemConverter, systemConverter, bind_ok_iff, bind_ok_iff, same]
    exact exists_congr fun d => and_congr_left' (ih distinct proper commuting h.1)
  | noted p note ih =>
    cases b <;> try cases h
    cases distinct with | noted _ distinct =>
    cases proper with | noted _ proper =>
    cases commuting with | noted _ commuting =>
    rw [noted_beq_noted, Bool.and_eq_true] at h
    rw [systemConverter, systemConverter]
    exact ih distinct proper commuting h.1

/-! ### Scaled factors -/

/-- Whether the factors of each product in a unit are converted by nothing or by one scaling. -/
inductive HasScaledFactors : MeasureUnit → Prop where
  | base (symbol : String) : HasScaledFactors (.base symbol)
  | alternate (symbol : String) (parent : MeasureUnit) : HasScaledFactors (.alternate symbol parent)
  | product {fs : List (Factor MeasureUnit)} (units : ∀ f ∈ fs, f.unit.HasScaledFactors)
      (scaled : ∀ f ∈ fs, f.unit.systemConverter = .ok .identity ∨
        ∃ r, f.unit.systemConverter = .ok (.ratio r)) : HasScaledFactors (.product fs)
  | transformed {parent : MeasureUnit} (c : Converter) (mark : Option Nat)
      (inner : parent.HasScaledFactors) : HasScaledFactors (.transformed parent c mark)
  | noted {actual : MeasureUnit} (note : String) (inner : actual.HasScaledFactors) :
      HasScaledFactors (.noted actual note)

theorem HasScaledFactors.commuting (h : a.HasScaledFactors)
    (proper : a.EveryConverter Converter.IsProper) : a.HasCommutingFactors := by
  induction h with
  | base symbol => exact .base symbol
  | alternate symbol parent => exact .alternate symbol parent
  | @product fs _ scaled ih =>
    cases proper with | product steps =>
    refine .product (fun f hf => ih f hf (steps f hf)) fun f hf g hg c d ok ok' => ?_
    have scaling : ∀ f ∈ fs, ∀ d, powerConverter f = .ok d → d.IsScaling := by
      intro f hf d ok
      obtain ⟨c, base, power⟩ := powerConverter_eq_ok.1 ok
      have proper := (steps f hf).systemConverter isStable_isProper base
      refine IsStable.factorConverter isStable_isScaling ⟨proper, ?_⟩ power
      rcases scaled f hf with identity | ⟨r, ratio⟩
      · cases base.symm.trans identity
        trivial
      · cases base.symm.trans ratio
        trivial
    have hc := scaling f hf c ok
    have hd := scaling g hg d ok'
    rw [compose_of_isRational hc.1 hc.2 hd.1 hd.2, compose_of_isRational hd.1 hd.2 hc.1 hc.2, mul_comm]
  | transformed c mark _ ih =>
    cases proper with | transformed _ proper _ =>
    exact .transformed c mark (ih proper)
  | noted note _ ih =>
    cases proper with | noted _ proper =>
    exact .noted note (ih proper)

/-! ### Conversions -/

/-- What a conversion consists of: nothing for equal units, else the way to the common system unit
and back. -/
theorem converterTo_eq_ok {f : Converter} :
    u.converterTo v = .ok f ↔ ((u == v) = true ∧ f = .identity) ∨ ((u == v) = false ∧
      (∃ s t, u.systemUnit = .ok s ∧ v.systemUnit = .ok t ∧ (s == t) = true) ∧
      ∃ c d, u.systemConverter = .ok c ∧ v.systemConverter = .ok d ∧ f = d.inverse.compose c) := by
  cases equal : u == v with
  | true =>
    rw [converterTo, if_pos equal]
    constructor
    · exact fun ok => Or.inl ⟨rfl, (Except.ok.inj ok).symm⟩
    · rintro (⟨-, rfl⟩ | ⟨differ, -⟩)
      · rfl
      · cases differ
  | false =>
    simp only [converterTo, equal, Bool.false_eq_true, if_false, false_and, false_or, true_and,
      bind_ok_iff]
    constructor
    · rintro ⟨s, hs, t, ht, ok⟩
      split at ok
      · cases ok
      · rename_i compatible
        simp only [bind_ok_iff] at ok
        obtain ⟨c, hc, d, hd, ok⟩ := ok
        cases ok
        exact ⟨⟨s, t, hs, ht, by simpa using compatible⟩, c, d, hc, hd, rfl⟩
    · rintro ⟨⟨s, t, hs, ht, compatible⟩, c, d, hc, hd, rfl⟩
      refine ⟨s, hs, t, ht, ?_⟩
      rw [if_neg (by simp [compatible])]
      exact bind_ok_iff.2 ⟨c, hc, bind_ok_iff.2 ⟨d, hd, rfl⟩⟩

theorem IsBuilt.beq_comm (ha : a.IsBuilt) (hb : b.IsBuilt) : (a == b) = (b == a) :=
  Bool.eq_iff_iff.2 ⟨ha.isDistinct.beq_symm, hb.isDistinct.beq_symm⟩

/-- Where there is a conversion, there is one back, which goes the same way. -/
theorem exists_converterTo_back {f : Converter} (ha : a.IsBuilt) (hb : b.IsBuilt)
    (ok : a.converterTo b = .ok f) :
    ∃ g, b.converterTo a = .ok g ∧ ((f = .identity ∧ g = .identity) ∨
      ∃ c d, a.systemConverter = .ok c ∧ b.systemConverter = .ok d ∧ f = d.inverse.compose c ∧
        g = c.inverse.compose d) := by
  rcases converterTo_eq_ok.1 ok with ⟨equal, rfl⟩ |
    ⟨differ, ⟨s, t, hs, ht, compatible⟩, c, d, hc, hd, rfl⟩
  · refine ⟨.identity, converterTo_eq_ok.2 (Or.inl ⟨?_, rfl⟩), Or.inl ⟨rfl, rfl⟩⟩
    exact ha.isDistinct.beq_symm equal
  · refine ⟨_, converterTo_eq_ok.2 (Or.inr ⟨?_, ?_, d, c, hd, hc, rfl⟩),
      Or.inr ⟨c, d, hc, hd, rfl, rfl⟩⟩
    · rw [← ha.beq_comm hb]
      exact differ
    · exact ⟨t, s, ht, hs, (ha.system hs).isDistinct.beq_symm compatible⟩

/-- A conversion is undone by that in the other direction. -/
theorem converterTo_symm {f : Converter} (ha : a.IsBuilt) (hb : b.IsBuilt)
    (pa : a.EveryConverter Converter.IsProper) (pb : b.EveryConverter Converter.IsProper)
    (ok : a.converterTo b = .ok f) :
    b.converterTo a = .ok f.inverse ∧ f.inverse.compose f = .identity ∧
      f.compose f.inverse = .identity := by
  obtain ⟨g, back, ⟨rfl, rfl⟩ | ⟨c, d, hc, hd, rfl, rfl⟩⟩ := exists_converterTo_back ha hb ok
  · exact ⟨back, rfl, rfl⟩
  · have proper := pa.systemConverter isStable_isProper hc
    have proper' := pb.systemConverter isStable_isProper hd
    have whole := isProper_compose (isProper_inverse proper') proper
    rw [← inverse_inverse_compose proper proper'] at back
    exact ⟨back, inverse_compose whole, compose_inverse whole⟩

/-- Whether or not the units are equal, a conversion is the way to the system unit and back, if there
is such a way and the converters of factors can be exchanged. -/
theorem converterTo_eq_compose {f : Converter} (ha : a.IsBuilt)
    (pa : a.EveryConverter Converter.IsProper) (ca : a.HasCommutingFactors)
    (ok : a.converterTo b = .ok f) (hc : a.systemConverter = .ok c) (hd : b.systemConverter = .ok d) :
    f = d.inverse.compose c := by
  rcases converterTo_eq_ok.1 ok with ⟨equal, rfl⟩ | ⟨-, -, c', d', hc', hd', rfl⟩
  · cases hd.symm.trans ((systemConverter_congr ha.isDistinct pa ca equal).1 hc)
    exact (inverse_compose (pa.systemConverter isStable_isProper hc)).symm
  · cases hc.symm.trans hc'
    cases hd.symm.trans hd'
    rfl

/-- Conversions can be made in two steps, if the converters of factors can be exchanged. -/
theorem converterTo_trans {e : MeasureUnit} {f g h : Converter} (ha : a.IsBuilt) (hb : b.IsBuilt)
    (pa : a.EveryConverter Converter.IsProper) (pb : b.EveryConverter Converter.IsProper)
    (pe : e.EveryConverter Converter.IsProper) (ca : a.HasCommutingFactors)
    (cb : b.HasCommutingFactors) (hf : a.converterTo b = .ok f) (hg : b.converterTo e = .ok g)
    (hh : a.converterTo e = .ok h) : g.compose f = h := by
  have composed : ∀ A B E, a.systemConverter = .ok A → b.systemConverter = .ok B →
      e.systemConverter = .ok E → g.compose f = h := by
    intro A B E hA hB hE
    have toE := isProper_inverse (pe.systemConverter isStable_isProper hE)
    rw [converterTo_eq_compose ha pa ca hf hA hB, converterTo_eq_compose hb pb cb hg hB hE,
      converterTo_eq_compose ha pa ca hh hA hE]
    exact compose_inverse_compose toE (pb.systemConverter isStable_isProper hB)
      (pa.systemConverter isStable_isProper hA)
  -- Of the three units all are equal or at most two, and then some conversion passes by each.
  rcases converterTo_eq_ok.1 hf with ⟨ab, rfl⟩ | ⟨ab, -, A, B, hA, hB, -⟩ <;>
    rcases converterTo_eq_ok.1 hg with ⟨be, rfl⟩ | ⟨be, -, B', E, hB', hE, -⟩ <;>
    rcases converterTo_eq_ok.1 hh with ⟨ae, rfl⟩ | ⟨ae, -, A', E', hA', hE', -⟩
  · rfl
  · exact absurd (beq_trans ab be) (Bool.eq_false_iff.1 ae)
  · exact absurd (beq_trans (ha.isDistinct.beq_symm ab) ae) (Bool.eq_false_iff.1 be)
  · exact composed _ _ _ hA' hB' hE
  · exact absurd (beq_trans ae (hb.isDistinct.beq_symm be)) (Bool.eq_false_iff.1 ab)
  · exact composed _ _ _ hA hB hE'
  · exact composed _ _ _ hA hB hE
  · exact composed _ _ _ hA hB hE

/-- Equal units convert alike, if the converters of factors can be exchanged. Whether a product has a
system unit at all may depend on the order of its factors, because sums of powers are kept in range
one by one. -/
theorem converterTo_congr {s s' : MeasureUnit} {f : Converter} (ha : a.IsBuilt) (hb : b.IsBuilt)
    (pa : a.EveryConverter Converter.IsProper) (pb : b.EveryConverter Converter.IsProper)
    (ca : a.HasCommutingFactors) (same : (a == b) = true) (hs : a.systemUnit = .ok s)
    (hs' : b.systemUnit = .ok s') : a.converterTo v = .ok f ↔ b.converterTo v = .ok f := by
  have equal : (a == v) = (b == v) := Bool.eq_iff_iff.2
    ⟨beq_trans (ha.isDistinct.beq_symm same), beq_trans same⟩
  have system : (s == s') = true :=
    systemUnit_congr (ha.isDefinite (pa.beq_self fun _ => beq_self_of_isProper))
      (hb.isDefinite (pb.beq_self fun _ => beq_self_of_isProper)) same hs hs'
  have systems : ∀ t, (s == t) = (s' == t) := fun t => Bool.eq_iff_iff.2
    ⟨beq_trans ((ha.system hs).isDistinct.beq_symm system), beq_trans system⟩
  rw [converterTo_eq_ok, converterTo_eq_ok, equal, hs, hs']
  refine or_congr_right (and_congr_right fun _ => and_congr ?_ ?_)
  · simp [systems]
  · exact exists_congr fun c => exists_congr fun d =>
      and_congr_left' (systemConverter_congr ha.isDistinct pa ca same)

/-- Conversions between units are coherent: the ones in both directions undo each other, and, between
products of scaled factors, two after another are the one from the first unit to the last. -/
theorem conversions_coherent {a b c : MeasureUnit} (ha : a.IsBuilt) (hb : b.IsBuilt)
    (pa : a.EveryConverter Converter.IsProper) (pb : b.EveryConverter Converter.IsProper)
    (pc : c.EveryConverter Converter.IsProper) :
    (∀ f, a.converterTo b = .ok f → ∃ g, b.converterTo a = .ok g ∧ g = f.inverse ∧
      g.compose f = .identity ∧ f.compose g = .identity) ∧
    (a.HasScaledFactors → b.HasScaledFactors → ∀ f g h,
      a.converterTo b = .ok f → b.converterTo c = .ok g → a.converterTo c = .ok h →
      g.compose f = h) := by
  constructor
  · intro f ok
    obtain ⟨back, left, right⟩ := converterTo_symm ha hb pa pb ok
    exact ⟨f.inverse, back, rfl, left, right⟩
  · intro sa sb f g h hf hg hh
    exact converterTo_trans ha hb pa pb pc (sa.commuting pa) (sb.commuting pb) hf hg hh

/-- Kilometres per minute, metres per second and metres per minute are converted into one another. -/
theorem conversions_coherent_speed :
    let a := product [⟨kilometre, Power.one⟩, ⟨minute, Power.negOne⟩]
    let b := product [⟨base "m", Power.one⟩, ⟨base "s", Power.negOne⟩]
    let c := product [⟨base "m", Power.one⟩, ⟨minute, Power.negOne⟩]
    (a.IsBuilt ∧ b.IsBuilt ∧ a.EveryConverter Converter.IsProper ∧
      b.EveryConverter Converter.IsProper ∧ c.EveryConverter Converter.IsProper ∧
      a.HasScaledFactors ∧ b.HasScaledFactors) ∧
    ∃ f g h k, a.converterTo b = .ok f ∧ b.converterTo c = .ok g ∧ a.converterTo c = .ok h ∧
      g.compose f = h ∧ b.converterTo a = .ok k ∧ k = f.inverse ∧ k.compose f = .identity := by
  intro a b c
  have ha : a.IsBuilt := .div isBuilt_kilometre isBuilt_minute rfl
  have hb : b.IsBuilt := .div (.base "m") (.base "s") rfl
  have metre : EveryConverter Converter.IsProper (base "m") := .base "m"
  have second : EveryConverter Converter.IsProper (base "s") := .base "s"
  have pk : kilometre.EveryConverter Converter.IsProper := everyConverter_kilometre (by decide)
  have pm : minute.EveryConverter Converter.IsProper := everyConverter_minute (by decide)
  have pa : a.EveryConverter Converter.IsProper := .product (by simp [pk, pm])
  have pb : b.EveryConverter Converter.IsProper := .product (by simp [metre, second])
  have pc : c.EveryConverter Converter.IsProper := .product (by simp [metre, pm])
  have sk : kilometre.HasScaledFactors := .transformed _ none (.base "m")
  have sm : minute.HasScaledFactors := .transformed _ none (.base "s")
  have sa : a.HasScaledFactors := .product (by simp [sk, sm])
    (by simp [systemConverter_kilometre, systemConverter_minute, thousandfold, sixtyfold])
  have sb : b.HasScaledFactors := .product (by simp [HasScaledFactors.base]) (by simp [systemConverter])
  obtain ⟨back, two⟩ := conversions_coherent ha hb pa pb pc
  obtain ⟨k, ok, inverse, undone, -⟩ := back _ rfl
  exact ⟨⟨ha, hb, pa, pb, pc, sa, sb⟩, _, _, _, k, rfl, rfl, rfl, two sa sb _ _ _ rfl rfl rfl, ok,
    inverse, undone⟩

end Metrology.MeasureUnit
