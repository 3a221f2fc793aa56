import Metrology.Proofs.MeasureUnit.GroupLaw

/-!
# Products as sums of powers

What a product comes to can be said without the way in which its factors are joined: each unit that
occurs gets the sum of its powers, units come in the order in which they occur first, and those with
sum zero are left out. It has no such value if a sum leaves the range of powers on the way through the
list. Here units may be numbers or products, and powers may be zero.
-/
namespace Metrology

open List in
/-- What comes last is one of the different elements unless it equals one before. -/
theorem eraseDups_concat {α : Type} [BEq α] (l : List α) (a : α) :
    (l ++ [a]).eraseDups =
      if l.eraseDups.any (a == ·) then l.eraseDups else l.eraseDups ++ [a] := by
  have loop (kept : List α) : eraseDupsBy.loop (· == ·) (l ++ [a]) kept =
      if (eraseDupsBy.loop (· == ·) l kept).any (a == ·) then eraseDupsBy.loop (· == ·) l kept
      else eraseDupsBy.loop (· == ·) l kept ++ [a] := by
    induction l generalizing kept with
    | nil =>
      simp only [nil_append, eraseDupsBy.loop, any_reverse]
      cases kept.any (a == ·) <;> simp
    | cons b l ih =>
      simp only [cons_append, eraseDupsBy.loop]
      by_cases seen : kept.any (b == ·) = true
      · simp only [seen]
        exact ih kept
      · simp only [Bool.not_eq_true] at seen
        simp only [seen]
        exact ih (b :: kept)
  exact loop []

namespace MeasureUnit

variable {t u v : MeasureUnit} {f : Factor MeasureUnit} {fs gs ks : List (Factor MeasureUnit)}

/-! ### Sums of powers -/

/-- The sum of the powers of the factors equal to `t`. -/
def powerSum (t : MeasureUnit) (fs : List (Factor MeasureUnit)) : ℤ :=
  ((fs.filter fun f => t == f.unit).map (·.power.val)).sum

/-- The units of a list of factors in the order in which they occur first, with the sums of their
powers. Sums that are zero are left out. -/
def sums (fs : List (Factor MeasureUnit)) : List (MeasureUnit × ℤ) :=
  ((fs.map (·.unit)).eraseDups.map fun u => (u, powerSum u fs)).filter (·.2 != 0)

/-- Whether the sum of the powers of some unit is out of range after a part of the list. -/
def Overflows (fs : List (Factor MeasureUnit)) : Prop :=
  ∃ front, front <+: fs ∧ ∃ f ∈ front, ¬IsPower (powerSum f.unit front)

/-- Whether a unit is the product of powers of units. That of a unit to the first power is the unit
itself, and that of none is the dimensionless unit. -/
inductive IsProductOfPowers : List (MeasureUnit × ℤ) → MeasureUnit → Prop where
  | neutral : IsProductOfPowers [] one
  | single (u : MeasureUnit) : IsProductOfPowers [(u, 1)] u
  | several {fs : List (Factor MeasureUnit)} (some : fs ≠ [])
      (powers : fs.map (·.power) ≠ [Power.one]) :
      IsProductOfPowers (fs.map fun f => (f.unit, f.power.val)) (product fs)

theorem exponent_eq_powerSum : exponent t fs = powerSum t fs := by
  induction fs with
  | nil => rfl
  | cons f fs ih =>
    rw [exponent_cons, ih, powerSum, powerSum, List.filter_cons]
    split
    · rw [List.map_cons, List.sum_cons]
    · exact zero_add _

/-! ### Joining factors -/

/-- Joining keeps the units as they are, and lets a new one come last. -/
theorem map_unit_insertFactor (distinct : ∀ g ∈ fs, g.unit.IsDistinct) (last : f.unit.IsDistinct)
    (ok : insertFactor fs f = .ok gs) :
    gs.map (·.unit) = if (fs.map (·.unit)).any (f.unit == ·) then fs.map (·.unit)
      else fs.map (·.unit) ++ [f.unit] := by
  have seen_iff : (fs.map (·.unit)).any (f.unit == ·) = true ↔
      ∃ g ∈ fs, (g.unit == f.unit) = true := by
    rw [List.any_map, List.any_eq_true]
    exact exists_congr fun g => and_congr_right fun hg => ⟨last.beq_symm, (distinct g hg).beq_symm⟩
  split
  · rename_i seen
    obtain ⟨g, hg, same⟩ := seen_iff.1 seen
    rcases units_of_insertFactor ok with units | ⟨-, differ⟩
    · exact units
    · exact absurd same (by simp [differ g hg])
  · rename_i new
    have differ : ∀ g ∈ fs, (g.unit == f.unit) = false := fun g hg =>
      Bool.eq_false_iff.2 fun same => new (seen_iff.2 ⟨g, hg, same⟩)
    cases (insertFactor_of_apart differ).symm.trans ok
    rw [List.map_append, List.map_singleton]

section Join

variable (kind : ∀ f ∈ fs, f.unit.IsDistinct ∧ (f.unit == f.unit) = true)
include kind

theorem kind_foldlM (ok : fs.foldlM insertFactor [] = .ok ks) :
    ∀ k ∈ ks, k.unit.IsDistinct ∧ (k.unit == k.unit) = true := by
  intro k hk
  obtain ⟨f, hf, same⟩ : ∃ f ∈ fs, f.unit = k.unit := by
    simpa using (foldlM_insertFactor_ok List.Pairwise.nil ok).2 k hk
  exact same ▸ kind f hf

/-- The units that are left are the different ones. -/
theorem map_unit_foldlM (ok : fs.foldlM insertFactor [] = .ok ks) :
    ks.map (·.unit) = (fs.map (·.unit)).eraseDups := by
  induction fs using List.reverseRecOn generalizing ks with
  | nil =>
    cases ok
    rfl
  | append_singleton fs f ih =>
    rw [List.foldlM_append] at ok
    obtain ⟨ls, front, ok⟩ := bind_ok_iff.1 ok
    rw [List.foldlM_cons] at ok
    obtain ⟨ls', inserted, ok⟩ := bind_ok_iff.1 ok
    cases ok
    have kind' : ∀ g ∈ fs, g.unit.IsDistinct ∧ (g.unit == g.unit) = true := fun g hg =>
      kind g (by simp [hg])
    have distinct : ∀ l ∈ ls, l.unit.IsDistinct := fun l hl => (kind_foldlM kind' front l hl).1
    rw [map_unit_insertFactor distinct (kind f (by simp)).1 inserted, List.map_append,
      List.map_singleton, eraseDups_concat, ih kind' front]

/-- Joining keeps the sums of powers. -/
theorem powerSum_foldlM (ok : fs.foldlM insertFactor [] = .ok ks) : powerSum t ks = powerSum t fs := by
  rw [← exponent_eq_powerSum, ← exponent_eq_powerSum, exponent, exponent,
    productValue_foldlM (isShared_indicator t) (by simpa using fun f hf => (kind f hf).1) ok]
  rfl

/-- The powers that are left are the sums. -/
theorem sums_of_foldlM (ok : fs.foldlM insertFactor [] = .ok ks) :
    (ks.filter fun k => k.power.val != 0).map (fun k => (k.unit, k.power.val)) = sums fs := by
  have apart := (foldlM_insertFactor_ok List.Pairwise.nil ok).1
  have powers : ks.map (fun k => (k.unit, k.power.val)) =
      ks.map fun k => (k.unit, powerSum k.unit fs) := by
    refine List.map_congr_left fun k hk => ?_
    obtain ⟨distinct, self⟩ := kind_foldlM kind ok k hk
    rw [← powerSum_foldlM kind ok, ← exponent_eq_powerSum, exponent_of_mem apart distinct hk self]
  have pairs : ks.map (fun k => (k.unit, k.power.val)) =
      (fs.map (·.unit)).eraseDups.map fun u => (u, powerSum u fs) := by
    rw [powers, ← map_unit_foldlM kind ok, List.map_map]
    rfl
  rw [sums, ← pairs, List.filter_map]
  rfl

end Join

/-! ### When factors overflow -/

theorem powerSum_concat (fs : List (Factor MeasureUnit)) (f : Factor MeasureUnit) :
    powerSum t (fs ++ [f]) = powerSum t fs + if (t == f.unit) = true then f.power.val else 0 := by
  simp only [← exponent_eq_powerSum, exponent_append, exponent_cons, exponent_nil, add_zero]

theorem powerSum_congr (distinct : u.IsDistinct) (same : (u == v) = true) :
    powerSum u fs = powerSum v fs := by
  have iff (f : Factor MeasureUnit) : (u == f.unit) = (v == f.unit) :=
    Bool.eq_iff_iff.2 ⟨beq_trans (distinct.beq_symm same), beq_trans same⟩
  simp only [powerSum, iff]

/-- One more factor can only take the sum of its own unit out of range. -/
theorem overflows_concat (kind : ∀ g ∈ fs ++ [f], g.unit.IsDistinct ∧ (g.unit == g.unit) = true) :
    Overflows (fs ++ [f]) ↔ Overflows fs ∨ ¬IsPower (powerSum f.unit (fs ++ [f])) := by
  constructor
  · rintro ⟨front, before, g, hg, out⟩
    rcases List.prefix_concat_iff.1 before with rfl | before
    · by_cases same : (g.unit == f.unit) = true
      · rw [powerSum_congr (kind g hg).1 same] at out
        exact Or.inr out
      · rw [powerSum_concat, if_neg same, add_zero] at out
        rcases List.mem_append.1 hg with hg | hg
        · exact Or.inl ⟨fs, List.prefix_rfl, g, hg, out⟩
        · exact absurd (kind g (List.mem_append_right _ hg)).2 (List.mem_singleton.1 hg ▸ same)
    · exact Or.inl ⟨front, before, g, hg, out⟩
  · rintro (⟨front, before, g, hg, out⟩ | out)
    · exact ⟨front, before.trans (List.prefix_append fs [f]), g, hg, out⟩
    · exact ⟨fs ++ [f], List.prefix_rfl, f, by simp, out⟩

/-- Factors can be joined unless the sum of powers of some unit overflows on the way. -/
theorem exists_foldlM_iff (kind : ∀ f ∈ fs, f.unit.IsDistinct ∧ (f.unit == f.unit) = true) :
    (∃ ks, fs.foldlM insertFactor [] = .ok ks) ↔ ¬Overflows fs := by
  induction fs using List.reverseRecOn with
  | nil =>
    refine iff_of_true ⟨[], rfl⟩ ?_
    rintro ⟨front, before, f, hf, -⟩
    rw [List.prefix_nil.1 before] at hf
    cases hf
  | append_singleton fs f ih =>
    have front : ∀ g ∈ fs, g.unit.IsDistinct ∧ (g.unit == g.unit) = true := fun g hg =>
      kind g (by simp [hg])
    obtain ⟨last, self⟩ := kind f (by simp)
    have step (ls : List (Factor MeasureUnit)) (joined : fs.foldlM insertFactor [] = .ok ls) :
        (∃ ks, insertFactor ls f = .ok ks) ↔ IsPower (powerSum f.unit (fs ++ [f])) := by
      rw [exists_insertFactor_iff (foldlM_insertFactor_ok List.Pairwise.nil joined).1
        (fun l hl => (kind_foldlM front joined l hl).1) last, exponent_eq_powerSum,
        powerSum_foldlM front joined, powerSum_concat, if_pos self]
    rw [overflows_concat kind, not_or, not_not, ← ih front]
    simp only [List.foldlM_append, List.foldlM_cons, List.foldlM_nil, bind_pure, bind_ok_iff]
    constructor
    · rintro ⟨ks, ls, joined, inserted⟩
      exact ⟨⟨ls, joined⟩, (step ls joined).1 ⟨ks, inserted⟩⟩
    · rintro ⟨⟨ls, joined⟩, inside⟩
      obtain ⟨ks, inserted⟩ := (step ls joined).2 inside
      exact ⟨ks, ls, joined, inserted⟩

/-! ### What a product comes to -/

theorem isProductOfPowers_ofFactors (powers : ∀ f ∈ fs, f.power.val ≠ 0) :
    IsProductOfPowers (fs.map fun f => (f.unit, f.power.val)) (ofFactors fs) := by
  by_cases single : fs.map (·.power) = [Power.one]
  · obtain ⟨⟨u, n⟩, rfl, rfl⟩ := List.map_eq_singleton_iff.1 single
    exact .single u
  · rw [ofFactors_eq_product powers single]
    cases fs with
    | nil => exact .neutral
    | cons f fs => exact .several (List.cons_ne_nil f fs) single

/-- Products of the same factors in different orders are equal. -/
theorem ofProduct_perm (kind : ∀ f ∈ fs, f.unit.IsDistinct ∧ (f.unit == f.unit) = true)
    (perm : fs.Perm gs) (left : ofProduct fs = .ok u) (right : ofProduct gs = .ok v) :
    (u == v) = true := by
  have kind' : ∀ g ∈ gs, g.unit.IsDistinct ∧ (g.unit == g.unit) = true := fun g hg =>
    kind g (perm.mem_iff.2 hg)
  obtain ⟨ks, rfl, apart, members, exponents⟩ :=
    exists_exponent_of_ofProduct (fun f hf => (kind f hf).1) left
  obtain ⟨ls, rfl, apart', members', exponents'⟩ :=
    exists_exponent_of_ofProduct (fun g hg => (kind' g hg).1) right
  refine ofFactors_beq_of_exponent apart apart' (fun k hk => ?_) (fun l hl => ?_) fun t => ?_
  · obtain ⟨⟨f, hf, same⟩, power⟩ := members k hk
    exact ⟨same ▸ (kind f hf).1, same ▸ (kind f hf).2, power⟩
  · obtain ⟨⟨g, hg, same⟩, power⟩ := members' l hl
    exact ⟨same ▸ (kind' g hg).1, same ▸ (kind' g hg).2, power⟩
  · rw [exponents, exponents', exponent, exponent, productValue_perm perm]

/-- A product is that of its units with the sums of their powers, unless a sum overflows on the way
through the list, and the order of the factors does not matter. -/
theorem ofProduct_sums (units : ∀ f ∈ fs, f.unit.IsBuilt ∧ f.unit.IsNumeric) :
    (ofProduct fs = .error .exponentOverflow ↔ Overflows fs) ∧
    (¬Overflows fs → ∃ w, ofProduct fs = .ok w ∧ IsProductOfPowers (sums fs) w) ∧
    ∀ gs u v, fs.Perm gs → ofProduct fs = .ok u → ofProduct gs = .ok v → (u == v) = true := by
  have kind : ∀ f ∈ fs, f.unit.IsDistinct ∧ (f.unit == f.unit) = true := fun f hf =>
    ⟨(units f hf).1.isDistinct, (units f hf).2.beq_self⟩
  have exists_iff : (∃ w, ofProduct fs = .ok w) ↔ ¬Overflows fs :=
    exists_ofProduct_iff.trans (exists_foldlM_iff kind)
  refine ⟨?_, fun inside => ?_, fun gs u v => ofProduct_perm kind⟩
  · constructor
    · intro failed
      by_contra inside
      obtain ⟨w, ok⟩ := exists_iff.2 inside
      cases failed.symm.trans ok
    · intro overflows
      cases product : ofProduct fs with
      | ok w => exact absurd overflows (exists_iff.1 ⟨w, product⟩)
      | error cause => rw [onlyOverflows_ofProduct fs cause product]
  · obtain ⟨ks, joined⟩ := (exists_foldlM_iff kind).2 inside
    refine ⟨ofFactors ks, bind_ok_iff.2 ⟨ks, joined, rfl⟩, ?_⟩
    rw [← ofFactors_filter, ← sums_of_foldlM kind joined]
    exact isProductOfPowers_ofFactors fun k hk => by simpa using (List.mem_filter.1 hk).2

/-- Kilometres cancel and leave the second alone, in either order. A sum that overflows on the way
fails, although the whole sum is in range. -/
theorem ofProduct_sums_seconds :
    let two : Power := ⟨2, by decide, by decide⟩
    let negTwo : Power := ⟨-2, by decide, by decide⟩
    let three : Power := ⟨3, by decide, by decide⟩
    let most : Power := ⟨2147483647, by decide, by decide⟩
    let fs : List (Factor MeasureUnit) :=
      [⟨kilometre, two⟩, ⟨base "s", three⟩, ⟨kilometre, negTwo⟩, ⟨base "s", negTwo⟩]
    let gs : List (Factor MeasureUnit) :=
      [⟨base "s", most⟩, ⟨kilometre, two⟩, ⟨base "s", two⟩, ⟨base "s", negTwo⟩]
    (∀ f ∈ fs ++ gs, f.unit.IsBuilt ∧ f.unit.IsNumeric) ∧
    (sums fs = [(base "s", 1)] ∧ ∃ w, ofProduct fs = .ok w ∧ IsProductOfPowers (sums fs) w) ∧
    (∃ u v, ofProduct fs = .ok u ∧ ofProduct fs.reverse = .ok v ∧ (u == v) = true) ∧
    ofProduct gs = .error .exponentOverflow ∧ IsPower (powerSum (base "s") gs) := by
  intro two negTwo three most fs gs
  have second : (base "s").IsBuilt ∧ (base "s").IsNumeric := ⟨.base "s", .base "s"⟩
  have thousand : kilometre.IsBuilt ∧ kilometre.IsNumeric :=
    ⟨isBuilt_kilometre, everyConverter_kilometre rfl⟩
  have units : ∀ f ∈ fs ++ gs, f.unit.IsBuilt ∧ f.unit.IsNumeric := by
    simp only [fs, gs, List.cons_append, List.nil_append, List.forall_mem_cons]
    simp [thousand, second]
  obtain ⟨failed, value, order⟩ := ofProduct_sums fun f hf => units f (List.mem_append_left gs hf)
  have inside : ¬Overflows fs := fun overflows => nomatch failed.2 overflows
  have overflows : Overflows gs := by
    refine ⟨gs.take 3, List.take_prefix 3 gs, ⟨base "s", two⟩, by simp [gs], ?_⟩
    rintro ⟨n, sum⟩
    have upper := n.upper
    rw [sum] at upper
    exact absurd upper (by decide)
  exact ⟨units, ⟨rfl, value inside⟩, ⟨_, _, rfl, rfl, order _ _ _ fs.reverse_perm.symm rfl rfl⟩,
    (ofProduct_sums fun f hf => units f (List.mem_append_right fs hf)).1.2 overflows,
    ⟨most, rfl⟩⟩

end MeasureUnit

end Metrology
