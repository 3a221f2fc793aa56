import Metrology.Proofs.MeasureUnit.GroupLaw

/-!
# Powers and roots

A power multiplies the powers of the factors, and a root divides them: both relate two lists of
factors with the same units, one of which has the powers of the other times an integer. So either
undoes the other, down to the order of the factors. That all these powers are in range needs the
exponent to be other than the least one, which has no opposite.
-/
namespace Metrology.MeasureUnit

variable {u v w p : MeasureUnit} {f g : Factor MeasureUnit} {fs gs hs : List (Factor MeasureUnit)}
  {n : Power} {x y : ℤ}

/-! ### Multiples of a list of factors -/

/-- A power is divided if it comes out even. -/
theorem lower_eq_some_iff (nonzero : n.val ≠ 0) :
    lower n f = some g ↔ f.unit = g.unit ∧ f.power.val = g.power.val * n.val := by
  obtain ⟨unit, power⟩ := g
  rw [lower]
  constructor
  · intro lowered
    split at lowered
    · rename_i even
      obtain ⟨m, quotient, eq⟩ := Option.map_eq_some_iff.1 lowered
      cases eq
      refine ⟨rfl, ?_⟩
      rw [Power.ofInt?_eq_some_iff.1 quotient]
      exact (Int.tdiv_mul_cancel (Int.dvd_of_tmod_eq_zero even)).symm
    · cases lowered
  · rintro ⟨rfl, product⟩
    have quotient : Power.ofInt? (f.power.val.tdiv n.val) = some power := by
      rw [Power.ofInt?_eq_some_iff, product, Int.mul_tdiv_cancel _ nonzero]
    rw [product, if_pos (Int.mul_tmod_left _ _), ← product, quotient]
    rfl

theorem mapM_lower_eq_some_iff (nonzero : n.val ≠ 0) :
    fs.mapM (lower n) = some gs ↔ IsMultiple n.val gs fs := by
  simp only [mapM_eq_some_iff, lower_eq_some_iff nonzero]
  exact ⟨fun h => (h.imp fun _ _ h => ⟨h.1.symm, h.2⟩).flip,
    fun h => (h.imp fun _ _ h => ⟨h.1.symm, h.2⟩).flip⟩

namespace IsMultiple

theorem apart_iff (h : IsMultiple x fs gs) : Apart fs ↔ Apart gs := by
  rw [apart_iff_units, apart_iff_units, h.units]

theorem areFactors_iff (h : IsMultiple x fs gs) (nonzero : x ≠ 0) :
    AreFactors fs ↔ AreFactors gs := by
  induction h with
  | nil => exact Iff.rfl
  | cons head _ ih =>
    simp only [AreFactors, List.forall_mem_cons] at ih ⊢
    rw [ih, head.1, head.2]
    simp only [ne_eq, mul_eq_zero, nonzero, or_false]

theorem trans (h : IsMultiple x fs gs) (h' : IsMultiple y gs hs) : IsMultiple (x * y) fs hs := by
  induction h generalizing hs with
  | nil =>
    cases h'
    exact .nil
  | cons head _ ih =>
    cases h' with
    | cons head' tail' =>
      refine .cons ⟨head.1.trans head'.1, ?_⟩ (ih tail')
      rw [head'.2, head.2, mul_assoc]

/-- The larger of two multiples of a list is one of the smaller. -/
theorem of_common (h : IsMultiple x fs gs) (h' : IsMultiple (x * y) fs hs) : IsMultiple y gs hs := by
  induction h generalizing hs with
  | nil =>
    cases h'
    exact .nil
  | cons head _ ih =>
    cases h' with
    | cons head' tail' =>
      refine .cons ⟨head.1.symm.trans head'.1, ?_⟩ (ih tail')
      rw [head'.2, head.2, mul_assoc]

theorem one_iff : IsMultiple 1 fs gs ↔ fs = gs := by
  constructor
  · intro h
    induction h with
    | nil => rfl
    | @cons f g _ _ head _ ih =>
      obtain ⟨unit, power⟩ := f
      obtain ⟨unit', power'⟩ := g
      obtain ⟨rfl, same⟩ := head
      cases Power.ext (same.trans (mul_one _))
      rw [ih]
  · rintro rfl
    exact List.forall₂_same.2 fun f _ => ⟨rfl, (mul_one _).symm⟩

/-- A list is the opposite of another if it has no power that is the least one. -/
theorem exists_opposite (above : ∀ g ∈ gs, g.power.val ≠ -2147483648) :
    ∃ fs, IsMultiple (-1) fs gs := by
  induction gs with
  | nil => exact ⟨[], .nil⟩
  | cons g gs ih =>
    obtain ⟨fs, tail⟩ := ih fun k hk => above k (List.mem_cons_of_mem _ hk)
    have inside := above g List.mem_cons_self
    have lower := g.power.lower
    have upper := g.power.upper
    exact ⟨⟨g.unit, ⟨-g.power.val, by omega, by omega⟩⟩ :: fs, .cons ⟨rfl, by simp⟩ tail⟩

/-- Only powers other than the least one have a negative multiple. -/
theorem above_of_neg (h : IsMultiple x fs gs) (negative : x < 0) :
    ∀ f ∈ fs, f.power.val ≠ -2147483648 := by
  induction h with
  | nil => simp
  | @cons f g _ _ head _ ih =>
    refine List.forall_mem_cons.2 ⟨fun least => ?_, ih⟩
    have upper := g.power.upper
    rw [head.2, least] at upper
    omega

end IsMultiple

/-! ### Powers and roots of products -/

namespace IsProductOf

variable (hu : u.IsProductOf IsFactor)
include hu

theorem apart : Apart u.factors := (hu.factors fun _ h => h).2.1

theorem areFactors : AreFactors u.factors := (hu.factors fun _ h => h).2.2

end IsProductOf

/-- Lists of different factors and their products settle each other. -/
theorem exists_ofProduct_eq_ok_iff {R : List (Factor MeasureUnit) → Prop}
    (different : ∀ gs, R gs → Apart gs ∧ AreFactors gs) :
    (∃ gs, R gs ∧ ofProduct gs = .ok p) ↔ p.IsProductOf IsFactor ∧ R p.factors := by
  constructor
  · rintro ⟨gs, holds, ok⟩
    obtain ⟨apart, factors⟩ := different gs holds
    rw [ofProduct_of_apart apart] at ok
    cases ok
    rw [factors_ofFactors factors apart]
    exact ⟨⟨gs, rfl, apart, factors⟩, holds⟩
  · rintro ⟨hp, holds⟩
    exact ⟨p.factors, holds, hp.ofProduct_factors fun _ h => h⟩

/-- Powers are the products with multiples of the factors. -/
theorem IsProductOf.pow_eq_ok_iff (hu : u.IsProductOf IsFactor) (nonzero : n.val ≠ 0) :
    u.pow n = .ok p ↔ p.IsProductOf IsFactor ∧ IsMultiple n.val u.factors p.factors := by
  rw [hu.pow_eq fun _ h => h, bind_ok_iff]
  simp only [mapM_raise_eq_ok_iff]
  exact exists_ofProduct_eq_ok_iff fun gs multiple =>
    ⟨multiple.apart_iff.1 hu.apart, (multiple.areFactors_iff nonzero).1 hu.areFactors⟩

/-- A unit alone has no root. -/
theorem lower_single (several : 1 < n.val) : lower n ⟨u, Power.one⟩ = none := by
  have rest : Int.tmod 1 n.val = 1 := Int.tmod_eq_of_lt Int.one_nonneg several
  rw [lower, if_neg]
  change ¬Int.tmod 1 n.val = 0
  rw [rest]
  exact Int.one_ne_zero

/-- A root divides the powers of the factors. -/
theorem IsProductOf.positiveRoot?_eq (hu : u.IsProductOf IsFactor) (positive : 0 < n.val) :
    u.positiveRoot? n = u.factors.mapM (lower n) >>= fun gs => (ofProduct gs).toOption := by
  by_cases first : n.val = 1
  · have whole : u.factors.mapM (lower n) = some u.factors := by
      rw [mapM_lower_eq_some_iff (Int.ne_of_gt positive), first]
      exact IsMultiple.one_iff.2 rfl
    rw [whole, Option.bind_eq_bind, Option.bind_some, hu.ofProduct_factors fun _ h => h]
    exact if_pos first
  · have single (w : MeasureUnit) :
        ([⟨w, Power.one⟩].mapM (lower n) >>= fun gs => (ofProduct gs).toOption) = none := by
      rw [List.mapM_cons, lower_single (by omega)]
      rfl
    refine (if_neg first).trans ?_
    cases u with
    | product fs => cases fs <;> rfl
    | _ => exact (single _).symm

/-- Roots are the products whose factors have multiples in the radicand. -/
theorem IsProductOf.positiveRoot?_eq_some_iff (hu : u.IsProductOf IsFactor) (positive : 0 < n.val) :
    u.positiveRoot? n = some v ↔ v.IsProductOf IsFactor ∧ IsMultiple n.val v.factors u.factors := by
  have nonzero : n.val ≠ 0 := Int.ne_of_gt positive
  rw [hu.positiveRoot?_eq positive, Option.bind_eq_bind, Option.bind_eq_some_iff]
  simp only [mapM_lower_eq_some_iff nonzero, toOption_eq_some_iff]
  exact exists_ofProduct_eq_ok_iff fun gs multiple =>
    ⟨multiple.apart_iff.2 hu.apart, (multiple.areFactors_iff nonzero).2 hu.areFactors⟩

theorem IsProductOf.reciprocal_eq_ok_iff (hu : u.IsProductOf IsFactor) :
    u.reciprocal = .ok v ↔ v.IsProductOf IsFactor ∧ IsMultiple (-1) u.factors v.factors :=
  hu.pow_eq_ok_iff (by decide)

/-- Roots of negative degrees, too. -/
theorem IsProductOf.root?_eq_some_iff (hu : u.IsProductOf IsFactor) (nonzero : n.val ≠ 0)
    (least : n.val ≠ -2147483648) :
    u.root? n = some v ↔ v.IsProductOf IsFactor ∧ IsMultiple n.val v.factors u.factors := by
  rw [root?, if_neg nonzero]
  split
  · rename_i positive
    exact hu.positiveRoot?_eq_some_iff positive
  · have lower := n.lower
    have upper := n.upper
    let m : Power := ⟨-n.val, by omega, by omega⟩
    have degree : m.val = -1 * n.val := (neg_one_mul _).symm
    have negated : n.neg? = some m := Power.ofInt?_eq_some_iff.2 rfl
    rw [negated, Option.bind_eq_bind, Option.bind_some, Option.bind_eq_bind, Option.bind_eq_some_iff]
    simp only [toOption_eq_some_iff]
    constructor
    · rintro ⟨w, root, inverse⟩
      obtain ⟨hw, multiple⟩ := (hu.positiveRoot?_eq_some_iff (by omega)).1 root
      obtain ⟨hv, opposite⟩ := hw.reciprocal_eq_ok_iff.1 inverse
      rw [degree] at multiple
      exact ⟨hv, opposite.of_common multiple⟩
    · rintro ⟨hv, multiple⟩
      obtain ⟨fs, opposite⟩ := IsMultiple.exists_opposite (multiple.above_of_neg (by omega))
      have apart := opposite.apart_iff.2 hv.apart
      have factors := (opposite.areFactors_iff (by decide)).2 hv.areFactors
      have hw : (ofFactors fs).IsProductOf IsFactor := ⟨fs, rfl, apart, factors⟩
      refine ⟨ofFactors fs, (hu.positiveRoot?_eq_some_iff (by omega)).2 ⟨hw, ?_⟩,
        hw.reciprocal_eq_ok_iff.2 ⟨hv, ?_⟩⟩
      · rw [factors_ofFactors factors apart, degree]
        exact opposite.trans multiple
      · rwa [factors_ofFactors factors apart]

/-! ### Powers and roots undo each other -/

/-- A root is what has the radicand as its power. -/
theorem IsProductOf.root?_iff_pow (hu : u.IsProductOf IsFactor) (nonzero : n.val ≠ 0)
    (least : n.val ≠ -2147483648) :
    u.root? n = some v ↔ v.IsProductOf IsFactor ∧ v.pow n = .ok u := by
  rw [hu.root?_eq_some_iff nonzero least]
  refine and_congr_right fun hv => ?_
  rw [hv.pow_eq_ok_iff nonzero]
  exact (and_iff_right hu).symm

/-- The root of a power is the unit itself, and so is the power of a root. -/
theorem pow_root_inverse (hu : u.IsElement) (nonzero : n.val ≠ 0) (least : n.val ≠ -2147483648) :
    (∀ p, u.pow n = .ok p → ∃ v, p.root? n = some v ∧ (v == u) = true) ∧
    (∀ v, u.root? n = some v → ∃ p, v.pow n = .ok p ∧ (p == u) = true) := by
  have self : (u == u) = true := hu.numeric.beq_self
  have product : u.IsProductOf IsFactor := by
    obtain ⟨fs, eq, apart, kind⟩ := hu.hasExponents.1
    exact ⟨fs, eq, apart, fun f hf => ⟨(kind f hf).1.isFactor, (kind f hf).2⟩⟩
  constructor
  · intro p ok
    have hp := ((product.pow_eq_ok_iff nonzero).1 ok).1
    exact ⟨u, (hp.root?_iff_pow nonzero least).2 ⟨product, ok⟩, self⟩
  · intro v root
    exact ⟨u, ((product.root?_iff_pow nonzero least).1 root).2, self⟩

/-- An area over a power of seconds: its power is undone by a root of a negative degree. -/
theorem pow_root_inverse_area :
    let two : Power := ⟨2, by decide, by decide⟩
    let u := product [⟨kilometre, two⟩, ⟨base "s", ⟨-4, by decide, by decide⟩⟩]
    let n : Power := ⟨-2, by decide, by decide⟩
    u.IsElement ∧ n.val ≠ 0 ∧ n.val ≠ -2147483648 ∧
    (∃ p v, u.pow n = .ok p ∧ p.root? n = some v ∧ (v == u) = true) ∧
    (∃ v p, u.root? n = some v ∧ v.pow n = .ok p ∧ (p == u) = true) := by
  intro two u n
  have numeric : kilometre.IsNumeric := everyConverter_kilometre rfl
  have hu : u.IsElement := by
    refine ⟨.pow two (.div isBuilt_kilometre (.pow two (.base "s") rfl) rfl) rfl, .product ?_, rfl, ?_⟩
    · simpa using ⟨numeric, .base "s"⟩
    · intro fs eq
      rw [← product.inj eq]
      decide +kernel
  obtain ⟨ofPower, ofRoot⟩ := pow_root_inverse hu (n := n) (by decide) (by decide)
  obtain ⟨v, root, same⟩ := ofPower _ rfl
  obtain ⟨p, power, same'⟩ := ofRoot _ rfl
  exact ⟨hu, by decide, by decide, ⟨_, v, rfl, root, same⟩, ⟨_, p, rfl, power, same'⟩⟩

end Metrology.MeasureUnit
