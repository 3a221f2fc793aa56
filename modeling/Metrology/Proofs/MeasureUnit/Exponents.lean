import Mathlib.Algebra.Group.Action.Defs
import Mathlib.Algebra.Group.Int.Defs
import Mathlib.Algebra.Group.TypeTags.Basic
import Metrology.Proofs.MeasureUnit.Values

/-!
# Exponents

The exponent of a unit in a product is the power that the factors equal to it come to. Products of
different units that equal themselves are settled by their exponents, up to the order of factors, and
exponents are added by products and multiplied by powers. Equations between such products are
therefore equations between integers.
-/
namespace Metrology.MeasureUnit

variable {u v w t : MeasureUnit} {fs gs : List (Factor MeasureUnit)} {n : Power}

/-- The value that counts the units equal to `t`. -/
def indicator (t u : MeasureUnit) : Multiplicative ℤ :=
  if (t == u) = true then Multiplicative.ofAdd 1 else 1

theorem isShared_indicator (t : MeasureUnit) : IsShared (indicator t) := by
  intro u v distinct same
  have iff : (t == u) = true ↔ (t == v) = true :=
    ⟨fun h => beq_trans h same, fun h => beq_trans h (distinct.beq_symm same)⟩
  simp only [indicator, iff]

/-- The power of `t` in a product of factors. -/
def exponent (t : MeasureUnit) (fs : List (Factor MeasureUnit)) : ℤ :=
  (productValue (indicator t) fs).toAdd

@[simp] theorem exponent_nil : exponent t [] = 0 := rfl

theorem exponent_cons (f : Factor MeasureUnit) (fs : List (Factor MeasureUnit)) :
    exponent t (f :: fs) = (if (t == f.unit) = true then f.power.val else 0) + exponent t fs := by
  rw [exponent, productValue_cons, toAdd_mul, toAdd_zpow, indicator, exponent]
  split <;> simp

theorem exponent_append (fs gs : List (Factor MeasureUnit)) :
    exponent t (fs ++ gs) = exponent t fs + exponent t gs := by
  rw [exponent, productValue_append, toAdd_mul]
  rfl

/-- Raising multiplies the exponents. -/
theorem exponent_raise (ok : fs.mapM (raise n) = .ok gs) :
    exponent t gs = n.val * exponent t fs := by
  rw [exponent, productValue_raise ok, toAdd_zpow, smul_eq_mul]
  rfl

/-- A product is that of different factors, with the exponents of the factors it was asked for. -/
theorem exists_exponent_of_ofProduct (distinct : ∀ f ∈ fs, f.unit.IsDistinct)
    (ok : ofProduct fs = .ok u) :
    ∃ gs, u = ofFactors gs ∧ Apart gs ∧
      (∀ g ∈ gs, (∃ f ∈ fs, f.unit = g.unit) ∧ g.power.val ≠ 0) ∧
      ∀ t, exponent t gs = exponent t fs := by
  obtain ⟨ks, gs, joined, kept, eq, apart, members⟩ := exists_of_ofProduct ok
  refine ⟨gs, eq, apart, members, fun t => ?_⟩
  rw [kept, exponent, productValue_filter,
    productValue_foldlM (isShared_indicator t) (by simpa using distinct) joined]
  rfl

/-- Making a product keeps the exponents of its factors. -/
theorem exponent_ofProduct (units : ∀ f ∈ fs, f.unit.IsFactor ∧ f.unit.IsDistinct)
    (ok : ofProduct fs = .ok u) : exponent t u.factors = exponent t fs := by
  obtain ⟨gs, rfl, apart, members, exponents⟩ :=
    exists_exponent_of_ofProduct (fun f hf => (units f hf).2) ok
  have factors : AreFactors gs := by
    intro g hg
    obtain ⟨⟨f, hf, same⟩, power⟩ := members g hg
    exact ⟨same ▸ (units f hf).1, power⟩
  rw [factors_ofFactors factors apart, exponents]

/-! ### Exponents of different factors -/

/-- A unit that differs from all factors has exponent zero. -/
theorem exponent_of_differ (differ : ∀ g ∈ gs, (t == g.unit) = false) : exponent t gs = 0 := by
  induction gs with
  | nil => rfl
  | cons g gs ih =>
    rw [exponent_cons, differ g (by simp), ih fun k hk => differ k (by simp [hk])]
    rfl

/-- What has an exponent is a factor. -/
theorem exists_of_exponent_ne_zero (h : exponent t gs ≠ 0) : ∃ g ∈ gs, (t == g.unit) = true := by
  by_contra none
  refine h (exponent_of_differ fun g hg => ?_)
  rw [← Bool.not_eq_true]
  exact fun same => none ⟨g, hg, same⟩

/-- Among different factors the exponent of one is its power. -/
theorem exponent_of_mem (apart : Apart gs) (distinct : t.IsDistinct) {g : Factor MeasureUnit}
    (hg : g ∈ gs) (same : (t == g.unit) = true) : exponent t gs = g.power.val := by
  have back := distinct.beq_symm same
  induction gs with
  | nil => cases hg
  | cons k gs ih =>
    have differ := List.pairwise_cons.1 apart
    rw [exponent_cons]
    rcases List.mem_cons.1 hg with rfl | hg
    · have others : ∀ k ∈ gs, (t == k.unit) = false := by
        intro k hk
        rw [← Bool.not_eq_true]
        exact fun equal => Bool.eq_false_iff.1 (differ.1 k hk) (beq_trans back equal)
      rw [if_pos same, exponent_of_differ others, add_zero]
    · have other : (t == k.unit) = false := by
        rw [← Bool.not_eq_true]
        exact fun equal => Bool.eq_false_iff.1 (differ.1 g hg)
          (beq_trans (distinct.beq_symm equal) same)
      rw [if_neg (by simp [other]), ih differ.2 hg, zero_add]

/-- Of products with the same exponents, the factors of the one are factors of the other. -/
theorem exists_match_of_exponent (apart : Apart fs) (apart' : Apart gs)
    (kind : ∀ f ∈ fs, f.unit.IsDistinct ∧ (f.unit == f.unit) = true ∧ f.power.val ≠ 0)
    (same : ∀ f ∈ fs, exponent f.unit fs = exponent f.unit gs) :
    ∀ f ∈ fs, ∃ g ∈ gs, (f.unit == g.unit) = true ∧ f.power = g.power := by
  intro f hf
  obtain ⟨distinct, self, nonzero⟩ := kind f hf
  have power := exponent_of_mem apart distinct hf self
  rw [same f hf] at power
  obtain ⟨g, hg, equal⟩ := exists_of_exponent_ne_zero (by
    rw [power]
    exact nonzero)
  rw [exponent_of_mem apart' distinct hg equal] at power
  exact ⟨g, hg, equal, Power.ext power.symm⟩

/-- Factors that differ have different matches, so that there are no fewer of these. -/
theorem length_le_of_matched (apart : Apart fs) (distinct : ∀ f ∈ fs, f.unit.IsDistinct)
    (matched : ∀ f ∈ fs, ∃ g ∈ gs, (f.unit == g.unit) = true ∧ f.power = g.power) :
    fs.length ≤ gs.length := by
  obtain ⟨ks, rest, perm, related⟩ :=
    exists_append_perm_of_matched apart (fun f hf _ => (distinct f hf).beq_symm) matched
  rw [related.length_eq, ← perm.length_eq, List.length_append]
  exact Nat.le_add_right _ _

/-- Products of matching factors are equal. -/
theorem ofFactors_beq_ofFactors (powers : ∀ f ∈ fs, f.power.val ≠ 0)
    (powers' : ∀ g ∈ gs, g.power.val ≠ 0) (length : fs.length = gs.length)
    (matched : ∀ f ∈ fs, ∃ g ∈ gs, (f.unit == g.unit) = true ∧ f.power = g.power) :
    (ofFactors fs == ofFactors gs) = true := by
  by_cases single : fs.map (·.power) = [Power.one]
  · obtain ⟨⟨u, m⟩, rfl, rfl⟩ := List.map_eq_singleton_iff.1 single
    obtain ⟨⟨v, n⟩, rfl⟩ := List.length_eq_one_iff.1 length.symm
    obtain ⟨g, hg, same, power⟩ := matched _ (List.mem_singleton_self _)
    cases List.mem_singleton.1 hg
    cases power
    exact same
  · have single' : gs.map (·.power) ≠ [Power.one] := by
      intro eq
      obtain ⟨g, rfl, one⟩ := List.map_eq_singleton_iff.1 eq
      obtain ⟨f, rfl⟩ := List.length_eq_one_iff.1 length
      obtain ⟨g', hg, -, power⟩ := matched f (List.mem_singleton_self _)
      rw [List.mem_singleton.1 hg, one] at power
      exact single (congrArg (fun n => [n]) power)
    rw [ofFactors_eq_product powers single, ofFactors_eq_product powers' single']
    exact product_beq_product.2 ⟨length, matched⟩

/-- Products of different units that equal themselves are equal if they have the same exponents. -/
theorem ofFactors_beq_of_exponent (apart : Apart fs) (apart' : Apart gs)
    (kind : ∀ f ∈ fs, f.unit.IsDistinct ∧ (f.unit == f.unit) = true ∧ f.power.val ≠ 0)
    (kind' : ∀ g ∈ gs, g.unit.IsDistinct ∧ (g.unit == g.unit) = true ∧ g.power.val ≠ 0)
    (same : ∀ t, exponent t fs = exponent t gs) : (ofFactors fs == ofFactors gs) = true := by
  have matched := exists_match_of_exponent apart apart' kind fun f _ => same f.unit
  have matched' := exists_match_of_exponent apart' apart kind' fun g _ => (same g.unit).symm
  have length : fs.length = gs.length := le_antisymm
    (length_le_of_matched apart (fun f hf => (kind f hf).1) matched)
    (length_le_of_matched apart' (fun g hg => (kind' g hg).1) matched')
  exact ofFactors_beq_ofFactors (fun f hf => (kind f hf).2.2) (fun g hg => (kind' g hg).2.2) length
    matched

/-! ### Products of different units of a kind -/

/-- Whether a unit is the product of different units of a kind, with powers other than zero. -/
def IsProductOf (P : MeasureUnit → Prop) (u : MeasureUnit) : Prop :=
  ∃ fs, u = ofFactors fs ∧ Apart fs ∧ ∀ f ∈ fs, P f.unit ∧ f.power.val ≠ 0

/-- A product of units of a kind is a product of that kind. -/
theorem isProductOf_ofProduct {P : MeasureUnit → Prop} (units : ∀ f ∈ fs, P f.unit)
    (ok : ofProduct fs = .ok u) : u.IsProductOf P := by
  obtain ⟨-, gs, -, -, rfl, apart, members⟩ := exists_of_ofProduct ok
  refine ⟨gs, rfl, apart, fun g hg => ?_⟩
  obtain ⟨⟨f, hf, same⟩, power⟩ := members g hg
  exact ⟨same ▸ units f hf, power⟩

section Kind

variable {P : MeasureUnit → Prop} (factor : ∀ u, P u → u.IsFactor)
include factor

theorem areFactors_of_kind (kind : ∀ f ∈ fs, P f.unit ∧ f.power.val ≠ 0) : AreFactors fs :=
  fun f hf => ⟨factor _ (kind f hf).1, (kind f hf).2⟩

namespace IsProductOf

theorem number? (h : u.IsProductOf P) : u.number? = none := by
  obtain ⟨fs, rfl, apart, kind⟩ := h
  exact number?_ofFactors (areFactors_of_kind factor kind) apart

/-- Its factors are what such a product is made of. -/
theorem factors (h : u.IsProductOf P) : u = ofFactors u.factors ∧ Apart u.factors ∧
    ∀ f ∈ u.factors, P f.unit ∧ f.power.val ≠ 0 := by
  obtain ⟨fs, rfl, apart, kind⟩ := h
  rw [factors_ofFactors (areFactors_of_kind factor kind) apart]
  exact ⟨rfl, apart, kind⟩

theorem ofProduct_factors (h : u.IsProductOf P) : ofProduct u.factors = .ok u := by
  obtain ⟨eq, apart, -⟩ := h.factors factor
  rw [ofProduct_of_apart apart, ← eq]

/-- Multiplying such products is making the product of all factors. -/
theorem mul_eq (hu : u.IsProductOf P) (hv : v.IsProductOf P) :
    u.mul v = ofProduct (u.factors ++ v.factors) := by
  rw [MeasureUnit.mul, hu.number? factor, hv.number? factor]
  split
  · rename_i one
    rw [isOne_iff.1 one]
    exact (hv.ofProduct_factors factor).symm
  · split
    · rename_i one
      rw [isOne_iff.1 one, MeasureUnit.one, MeasureUnit.factors, List.append_nil]
      exact (hu.ofProduct_factors factor).symm
    · rfl

theorem pow_eq (h : u.IsProductOf P) (n : Power) :
    u.pow n = u.factors.mapM (raise n) >>= ofProduct := by
  rw [MeasureUnit.pow, h.number? factor]

theorem mul (hu : u.IsProductOf P) (hv : v.IsProductOf P) (ok : u.mul v = .ok w) :
    w.IsProductOf P := by
  rw [hu.mul_eq factor hv] at ok
  refine isProductOf_ofProduct (fun f hf => ?_) ok
  rcases List.mem_append.1 hf with hf | hf
  · exact ((hu.factors factor).2.2 f hf).1
  · exact ((hv.factors factor).2.2 f hf).1

theorem pow (hu : u.IsProductOf P) (ok : u.pow n = .ok w) : w.IsProductOf P := by
  rw [hu.pow_eq factor] at ok
  obtain ⟨gs, raised, ok⟩ := bind_ok_iff.1 ok
  refine isProductOf_ofProduct (fun g hg => ?_) ok
  obtain ⟨f, hf, same⟩ := mem_of_mapM_raise raised g hg
  exact same ▸ ((hu.factors factor).2.2 f hf).1

end IsProductOf

end Kind

/-! ### Products of units that equal themselves -/

/-- Whether a unit counts as one factor, has different factors in its own products, and equals itself. -/
def IsGenerator (u : MeasureUnit) : Prop := u.IsFactor ∧ u.IsDistinct ∧ (u == u) = true

theorem IsGenerator.isFactor (u : MeasureUnit) (h : u.IsGenerator) : u.IsFactor := h.1

namespace IsProductOf

/-- Exponents add up in a product. -/
theorem exponent_mul (hu : u.IsProductOf IsGenerator) (hv : v.IsProductOf IsGenerator)
    (ok : u.mul v = .ok w) :
    exponent t w.factors = exponent t u.factors + exponent t v.factors := by
  obtain ⟨-, -, kind⟩ := hu.factors IsGenerator.isFactor
  obtain ⟨-, -, kind'⟩ := hv.factors IsGenerator.isFactor
  rw [hu.mul_eq IsGenerator.isFactor hv] at ok
  rw [exponent_ofProduct (fun f hf => ?_) ok, exponent_append]
  rcases List.mem_append.1 hf with hf | hf
  · exact ⟨(kind f hf).1.1, (kind f hf).1.2.1⟩
  · exact ⟨(kind' f hf).1.1, (kind' f hf).1.2.1⟩

/-- Exponents are multiplied in a power. -/
theorem exponent_pow (hu : u.IsProductOf IsGenerator) (ok : u.pow n = .ok w) :
    exponent t w.factors = n.val * exponent t u.factors := by
  obtain ⟨-, -, kind⟩ := hu.factors IsGenerator.isFactor
  rw [hu.pow_eq IsGenerator.isFactor] at ok
  obtain ⟨gs, raised, ok⟩ := bind_ok_iff.1 ok
  rw [exponent_ofProduct (fun g hg => ?_) ok, exponent_raise raised]
  obtain ⟨f, hf, same⟩ := mem_of_mapM_raise raised g hg
  rw [← same]
  exact ⟨(kind f hf).1.1, (kind f hf).1.2.1⟩

/-- Such products are equal if they have the same exponents. -/
theorem beq_of_exponent (hu : u.IsProductOf IsGenerator) (hv : v.IsProductOf IsGenerator)
    (same : ∀ t, exponent t u.factors = exponent t v.factors) : (u == v) = true := by
  obtain ⟨eq, apart, kind⟩ := hu.factors IsGenerator.isFactor
  obtain ⟨eq', apart', kind'⟩ := hv.factors IsGenerator.isFactor
  rw [eq, eq']
  exact ofFactors_beq_of_exponent apart apart'
    (fun f hf => ⟨(kind f hf).1.2.1, (kind f hf).1.2.2, (kind f hf).2⟩)
    (fun f hf => ⟨(kind' f hf).1.2.1, (kind' f hf).1.2.2, (kind' f hf).2⟩) same

/-- Such a product without exponents is the dimensionless unit. -/
theorem eq_one_of_exponent (hu : u.IsProductOf IsGenerator)
    (zero : ∀ t, exponent t u.factors = 0) : u = MeasureUnit.one := by
  obtain ⟨eq, apart, kind⟩ := hu.factors IsGenerator.isFactor
  have none : u.factors = [] := by
    refine List.eq_nil_iff_forall_not_mem.2 fun f hf => ?_
    obtain ⟨⟨-, distinct, self⟩, nonzero⟩ := kind f hf
    exact nonzero ((exponent_of_mem apart distinct hf self).symm.trans (zero f.unit))
  rw [eq, none]
  rfl

end IsProductOf

end Metrology.MeasureUnit
