import Metrology.Proofs.MeasureUnit.Exponents
import Metrology.Proofs.MeasureUnit.Weighting

/-!
# System units

Unwinding a unit leaves a product of different base and alternate units, its system unit. Which ones
these are, and their powers, can be counted in the unit itself: the degree of a base or alternate
unit is a weight, to which transforms and notes add nothing. Up to order, degrees settle a product of
base and alternate units, so that equal units have equal system units.
-/
namespace Metrology.MeasureUnit

/-- Whether a unit is left as it is by unwinding. -/
def IsAtom : MeasureUnit → Prop
  | base _ | alternate _ _ => True
  | _ => False

/-- Whether a unit is the product of different base and alternate units. -/
def IsSystem (u : MeasureUnit) : Prop :=
  ∃ fs, u = ofFactors fs ∧ Apart fs ∧ ∀ f ∈ fs, f.unit.IsAtom ∧ f.power.val ≠ 0

variable {u v w s t : MeasureUnit} {fs gs : List (Factor MeasureUnit)} {n : Power}

theorem IsAtom.isFactor (u : MeasureUnit) (h : u.IsAtom) : u.IsFactor := by
  cases u <;> first | exact ⟨rfl, rfl⟩ | cases h

theorem IsAtom.isSystem (h : u.IsAtom) : u.IsSystem := by
  refine ⟨[⟨u, Power.one⟩], rfl, List.pairwise_singleton _ _, fun f hf => ?_⟩
  rw [List.mem_singleton.1 hf]
  exact ⟨h, Int.one_ne_zero⟩

theorem isSystem_one : one.IsSystem := ⟨[], rfl, List.Pairwise.nil, List.forall_mem_nil _⟩

namespace IsSystem

/-- A system unit is the product of its factors, and these are different atoms. -/
theorem factors (h : u.IsSystem) : u = ofFactors u.factors ∧ Apart u.factors ∧
    ∀ f ∈ u.factors, f.unit.IsAtom ∧ f.power.val ≠ 0 :=
  IsProductOf.factors IsAtom.isFactor h

theorem mul (hu : u.IsSystem) (hv : v.IsSystem) (ok : u.mul v = .ok w) : w.IsSystem :=
  IsProductOf.mul IsAtom.isFactor hu hv ok

theorem pow (hu : u.IsSystem) (ok : u.pow n = .ok w) : w.IsSystem :=
  IsProductOf.pow IsAtom.isFactor hu ok

end IsSystem

/-- What unwinding leaves is a product of base and alternate units. -/
theorem isSystem_systemUnit (ok : u.systemUnit = .ok s) : s.IsSystem :=
  systemUnit_induction (motive := fun _ s => s.IsSystem) (R := fun _ acc => acc.IsSystem)
    (fun _ => IsAtom.isSystem trivial) (fun _ _ => IsAtom.isSystem trivial) (fun _ _ h => h)
    (fun _ _ _ _ h => h) (fun _ _ _ h => h) isSystem_one
    (fun _ _ _ _ _ _ front system power multiplied => front.mul (system.pow power) multiplied) ok

/-! ### Degrees -/

/-- Counts the units that equal a given one. -/
def occurrences (t : MeasureUnit) : Weighting (Multiplicative ℤ) where
  atom u := if (t == u) = true then Multiplicative.ofAdd 1 else 1
  step _ := 1
  atom_congr := isShared_indicator t
  step_congr _ := rfl
  step_identity := rfl
  step_compose _ _ := (mul_one 1).symm
  step_pow _ := (one_zpow _).symm

/-- The power of `t` in a unit. -/
def degree (t u : MeasureUnit) : ℤ := ((occurrences t).weight u).toAdd

def productDegree (t : MeasureUnit) (fs : List (Factor MeasureUnit)) : ℤ :=
  ((occurrences t).productWeight fs).toAdd

/-- An atom has degree one in what equals it, and zero in all else. -/
theorem degree_atom (h : u.IsAtom) : degree t u = if (t == u) = true then 1 else 0 := by
  cases u with
  | base | alternate =>
    change Multiplicative.toAdd (if _ then _ else _) = _
    split <;> rfl
  | _ => cases h

/-- On base and alternate units degrees are exponents. -/
theorem productDegree_eq (atoms : ∀ f ∈ fs, f.unit.IsAtom) : productDegree t fs = exponent t fs := by
  induction fs with
  | nil => rfl
  | cons f fs ih =>
    have rest := ih fun g hg => atoms g (by simp [hg])
    rw [productDegree] at rest ⊢
    rw [Weighting.productWeight, toAdd_mul, Weighting.powerWeight_eq, toAdd_zpow, smul_eq_mul, rest,
      exponent_cons]
    change f.power.val * degree t f.unit + _ = _
    rw [degree_atom (atoms f (by simp)), mul_ite, mul_one, mul_zero]

theorem degree_ofFactors : degree t (ofFactors fs) = productDegree t fs :=
  congrArg Multiplicative.toAdd ((occurrences t).weight_ofFactors fs)

/-- Equal units have the same degrees. -/
theorem degree_congr (distinct : u.IsDistinct) (h : (u == v) = true) : degree t u = degree t v :=
  congrArg Multiplicative.toAdd ((occurrences t).weight_congr distinct h)

/-- The degrees of a system unit are its exponents. -/
theorem IsSystem.degree_eq (h : u.IsSystem) : degree t u = exponent t u.factors := by
  obtain ⟨eq, -, atoms⟩ := h.factors
  conv_lhs => rw [eq]
  rw [degree_ofFactors, productDegree_eq fun f hf => (atoms f hf).1]

/-! ### Units that equal themselves -/

/-- Whether the products that unwinding goes through have different factors, and the base and alternate
units that it ends at equal themselves. -/
inductive IsDefinite : MeasureUnit → Prop where
  | base (symbol : String) : IsDefinite (.base symbol)
  | alternate {symbol : String} {parent : MeasureUnit} (inner : parent.IsDistinct)
      (self : (MeasureUnit.alternate symbol parent == .alternate symbol parent) = true) :
      IsDefinite (.alternate symbol parent)
  | product {fs : List (Factor MeasureUnit)} (apart : Apart fs)
      (units : ∀ f ∈ fs, f.unit.IsDefinite) : IsDefinite (.product fs)
  | transformed {parent : MeasureUnit} (c : Converter) (mark : Option Nat)
      (inner : parent.IsDefinite) : IsDefinite (.transformed parent c mark)
  | noted {actual : MeasureUnit} (note : String) (inner : actual.IsDefinite) :
      IsDefinite (.noted actual note)

theorem isClosed_isDefinite : IsClosed IsDefinite fun _ => True where
  units := fun | .product _ units => units
  product := .product
  transformed := ⟨fun | .transformed _ _ inner => ⟨inner, trivial⟩, fun h => .transformed _ _ h.1⟩
  identity := trivial
  compose _ _ := trivial
  power _ _ := trivial

namespace IsDefinite

/-- What a unit is made of equals itself if the unit does. -/
theorem of_beq_self (distinct : u.IsDistinct) (self : (u == u) = true) : u.IsDefinite := by
  induction distinct with
  | base symbol => exact .base symbol
  | alternate symbol inner => exact .alternate inner self
  | product apart units ih =>
    refine .product apart fun f hf => ih f hf ?_
    obtain ⟨g, -, same, -⟩ := (product_beq_product.1 self).2 f hf
    exact beq_trans same ((units f hf).beq_symm same)
  | transformed c mark _ ih =>
    rw [transformed_beq_transformed, Bool.and_eq_true] at self
    exact .transformed c mark (ih self.1)
  | noted note _ ih =>
    rw [noted_beq_noted, Bool.and_eq_true] at self
    exact .noted note (ih self.1)

theorem isDistinct (h : u.IsDefinite) : u.IsDistinct := by
  induction h with
  | base symbol => exact .base symbol
  | alternate inner => exact .alternate _ inner
  | product apart _ ih => exact .product apart ih
  | transformed c mark _ ih => exact .transformed c mark ih
  | noted note _ ih => exact .noted note ih

theorem mul (hu : u.IsDefinite) (hv : v.IsDefinite) (ok : u.mul v = .ok w) : w.IsDefinite :=
  isClosed_isDefinite.mul hu hv ok

theorem pow (hu : u.IsDefinite) (ok : u.pow n = .ok w) : w.IsDefinite :=
  isClosed_isDefinite.pow hu ok

/-- Unwinding stays among definite units. -/
theorem systemUnit (hu : u.IsDefinite) (ok : u.systemUnit = .ok s) : s.IsDefinite :=
  isClosed_isDefinite.systemUnit (fun | .noted _ inner => inner) hu ok

theorem isGenerator (h : u.IsDefinite) (atom : u.IsAtom) : u.IsGenerator := by
  refine ⟨atom.isFactor, h.isDistinct, ?_⟩
  cases h with
  | base symbol => simp
  | alternate _ self => exact self
  | _ => cases atom

/-- System units of one degree in all units are equal. -/
theorem beq_of_degree (hs : s.IsDefinite) (ht : t.IsDefinite) (system : s.IsSystem)
    (system' : t.IsSystem) (same : ∀ x, degree x s = degree x t) : (s == t) = true := by
  have generated : ∀ {u : MeasureUnit}, u.IsDefinite → u.IsSystem → u.IsProductOf IsGenerator := by
    intro u definite system
    obtain ⟨eq, apart, atoms⟩ := system.factors
    exact ⟨u.factors, eq, apart, fun f hf => ⟨(isClosed_isDefinite.factors definite f hf).isGenerator
      (atoms f hf).1, (atoms f hf).2⟩⟩
  refine (generated hs system).beq_of_exponent (generated ht system') fun x => ?_
  rw [← system.degree_eq, ← system'.degree_eq, same x]

/-- The system unit of a definite unit equals itself. -/
theorem systemUnit_beq_self (hu : u.IsDefinite) (ok : u.systemUnit = .ok s) : (s == s) = true :=
  have system := isSystem_systemUnit ok
  (hu.systemUnit ok).beq_of_degree (hu.systemUnit ok) system system fun _ => rfl

end IsDefinite

/-- Unwinding keeps the degrees. -/
theorem degree_systemUnit (distinct : u.IsDistinct) (ok : u.systemUnit = .ok s) :
    degree t s = degree t u :=
  congrArg Multiplicative.toAdd ((occurrences t).weight_systemUnit (fun _ => rfl) distinct ok)

/-- Units that are built are definite, unless there is a NaN that no mark tells from others. -/
theorem IsBuilt.isDefinite (h : u.IsBuilt) (self : (u == u) = true) : u.IsDefinite :=
  IsDefinite.of_beq_self h.isDistinct self

/-- Equal units have equal system units. -/
theorem systemUnit_congr (hu : u.IsDefinite) (hv : v.IsDefinite) (same : (u == v) = true)
    (hs : u.systemUnit = .ok s) (ht : v.systemUnit = .ok t) : (s == t) = true := by
  refine (hu.systemUnit hs).beq_of_degree (hv.systemUnit ht) (isSystem_systemUnit hs)
    (isSystem_systemUnit ht) fun w => ?_
  rw [degree_systemUnit hu.isDistinct hs, degree_systemUnit hv.isDistinct ht,
    degree_congr hu.isDistinct same]

end Metrology.MeasureUnit
