import Mathlib.Algebra.BigOperators.Group.List.Basic
import Mathlib.Algebra.Group.Basic
import Metrology.Proofs.MeasureUnit.Building

/-!
# Values of products

Once units have values in a commutative group, so has a product of powers of units. Where equal units
share their value, joining the powers of equal units and dropping powers that are zero leave the value
of a product as it is.
-/
namespace Metrology.MeasureUnit

variable {G : Type} [CommGroup G] {value : MeasureUnit → G} {f : Factor MeasureUnit}
  {fs gs ks : List (Factor MeasureUnit)} {n : Power} {u : MeasureUnit}

def productValue (value : MeasureUnit → G) (fs : List (Factor MeasureUnit)) : G :=
  (fs.map fun f => value f.unit ^ f.power.val).prod

def IsShared (value : MeasureUnit → G) : Prop :=
  ∀ {u v : MeasureUnit}, u.IsDistinct → (u == v) = true → value u = value v

@[simp] theorem productValue_nil : productValue value [] = 1 := rfl

theorem productValue_cons (f : Factor MeasureUnit) (fs : List (Factor MeasureUnit)) :
    productValue value (f :: fs) = value f.unit ^ f.power.val * productValue value fs :=
  List.prod_cons

@[simp] theorem productValue_singleton (f : Factor MeasureUnit) :
    productValue value [f] = value f.unit ^ f.power.val := by
  rw [productValue_cons, productValue_nil, mul_one]

theorem productValue_append (fs gs : List (Factor MeasureUnit)) :
    productValue value (fs ++ gs) = productValue value fs * productValue value gs := by
  simp only [productValue, List.map_append, List.prod_append]

theorem productValue_perm (perm : fs.Perm gs) : productValue value fs = productValue value gs :=
  (perm.map _).prod_eq

/-- Powers that are zero have no part in the value. -/
theorem productValue_filter (fs : List (Factor MeasureUnit)) :
    productValue value (fs.filter fun f => f.power.val != 0) = productValue value fs := by
  induction fs with
  | nil => rfl
  | cons f fs ih =>
    rw [List.filter_cons]
    split
    · rw [productValue_cons, productValue_cons, ih]
    · rename_i zero
      have zero : f.power.val = 0 := by simpa using zero
      rw [productValue_cons, ih, zero, zpow_zero, one_mul]

/-- Joining equal units keeps the value of the product. -/
theorem productValue_insertFactor (shared : IsShared value) (distinct : ∀ g ∈ fs, g.unit.IsDistinct)
    (ok : insertFactor fs f = .ok gs) :
    productValue value gs = productValue value fs * value f.unit ^ f.power.val := by
  induction fs generalizing gs with
  | nil =>
    cases ok
    rw [productValue_cons, mul_comm]
  | cons g fs ih =>
    rw [insertFactor] at ok
    split at ok
    · rename_i same
      obtain ⟨m, sum, ok⟩ := bind_ok_iff.1 ok
      cases ok
      have power : m.val = g.power.val + f.power.val :=
        Power.ofInt?_eq_some_iff.1 (powerOrOverflow_eq_ok.1 sum)
      rw [productValue_cons, productValue_cons, power, zpow_add, shared (distinct g (by simp)) same,
        mul_right_comm]
    · obtain ⟨ks, others, ok⟩ := bind_ok_iff.1 ok
      cases ok
      rw [productValue_cons, productValue_cons, ih (fun g hg => distinct g (by simp [hg])) others,
        mul_assoc]

theorem isDistinct_of_insertFactor (distinct : ∀ g ∈ fs, g.unit.IsDistinct) (last : f.unit.IsDistinct)
    (ok : insertFactor fs f = .ok gs) : ∀ g ∈ gs, g.unit.IsDistinct := by
  intro g hg
  have member : g.unit ∈ fs.map (·.unit) ++ [f.unit] := by
    have := List.mem_map_of_mem (f := (·.unit)) hg
    rcases units_of_insertFactor ok with same | ⟨same, -⟩
    · exact List.mem_append_left _ (same ▸ this)
    · exact same ▸ this
  rcases List.mem_append.1 member with member | member
  · obtain ⟨k, hk, eq⟩ := List.mem_map.1 member
    exact eq ▸ distinct k hk
  · rw [List.mem_singleton.1 member]
    exact last

/-- Joining all equal units keeps the value of the product. -/
theorem productValue_foldlM (shared : IsShared value) (distinct : ∀ g ∈ fs ++ gs, g.unit.IsDistinct)
    (ok : gs.foldlM insertFactor fs = .ok ks) :
    productValue value ks = productValue value (fs ++ gs) := by
  induction gs generalizing fs with
  | nil =>
    cases ok
    rw [List.append_nil]
  | cons g gs ih =>
    rw [List.foldlM_cons] at ok
    obtain ⟨ls, inserted, ok⟩ := bind_ok_iff.1 ok
    have front : ∀ f ∈ fs, f.unit.IsDistinct := fun f hf => distinct f (by simp [hf])
    have units : ∀ l ∈ ls ++ gs, l.unit.IsDistinct := by
      intro l hl
      rcases List.mem_append.1 hl with hl | hl
      · exact isDistinct_of_insertFactor front (distinct g (by simp)) inserted l hl
      · exact distinct l (by simp [hl])
    rw [ih units ok, productValue_append, productValue_append, productValue_cons,
      productValue_insertFactor shared front inserted, mul_assoc]

theorem productValue_raise (ok : fs.mapM (raise n) = .ok gs) :
    productValue value gs = productValue value fs ^ n.val := by
  have multiple := mapM_raise_eq_ok_iff.1 ok
  clear ok
  induction multiple with
  | nil => exact (one_zpow _).symm
  | cons head _ ih =>
    rw [productValue_cons, productValue_cons, ih, mul_zpow, ← head.1, head.2, zpow_mul]

end Metrology.MeasureUnit
