import Metrology.Proofs.MeasureUnit.Values

/-!
# Weights of units

Units multiply as the elements of a commutative group do. Given values in such a group for base and
alternate units, and for converters, every unit has a value, its weight: that of a product is the
product of the powers of the values of its factors, and a converter multiplies it. Joining equal
factors, dropping powers that are zero, and taking numbers for scalings leave it as it is, so that
the weight of what an operation makes is made in the same way from the weights of the operands.
-/
namespace Metrology.MeasureUnit

open Converter

/-- Values for base and alternate units, and for converters, that equal ones share. -/
structure Weighting (G : Type) [CommGroup G] where
  atom : MeasureUnit → G
  step : Converter → G
  atom_congr {u v : MeasureUnit} : u.IsDistinct → (u == v) = true → atom u = atom v
  step_congr {c d : Converter} : (c == d) = true → step c = step d
  step_identity : step .identity = 1
  step_compose (c d : Converter) : step (c.compose d) = step c * step d
  step_pow {c d : Converter} {n : Int} : c.pow n = .ok d → step d = step c ^ n

namespace Weighting

variable {G : Type} [CommGroup G]

mutual

def weight (W : Weighting G) : MeasureUnit → G
  | .base symbol => W.atom (.base symbol)
  | .alternate symbol parent => W.atom (.alternate symbol parent)
  | .product fs => W.productWeight fs
  | .transformed parent c _ => W.weight parent * W.step c
  | .noted actual _ => W.weight actual
termination_by structural u => u

def productWeight (W : Weighting G) : List (Factor MeasureUnit) → G
  | [] => 1
  | f :: fs => W.powerWeight f * W.productWeight fs
termination_by structural fs => fs

def powerWeight (W : Weighting G) : Factor MeasureUnit → G
  | ⟨u, n⟩ => W.weight u ^ n.val
termination_by structural f => f

end

variable (W : Weighting G) {u v w : MeasureUnit} {f : Factor MeasureUnit}
  {fs gs ks : List (Factor MeasureUnit)} {n : Power}

theorem powerWeight_eq (f : Factor MeasureUnit) :
    W.powerWeight f = W.weight f.unit ^ f.power.val := by
  obtain ⟨unit, n⟩ := f
  rfl

theorem productWeight_eq (fs : List (Factor MeasureUnit)) :
    W.productWeight fs = productValue W.weight fs := by
  induction fs with
  | nil => rfl
  | cons f fs ih => rw [productWeight, ih, productValue_cons, powerWeight_eq]

/-- Factors side by side multiply their weights. -/
theorem productWeight_append (fs gs : List (Factor MeasureUnit)) :
    W.productWeight (fs ++ gs) = W.productWeight fs * W.productWeight gs := by
  simp only [productWeight_eq, productValue_append]

@[simp] theorem weight_one : W.weight MeasureUnit.one = 1 := rfl

/-- Equal units have one value. -/
theorem weight_congr (distinct : u.IsDistinct) (h : (u == v) = true) : W.weight u = W.weight v := by
  induction u generalizing v with
  | base s =>
    cases v <;> try cases h
    exact W.atom_congr distinct h
  | alternate s p =>
    cases v <;> try cases h
    exact W.atom_congr distinct h
  | product fs ih =>
    cases v with
    | product gs =>
      obtain ⟨ks, perm, related⟩ := exists_perm_of_product_beq distinct h
      cases distinct with
      | product apart units =>
        rw [weight, weight, W.productWeight_eq gs, ← productValue_perm perm, ← productWeight_eq]
        clear perm h apart
        induction related with
        | nil => rfl
        | @cons f k fs ks same _ ih' =>
          have head := ih f (by simp) (units f (by simp)) same.1
          rw [productWeight, productWeight, powerWeight_eq, powerWeight_eq, head, same.2,
            ih' (fun g hg => ih g (by simp [hg])) fun g hg => units g (by simp [hg])]
    | _ => cases h
  | transformed p c m ih =>
    cases v <;> try cases h
    cases distinct with
    | transformed _ _ inner =>
      simp only [transformed_beq_transformed, Bool.and_eq_true] at h
      rw [weight, weight, ih inner h.1,
        (beq_or_eq_of_sameConverter h.2).elim W.step_congr (congrArg W.step)]
  | noted a note ih =>
    cases v <;> try cases h
    cases distinct with
    | noted _ inner =>
      simp only [noted_beq_noted, Bool.and_eq_true] at h
      rw [weight, weight, ih inner h.1]

/-! ### Products -/

/-- Leaving out powers of zero does not change the weight. -/
theorem weight_ofFactors (fs : List (Factor MeasureUnit)) :
    W.weight (ofFactors fs) = W.productWeight fs := by
  rw [productWeight_eq, ← productValue_filter, ← productWeight_eq]
  unfold ofFactors
  split
  · rename_i f single
    rw [single]
    split
    · rename_i one
      rw [productWeight, productWeight, powerWeight_eq, one, zpow_one, mul_one]
    · rfl
  · rfl

/-- The value of a product is that of the factors it was asked for. -/
theorem weight_ofProduct (distinct : ∀ f ∈ fs, f.unit.IsDistinct) (ok : ofProduct fs = .ok u) :
    W.weight u = W.productWeight fs := by
  obtain ⟨gs, inserted, ok⟩ := bind_ok_iff.1 ok
  cases ok
  rw [weight_ofFactors, productWeight_eq, productWeight_eq,
    productValue_foldlM W.weight_congr (by simpa using distinct) inserted, List.nil_append]

theorem productWeight_factors (u : MeasureUnit) : W.productWeight u.factors = W.weight u := by
  cases u with
  | product fs => rfl
  | _ => exact (mul_one _).trans (zpow_one _)

theorem productWeight_raise (ok : fs.mapM (raise n) = .ok gs) :
    W.productWeight gs = W.productWeight fs ^ n.val := by
  rw [productWeight_eq, productWeight_eq, productValue_raise ok]

/-! ### The operations -/

/-- A transform multiplies by the weight of the converter. -/
theorem weight_transform (u : MeasureUnit) (c : Converter) :
    W.weight (u.transform c) = W.weight u * W.step c := by
  have normal : W.step c.normalize = W.step c := by
    rw [Converter.normalize, W.step_compose, W.step_identity, one_mul]
  unfold transform
  split
  · rename_i trivial
    rw [isIdentity_iff.1 trivial, W.step_identity, mul_one]
  · split
    · rename_i parent existing _
      have combined := W.step_compose existing c
      dsimp only
      split
      · rename_i cancelled
        rw [isIdentity_iff.1 cancelled, W.step_identity] at combined
        rw [weight, mul_assoc, ← combined, mul_one]
      · rw [weight, weight, combined, mul_assoc]
    · dsimp only
      split
      · rename_i cancelled
        rw [← normal, isIdentity_iff.1 cancelled, W.step_identity, mul_one]
      · rw [weight, normal]

theorem weight_of_number? {c : Converter} (h : u.number? = some c) : W.weight u = W.step c := by
  obtain ⟨mark, rfl, -⟩ := number?_eq_some.1 h
  exact one_mul _

/-- The weight of a product is the product of the weights. -/
theorem weight_mul (hu : u.IsDistinct) (hv : v.IsDistinct) (ok : u.mul v = .ok w) :
    W.weight w = W.weight u * W.weight v := by
  rcases mul_eq_ok ok with ⟨rfl, rfl⟩ | ⟨rfl, rfl⟩ | ⟨c, value, rfl⟩ | ⟨c, value, rfl⟩ | ⟨-, -, ok⟩
  · rw [weight_one, one_mul]
  · rw [weight_one, mul_one]
  · rw [weight_transform, W.weight_of_number? value, mul_comm]
  · rw [weight_transform, W.weight_of_number? value]
  · have distinct : ∀ f ∈ u.factors ++ v.factors, f.unit.IsDistinct := fun f hf =>
      (List.mem_append.1 hf).elim (isClosed_isDistinct.factors hu f) (isClosed_isDistinct.factors hv f)
    rw [W.weight_ofProduct distinct ok, productWeight_append, productWeight_factors,
      productWeight_factors]

/-- The weight of a power is the power of the weight. -/
theorem weight_pow (hu : u.IsDistinct) (ok : u.pow n = .ok w) : W.weight w = W.weight u ^ n.val := by
  rcases pow_eq_ok.1 ok with ⟨c, d, value, power, rfl⟩ | ⟨-, gs, raised, ok⟩
  · rw [weight_transform, weight_one, one_mul, W.weight_of_number? value, W.step_pow power]
  · have distinct : ∀ g ∈ gs, g.unit.IsDistinct := by
      intro g hg
      obtain ⟨f, hf, same⟩ := mem_of_mapM_raise raised g hg
      exact same ▸ isClosed_isDistinct.factors hu f hf
    rw [W.weight_ofProduct distinct ok, W.productWeight_raise raised, productWeight_factors]

theorem weight_div (hu : u.IsDistinct) (hv : v.IsDistinct) (ok : u.div v = .ok w) :
    W.weight w = W.weight u * (W.weight v)⁻¹ := by
  obtain ⟨r, reciprocal, ok⟩ := div_eq_ok.1 ok
  rw [W.weight_mul hu (isClosed_isDistinct.pow hv reciprocal) ok, W.weight_pow hv reciprocal]
  exact congrArg _ (zpow_neg_one _)

/-- Where converters weigh nothing, unwinding a unit keeps its value. -/
theorem weight_systemUnit (free : ∀ c, W.step c = 1) (distinct : u.IsDistinct)
    (ok : u.systemUnit = .ok w) : W.weight w = W.weight u := by
  have closed := isClosed_isDistinct
  have whole := systemUnit_induction
    (motive := fun u s => u.IsDistinct → s.IsDistinct ∧ W.weight s = W.weight u)
    (R := fun fs acc => (∀ f ∈ fs, f.unit.IsDistinct) →
      acc.IsDistinct ∧ W.weight acc = W.productWeight fs)
    (fun _ h => ⟨h, rfl⟩) (fun _ _ h => ⟨h, rfl⟩) (fun _ _ run h => run (closed.units h))
    (fun parent c mark s ih h => ?_) (fun actual note s ih h => ?_) (fun _ => ⟨closed.one, rfl⟩)
    (fun fs f acc s p acc' run ih power multiplied units => ?_) ok
  · exact (whole distinct).2
  · obtain ⟨distinct, value⟩ := ih (closed.transformed.1 h).1
    exact ⟨distinct, by rw [value, weight, free, mul_one]⟩
  · cases h with
    | noted _ inner => exact ih inner
  · obtain ⟨front, value⟩ := run fun g hg => units g (List.mem_append_left _ hg)
    obtain ⟨last, value'⟩ := ih (units f (by simp))
    refine ⟨closed.mul front (closed.pow last power) multiplied, ?_⟩
    rw [W.weight_mul front (closed.pow last power) multiplied, W.weight_pow last power, value, value',
      productWeight_append, productWeight, productWeight, mul_one, powerWeight_eq]

end Weighting

end Metrology.MeasureUnit
