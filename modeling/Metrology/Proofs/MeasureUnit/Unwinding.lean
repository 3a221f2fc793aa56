import Metrology.Proofs.MeasureUnit.SystemUnits

/-!
# Unwinding as a projection

A system unit is its own system unit, and units that differ by a converter or a note have the same
one. Unwinding goes through products and powers: it does not matter whether the units are unwound
first or the result. The order of the factors may be another one, so that the results are equal
without being the same, and this takes base and alternate units that equal themselves.
-/
namespace Metrology.MeasureUnit

variable {u v w s t : MeasureUnit} {fs gs : List (Factor MeasureUnit)} {n : Power}

/-! ### System units are unwound already -/

theorem IsAtom.systemUnit (h : u.IsAtom) : u.systemUnit = .ok u := by
  cases u <;> first | rfl | cases h

theorem IsAtom.systemPower (h : u.IsAtom) : systemPower ⟨u, n⟩ = .ok (ofFactors [⟨u, n⟩]) := by
  rw [MeasureUnit.systemPower, h.systemUnit]
  exact pow_of_isFactor h.isFactor

/-- The factors of a system unit are put back one by one. -/
theorem systemProduct_of_apart (atoms : ∀ f ∈ fs ++ gs, f.unit.IsAtom ∧ f.power.val ≠ 0)
    (apart : Apart (fs ++ gs)) : systemProduct gs (ofFactors fs) = .ok (ofFactors (fs ++ gs)) := by
  induction gs generalizing fs with
  | nil => rw [List.append_nil, systemProduct]
  | cons g gs ih =>
    have factors : AreFactors (fs ++ g :: gs) := areFactors_of_kind IsAtom.isFactor atoms
    have shifted : fs ++ g :: gs = fs ++ [g] ++ gs := List.append_cons fs g gs
    rw [shifted] at apart atoms ⊢
    have joined : (ofFactors fs).mul (ofFactors [g]) = .ok (ofFactors (fs ++ [g])) :=
      mul_ofFactors (fun f hf => factors f (by simp [hf]))
        (fun f hf => List.mem_singleton.1 hf ▸ factors g (by simp)) (List.pairwise_append.1 apart).1
    obtain ⟨unit, n⟩ := g
    have atom : unit.IsAtom := (atoms ⟨unit, n⟩ (by simp)).1
    rw [systemProduct, atom.systemPower]
    change ((ofFactors fs).mul (ofFactors [⟨unit, n⟩]) >>= systemProduct gs) = _
    rw [joined]
    exact ih atoms apart

/-- A product of different base and alternate units is its own system unit. -/
theorem IsSystem.systemUnit (h : s.IsSystem) : s.systemUnit = .ok s := by
  obtain ⟨fs, rfl, apart, atoms⟩ := h
  by_cases single : fs.map (·.power) = [Power.one]
  · obtain ⟨⟨u, n⟩, rfl, power⟩ := List.map_eq_singleton_iff.1 single
    cases power
    exact (atoms _ (List.mem_singleton_self _)).1.systemUnit
  · have whole : systemProduct fs (ofFactors []) = .ok (ofFactors fs) :=
      systemProduct_of_apart atoms apart
    rwa [ofFactors_eq_product (fun f hf => (atoms f hf).2) single] at whole ⊢

/-- The forms that system units have. -/
theorem IsSystem.cases (h : s.IsSystem) :
    s.IsAtom ∨ s = one ∨ ∃ fs, s = product fs ∧ ∀ f ∈ fs, f.unit.IsAtom := by
  obtain ⟨fs, rfl, -, atoms⟩ := h
  by_cases single : fs.map (·.power) = [Power.one]
  · obtain ⟨⟨u, n⟩, rfl, power⟩ := List.map_eq_singleton_iff.1 single
    cases power
    exact Or.inl (atoms _ (List.mem_singleton_self _)).1
  · exact Or.inr (Or.inr ⟨fs, ofFactors_eq_product (fun f hf => (atoms f hf).2) single,
      fun f hf => (atoms f hf).1⟩)

/-! ### Transforms and notes -/

theorem systemUnit_transform (u : MeasureUnit) (c : Converter) :
    (u.transform c).systemUnit = u.systemUnit := by
  unfold transform
  split
  · rfl
  · split
    · dsimp only
      split <;> rfl
    · dsimp only
      split <;> rfl

theorem systemUnit_annotate {note : String} (ok : u.annotate note = .ok w) :
    w.systemUnit = u.systemUnit := by
  obtain ⟨-, rfl⟩ := annotate_eq_ok.1 ok
  rfl

/-! ### Products and powers -/

theorem degree_mul {x : MeasureUnit} (hu : u.IsDistinct) (hv : v.IsDistinct) (ok : u.mul v = .ok w) :
    degree x w = degree x u + degree x v :=
  congrArg Multiplicative.toAdd ((occurrences x).weight_mul hu hv ok)

theorem degree_pow {x : MeasureUnit} (hu : u.IsDistinct) (ok : u.pow n = .ok w) :
    degree x w = n.val * degree x u :=
  (congrArg Multiplicative.toAdd ((occurrences x).weight_pow hu ok)).trans (toAdd_zpow _ _)

/-- The system unit of a product is the product of the system units. -/
theorem systemUnit_mul {p q : MeasureUnit} (hu : u.IsDefinite) (hv : v.IsDefinite)
    (product : u.mul v = .ok w) (hs : u.systemUnit = .ok s) (ht : v.systemUnit = .ok t)
    (hp : s.mul t = .ok p) (hq : w.systemUnit = .ok q) : (q == p) = true := by
  have ds := hu.systemUnit hs
  have dt := hv.systemUnit ht
  have dw := hu.mul hv product
  refine (dw.systemUnit hq).beq_of_degree (ds.mul dt hp) (isSystem_systemUnit hq)
    ((isSystem_systemUnit hs).mul (isSystem_systemUnit ht) hp) fun x => ?_
  rw [degree_systemUnit dw.isDistinct hq, degree_mul hu.isDistinct hv.isDistinct product,
    degree_mul ds.isDistinct dt.isDistinct hp, degree_systemUnit hu.isDistinct hs,
    degree_systemUnit hv.isDistinct ht]

/-- The system unit of a power is the power of the system unit. -/
theorem systemUnit_pow {p q : MeasureUnit} (hu : u.IsDefinite) (power : u.pow n = .ok w)
    (hs : u.systemUnit = .ok s) (hp : s.pow n = .ok p) (hq : w.systemUnit = .ok q) :
    (q == p) = true := by
  have ds := hu.systemUnit hs
  have dw := hu.pow power
  refine (dw.systemUnit hq).beq_of_degree (ds.pow hp) (isSystem_systemUnit hq)
    ((isSystem_systemUnit hs).pow hp) fun x => ?_
  rw [degree_systemUnit dw.isDistinct hq, degree_pow hu.isDistinct power, degree_pow ds.isDistinct hp,
    degree_systemUnit hu.isDistinct hs]

/-- Unwinding is an idempotent homomorphism. It ends at products of base and alternate units, which are
unwound already; it goes through products and powers, and is blind to transforms and notes. The
converters may have NaNs in them, as long as alternate units equal themselves. -/
theorem systemUnit_homomorphism {u v : MeasureUnit} (hu : u.IsDefinite) (hv : v.IsDefinite) :
    (∀ s, u.systemUnit = .ok s →
      (s.IsAtom ∨ s = one ∨ ∃ fs, s = .product fs ∧ ∀ f ∈ fs, f.unit.IsAtom) ∧
      s.systemUnit = .ok s ∧ (s == s) = true) ∧
    (∀ w s t p q, u.mul v = .ok w → u.systemUnit = .ok s → v.systemUnit = .ok t → s.mul t = .ok p →
      w.systemUnit = .ok q → (q == p) = true) ∧
    (∀ (n : Power) w s p q, u.pow n = .ok w → u.systemUnit = .ok s → s.pow n = .ok p →
      w.systemUnit = .ok q → (q == p) = true) ∧
    (∀ c, (u.transform c).systemUnit = u.systemUnit) ∧
    (∀ note w, u.annotate note = .ok w → w.systemUnit = u.systemUnit) := by
  refine ⟨fun s hs => ?_, fun w s t p q => systemUnit_mul hu hv, fun n w s p q => systemUnit_pow hu,
    systemUnit_transform u, fun note w => systemUnit_annotate⟩
  have system := isSystem_systemUnit hs
  have definite := hu.systemUnit hs
  exact ⟨system.cases, system.systemUnit, definite.beq_of_degree definite system system fun _ => rfl⟩

/-- Milliseconds per second have no dimension, but times a second kilometre they are a kilometre
millisecond, which unwinds to a metre second. -/
theorem systemUnit_homomorphism_second :
    let ms := (base "s").transform (.ratio ⟨1, 1000, by decide, by decide, by decide⟩)
    let u := product [⟨base "s", Power.one⟩, ⟨kilometre, Power.one⟩]
    let v := product [⟨ms, Power.one⟩, ⟨base "s", Power.negOne⟩]
    (u.IsDefinite ∧ v.IsDefinite) ∧
    (∃ w s p q, u.mul v = .ok w ∧ u.systemUnit = .ok s ∧ v.systemUnit = .ok one ∧
      s.mul one = .ok p ∧ w.systemUnit = .ok q ∧ (q == p) = true ∧ s.systemUnit = .ok s) ∧
    (∃ w s p q, u.pow ⟨-2, by decide, by decide⟩ = .ok w ∧ u.systemUnit = .ok s ∧
      s.pow ⟨-2, by decide, by decide⟩ = .ok p ∧ w.systemUnit = .ok q ∧ (q == p) = true) := by
  intro ms u v
  have millisecond : ms.IsBuilt := .transform _ (.base "s")
  have hu : u.IsDefinite :=
    (IsBuilt.mul (.base "s") isBuilt_kilometre rfl).isDefinite (by decide +kernel)
  have hv : v.IsDefinite := (IsBuilt.div millisecond (.base "s") rfl).isDefinite (by decide +kernel)
  obtain ⟨unwound, product, power, -⟩ := systemUnit_homomorphism hu hv
  exact ⟨⟨hu, hv⟩,
    ⟨_, _, _, _, rfl, rfl, rfl, rfl, rfl, product _ _ _ _ _ rfl rfl rfl rfl rfl, (unwound _ rfl).2.1⟩,
    ⟨_, _, _, _, rfl, rfl, rfl, rfl, power ⟨-2, by decide, by decide⟩ _ _ _ _ rfl rfl rfl rfl⟩⟩

end Metrology.MeasureUnit
