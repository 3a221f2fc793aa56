import Metrology.Proofs.Converter.Scalings
import Metrology.Proofs.MeasureUnit.Transform

/-!
# Products of factors

A product is a list of factors that differ. As long as no factor meets an equal one, products
and powers of units are those of the lists: `mul` appends them and `pow` multiplies each power.
What any product is made of are the units that went into it, so that the operations keep a
unit tidy.
-/
namespace Metrology

/-- A step that is run over a list succeeds if it does on each element. -/
theorem mapM_eq_ok_iff {ε α β : Type} {f : α → Except ε β} {l : List α} {l' : List β} :
    l.mapM f = .ok l' ↔ List.Forall₂ (fun a b => f a = .ok b) l l' := by
  induction l generalizing l' with
  | nil =>
    rw [List.mapM_nil, List.forall₂_nil_left_iff]
    exact ⟨fun h => (Except.ok.inj h).symm, fun h => by rw [h]; rfl⟩
  | cons a l ih =>
    simp only [List.mapM_cons, bind_ok_iff, List.forall₂_cons_left_iff, ih]
    constructor
    · rintro ⟨b, head, bs, tail, ok⟩
      cases ok
      exact ⟨b, bs, head, tail, rfl⟩
    · rintro ⟨b, bs, head, tail, rfl⟩
      exact ⟨b, head, bs, tail, rfl⟩

theorem mapM_eq_some_iff {α β : Type} {f : α → Option β} {l : List α} {l' : List β} :
    l.mapM f = some l' ↔ List.Forall₂ (fun a b => f a = some b) l l' := by
  induction l generalizing l' with
  | nil =>
    rw [List.mapM_nil, List.forall₂_nil_left_iff]
    exact ⟨fun h => (Option.some.inj h).symm, fun h => by rw [h]; rfl⟩
  | cons a l ih =>
    simp only [List.mapM_cons, Option.bind_eq_bind, Option.bind_eq_some_iff, Option.pure_def,
      Option.some.injEq, List.forall₂_cons_left_iff, ih]
    constructor
    · rintro ⟨b, head, bs, tail, rfl⟩
      exact ⟨b, bs, head, tail, rfl⟩
    · rintro ⟨b, bs, head, tail, rfl⟩
      exact ⟨b, head, bs, tail, rfl⟩

/-- Running a step that always succeeds over a list. -/
theorem mapM_eq_ok {ε α β : Type} {l : List α} {f : α → Except ε β} {g : α → β}
    (h : ∀ a ∈ l, f a = .ok (g a)) : l.mapM f = .ok (l.map g) :=
  mapM_eq_ok_iff.2 (List.forall₂_map_right_iff.2 (List.forall₂_same.2 h))

namespace MeasureUnit

variable {fs gs : List (Factor MeasureUnit)} {f : Factor MeasureUnit} {u v : MeasureUnit}

/-! ### Inserting a factor -/

/-- A factor that differs from all before it goes to the end. -/
theorem insertFactor_of_apart (h : ∀ g ∈ fs, (g.unit == f.unit) = false) :
    insertFactor fs f = .ok (fs ++ [f]) := by
  induction fs with
  | nil => rfl
  | cons g fs ih =>
    rw [insertFactor, if_neg (by simp [h g (by simp)]), ih fun k hk => h k (by simp [hk])]
    rfl

/-- Factors that differ stay as they are. -/
theorem foldlM_insertFactor_of_apart (apart : Apart (fs ++ gs)) :
    gs.foldlM insertFactor fs = .ok (fs ++ gs) := by
  induction gs generalizing fs with
  | nil => simp [pure, Except.pure]
  | cons g gs ih =>
    have front : ∀ f ∈ fs, (f.unit == g.unit) = false := fun f hf =>
      (List.pairwise_append.1 apart).2.2 f hf g (by simp)
    rw [List.foldlM_cons, insertFactor_of_apart front]
    change gs.foldlM insertFactor (fs ++ [g]) = _
    rw [ih (by simpa using apart)]
    simp

/-- Factors that differ are the factors of their product. -/
theorem ofProduct_of_apart (apart : Apart fs) : ofProduct fs = .ok (ofFactors fs) := by
  rw [ofProduct, foldlM_insertFactor_of_apart (by simpa using apart)]
  rfl

theorem powerOrOverflow_eq_ok {n : Option Power} {m : Power} :
    powerOrOverflow n = .ok m ↔ n = some m := by
  cases n <;> simp [powerOrOverflow]

/-- A factor is joined to one with an equal unit, whose unit stays, or goes to the end. -/
theorem units_of_insertFactor (h : insertFactor fs f = .ok gs) :
    gs.map (·.unit) = fs.map (·.unit) ∨
      gs.map (·.unit) = fs.map (·.unit) ++ [f.unit] ∧ ∀ g ∈ fs, (g.unit == f.unit) = false := by
  induction fs generalizing gs with
  | nil =>
    cases h
    exact Or.inr ⟨rfl, by simp⟩
  | cons g fs ih =>
    rw [insertFactor] at h
    split at h
    · obtain ⟨n, -, ok⟩ := bind_ok_iff.1 h
      cases ok
      exact Or.inl rfl
    · rename_i differ
      obtain ⟨ks, others, ok⟩ := bind_ok_iff.1 h
      cases ok
      rcases ih others with units | ⟨units, apart⟩
      · exact Or.inl (by simp [units])
      · refine Or.inr ⟨by simp [units], ?_⟩
        intro k hk
        rcases List.mem_cons.1 hk with rfl | hk
        · exact Bool.eq_false_iff.2 differ
        · exact apart k hk

theorem apart_iff_units : Apart fs ↔ (fs.map (·.unit)).Pairwise fun u v => (u == v) = false := by
  rw [Apart, List.pairwise_map]

/-- Inserting a factor keeps the others apart, as equal units are joined. -/
theorem apart_of_insertFactor (apart : Apart fs) (h : insertFactor fs f = .ok gs) : Apart gs := by
  rw [apart_iff_units] at apart ⊢
  rcases units_of_insertFactor h with units | ⟨units, differ⟩
  · rw [units]
    exact apart
  · rw [units, List.pairwise_append]
    refine ⟨apart, List.pairwise_singleton _ _, ?_⟩
    intro u hu v hv
    obtain ⟨g, hg, rfl⟩ := List.mem_map.1 hu
    rw [List.mem_singleton.1 hv]
    exact differ g hg

theorem foldlM_insertFactor_ok {ks : List (Factor MeasureUnit)} (apart : Apart fs)
    (h : gs.foldlM insertFactor fs = .ok ks) :
    Apart ks ∧ ∀ k ∈ ks, k.unit ∈ fs.map (·.unit) ++ gs.map (·.unit) := by
  induction gs generalizing fs with
  | nil =>
    cases h
    exact ⟨apart, fun k hk => by simpa using ⟨k, hk, rfl⟩⟩
  | cons g gs ih =>
    rw [List.foldlM_cons] at h
    obtain ⟨fs', inserted, h⟩ := bind_ok_iff.1 h
    obtain ⟨apart', units⟩ := ih (apart_of_insertFactor apart inserted) h
    refine ⟨apart', fun k hk => ?_⟩
    have member := units k hk
    rcases units_of_insertFactor inserted with eq | ⟨eq, -⟩
    · rw [eq] at member
      simp only [List.mem_append, List.map_cons, List.mem_cons] at member ⊢
      rcases member with member | member
      · exact Or.inl member
      · exact Or.inr (Or.inr member)
    · rw [eq] at member
      simpa using member

theorem ofFactors_filter (fs : List (Factor MeasureUnit)) :
    ofFactors (fs.filter fun f => f.power.val != 0) = ofFactors fs := by
  simp only [ofFactors, List.filter_filter, Bool.and_self]

/-- A product exists if its factors can be joined. -/
theorem exists_ofProduct_iff :
    (∃ u, ofProduct fs = .ok u) ↔ ∃ ks, fs.foldlM insertFactor [] = .ok ks := by
  constructor
  · rintro ⟨u, ok⟩
    obtain ⟨ks, joined, -⟩ := bind_ok_iff.1 ok
    exact ⟨ks, joined⟩
  · rintro ⟨ks, joined⟩
    exact ⟨_, bind_ok_iff.2 ⟨ks, joined, rfl⟩⟩

/-- A product is that of factors that differ, with powers other than zero, all with units that went into
it. They are what joining has left. -/
theorem exists_of_ofProduct (h : ofProduct fs = .ok u) :
    ∃ ks gs, fs.foldlM insertFactor [] = .ok ks ∧ gs = ks.filter (fun k => k.power.val != 0) ∧
      u = ofFactors gs ∧ Apart gs ∧ ∀ g ∈ gs, (∃ f ∈ fs, f.unit = g.unit) ∧ g.power.val ≠ 0 := by
  obtain ⟨ks, folded, ok⟩ := bind_ok_iff.1 h
  cases ok
  obtain ⟨apart, units⟩ := foldlM_insertFactor_ok List.Pairwise.nil folded
  refine ⟨ks, _, folded, rfl, (ofFactors_filter ks).symm, List.Pairwise.filter _ apart, fun g hg => ?_⟩
  obtain ⟨member, power⟩ := List.mem_filter.1 hg
  exact ⟨by simpa using units g member, by simpa using power⟩

/-! ### The product of a list -/

def AreFactors (fs : List (Factor MeasureUnit)) : Prop :=
  ∀ f ∈ fs, f.unit.IsFactor ∧ f.power.val ≠ 0

@[simp] theorem ofFactors_nil : ofFactors [] = one := rfl

@[simp] theorem ofFactors_singleton_one : ofFactors [⟨u, Power.one⟩] = u := rfl

/-- Powers other than zero that are not just one with power one make a product. -/
theorem ofFactors_eq_product (powers : ∀ f ∈ fs, f.power.val ≠ 0)
    (several : fs.map (·.power) ≠ [Power.one]) : ofFactors fs = product fs := by
  have kept : (fs.filter fun f => f.power.val != 0) = fs :=
    List.filter_eq_self.2 fun f hf => by simpa using powers f hf
  rw [ofFactors, kept]
  split
  · rename_i f
    rw [if_neg]
    intro single
    refine several ?_
    rw [List.map_singleton, show f.power = Power.one from Power.ext single]
  · rfl

theorem ofFactors_of_makesProduct (h : MakesProduct fs) : ofFactors fs = product fs :=
  ofFactors_eq_product (fun f hf => (h.2.1 f hf).2) h.2.2

/-- A list of factors makes a product, or is one unit with power one. -/
theorem makesProduct_or_singleton (h : AreFactors fs) (apart : Apart fs) :
    MakesProduct fs ∨ ∃ u, fs = [⟨u, Power.one⟩] := by
  by_cases single : fs.map (·.power) = [Power.one]
  · obtain ⟨⟨u, n⟩, rfl, power⟩ := List.map_eq_singleton_iff.1 single
    exact Or.inr ⟨u, by rw [show n = Power.one from power]⟩
  · exact Or.inl ⟨apart, h, single⟩

theorem factors_of_isFactor (h : u.IsFactor) : u.factors = [⟨u, Power.one⟩] := by
  cases u with
  | product fs => cases h.1
  | _ => rfl

theorem isOne_of_isFactor (h : u.IsFactor) : u.isOne = false := by
  cases u with
  | product fs => cases h.1
  | _ => rfl

theorem isOne_iff : u.isOne = true ↔ u = one := by
  constructor
  · intro h
    unfold isOne at h
    split at h
    · rfl
    · cases h
  · rintro rfl
    rfl

/-- A number is the dimensionless unit with a scaling. -/
theorem number?_eq_some {u : MeasureUnit} {c : Converter} :
    u.number? = some c ↔ ∃ mark, u = transformed one c mark ∧ c.isScale = true := by
  cases u with
  | transformed parent d mark =>
    rw [number?, Option.ite_none_right_eq_some, Bool.and_eq_true, isOne_iff]
    constructor
    · rintro ⟨⟨rfl, scale⟩, eq⟩
      cases eq
      exact ⟨mark, rfl, scale⟩
    · rintro ⟨mark, eq, scale⟩
      cases eq
      exact ⟨⟨rfl, scale⟩, rfl⟩
  | _ =>
    constructor
    · nofun
    · rintro ⟨mark, eq, -⟩
      cases eq

/-- A product has the factors that it was made of. -/
theorem factors_ofFactors (h : AreFactors fs) (apart : Apart fs) : (ofFactors fs).factors = fs := by
  rcases makesProduct_or_singleton h apart with makes | ⟨u, rfl⟩
  · rw [ofFactors_of_makesProduct makes, factors]
  · exact factors_of_isFactor (h _ (List.mem_singleton_self _)).1

theorem number?_ofFactors (h : AreFactors fs) (apart : Apart fs) : (ofFactors fs).number? = none := by
  rcases makesProduct_or_singleton h apart with makes | ⟨u, rfl⟩
  · rw [ofFactors_of_makesProduct makes]
    rfl
  · exact (h _ (List.mem_singleton_self _)).1.2

theorem isOne_ofFactors (h : AreFactors fs) (apart : Apart fs) :
    (ofFactors fs).isOne = fs.isEmpty := by
  rcases makesProduct_or_singleton h apart with makes | ⟨u, rfl⟩
  · rw [ofFactors_of_makesProduct makes]
    cases fs <;> rfl
  · exact isOne_of_isFactor (h _ (List.mem_singleton_self _)).1

theorem isTidy_ofFactors (h : AreFactors fs) (apart : Apart fs)
    (tidy : ∀ f ∈ fs, f.unit.isTidy = true) : (ofFactors fs).isTidy = true := by
  rcases makesProduct_or_singleton h apart with makes | ⟨u, rfl⟩
  · rw [ofFactors_of_makesProduct makes, isTidy_product]
    exact ⟨makes, tidy⟩
  · exact tidy _ (List.mem_singleton_self _)

/-- What a tidy unit contributes to a product. -/
theorem factors_of_isTidy (tidy : u.isTidy = true) (plain : u.number? = none) :
    AreFactors u.factors ∧ Apart u.factors ∧ (∀ f ∈ u.factors, f.unit.isTidy = true) ∧
      ofFactors u.factors = u := by
  cases u with
  | product fs =>
    obtain ⟨makes, units⟩ := isTidy_product.1 tidy
    exact ⟨makes.2.1, makes.1, units, ofFactors_of_makesProduct makes⟩
  | _ =>
    rw [factors]
    · refine ⟨fun f hf => ?_, List.pairwise_singleton _ _, fun f hf => ?_, rfl⟩
      · rw [List.mem_singleton.1 hf]
        exact ⟨⟨rfl, plain⟩, Int.one_ne_zero⟩
      · rw [List.mem_singleton.1 hf]
        exact tidy
    · nofun

/-! ### Equal factors -/

theorem isProduct_congr (h : (u == v) = true) : u.isProduct = v.isProduct := by
  cases u <;> cases v <;> first | rfl | cases h

theorem isOne_congr (h : (u == v) = true) : u.isOne = v.isOne := by
  cases u with
  | product fs =>
    cases v with
    | product gs =>
      have length := (product_beq_product.1 h).1
      cases fs <;> cases gs <;> first | rfl | cases length
    | _ => cases h
  | _ => cases v <;> first | rfl | cases h

theorem isScale_congr {c d : Converter} (h : (c == d) = true) : c.isScale = d.isScale := by
  induction c generalizing d with
  | pair a b iha ihb =>
    cases d with
    | pair a' b' =>
      obtain ⟨outer, inner⟩ := Converter.pair_beq_pair.1 h
      rw [Converter.isScale, Converter.isScale, iha outer, ihb inner]
    | _ => cases h
  | _ => cases d <;> first | rfl | cases h

/-- A unit equal to a factor is a factor. -/
theorem IsFactor.of_beq (h : u.IsFactor) (same : (u == v) = true) : v.IsFactor := by
  refine ⟨(isProduct_congr same).symm.trans h.1, ?_⟩
  cases v with
  | transformed q d n =>
    cases u with
    | transformed p c m =>
      rw [transformed_beq_transformed, Bool.and_eq_true] at same
      have scale : c.isScale = d.isScale :=
        (beq_or_eq_of_sameConverter same.2).elim isScale_congr (congrArg _)
      have none := h.2
      rw [number?, isOne_congr same.1, scale, ite_eq_right_iff] at none
      rw [number?, if_neg]
      intro number
      cases none number
    | _ => cases same
  | _ => rfl

/-- The order of factors that differ does not matter. -/
theorem Apart.perm (apart : Apart fs) (tidy : ∀ f ∈ fs, f.unit.isTidy = true) (perm : fs.Perm gs) :
    Apart gs := by
  have both := apart.both fun f hf => isDistinct_of_isTidy (tidy f hf)
  exact (perm.pairwise both fun h => ⟨h.2, h.1⟩).imp And.left

section Matching

variable {value : Factor MeasureUnit → MeasureUnit}

/-- Equal units still differ where the units did. -/
theorem Apart.map (apart : Apart fs) (tidy : ∀ f ∈ fs, f.unit.isTidy = true)
    (same : ∀ f ∈ fs, (f.unit == value f) = true) :
    (fs.map value).Pairwise fun u v => (u == v) = false := by
  rw [List.pairwise_map]
  refine apart.imp_of_mem fun {f g} hf hg differ => ?_
  rw [← Bool.not_eq_true] at differ ⊢
  exact fun equal => differ (beq_trans (beq_trans (same f hf) equal)
    (beq_symm (tidy g hg) (same g hg)))

/-- A product equals the product of equal factors in any order. -/
theorem product_beq_ofFactors (tidy : (product fs).isTidy = true) (perm : fs.Perm gs)
    (same : ∀ f ∈ fs, (f.unit == value f) = true) (values : ∀ f ∈ fs, (value f).isTidy = true) :
    (product fs == ofFactors (gs.map fun f => ⟨value f, f.power⟩)) = true ∧
      (ofFactors (gs.map fun f => ⟨value f, f.power⟩)).isTidy = true := by
  obtain ⟨⟨apart, factors, powers⟩, units⟩ := isTidy_product.1 tidy
  have member (f : Factor MeasureUnit) (hf : f ∈ gs) : f ∈ fs := perm.mem_iff.2 hf
  have makes : MakesProduct (gs.map fun f => ⟨value f, f.power⟩) := by
    refine ⟨?_, fun g hg => ?_, fun single => powers ?_⟩
    · rw [apart_iff_units, List.map_map]
      exact (apart.perm units perm).map (fun f hf => units f (member f hf))
        fun f hf => same f (member f hf)
    · obtain ⟨f, hf, rfl⟩ := List.mem_map.1 hg
      obtain ⟨factor, nonzero⟩ := factors f (member f hf)
      exact ⟨factor.of_beq (same f (member f hf)), nonzero⟩
    · rw [List.map_map] at single
      have permuted := perm.map (·.power)
      rw [show gs.map (·.power) = [Power.one] from single] at permuted
      exact List.perm_singleton.1 permuted
  rw [ofFactors_of_makesProduct makes, product_beq_product, isTidy_product]
  refine ⟨⟨?_, fun f hf => ?_⟩, makes, fun g hg => ?_⟩
  · rw [List.length_map]
    exact perm.length_eq
  · exact ⟨⟨value f, f.power⟩, List.mem_map_of_mem (perm.mem_iff.1 hf), same f hf, rfl⟩
  · obtain ⟨f, hf, rfl⟩ := List.mem_map.1 hg
    exact values f (member f hf)

end Matching

/-! ### Multiplying and raising lists -/

/-- The product of units without a common factor has the factors of both. -/
theorem mul_ofFactors (h : AreFactors fs) (h' : AreFactors gs) (apart : Apart (fs ++ gs)) :
    (ofFactors fs).mul (ofFactors gs) = .ok (ofFactors (fs ++ gs)) := by
  obtain ⟨apartLeft, apartRight, -⟩ := List.pairwise_append.1 apart
  rw [mul, isOne_ofFactors h apartLeft, isOne_ofFactors h' apartRight,
    number?_ofFactors h apartLeft, number?_ofFactors h' apartRight,
    factors_ofFactors h apartLeft, factors_ofFactors h' apartRight]
  cases fs with
  | nil => rfl
  | cons f fs =>
    cases gs with
    | nil =>
      rw [List.append_nil]
      rfl
    | cons g gs => exact ofProduct_of_apart apart

/-- A factor is raised by multiplying its power. -/
theorem raise_eq_ok_iff {g : Factor MeasureUnit} {n : Power} :
    raise n f = .ok g ↔ f.unit = g.unit ∧ g.power.val = f.power.val * n.val := by
  obtain ⟨unit, power⟩ := g
  simp only [raise, bind_ok_iff, powerOrOverflow_eq_ok, Power.mul?, Power.ofInt?_eq_some_iff]
  constructor
  · rintro ⟨m, product, ok⟩
    cases ok
    exact ⟨rfl, product⟩
  · rintro ⟨rfl, product⟩
    exact ⟨power, product, rfl⟩

/-- Whether the second list has the units of the first, with their powers times `x`. -/
def IsMultiple (x : Int) (fs gs : List (Factor MeasureUnit)) : Prop :=
  List.Forall₂ (fun f g => f.unit = g.unit ∧ g.power.val = f.power.val * x) fs gs

/-- Raising all factors multiplies all powers, if these stay in range. -/
theorem mapM_raise_eq_ok_iff {n : Power} :
    fs.mapM (raise n) = .ok gs ↔ IsMultiple n.val fs gs := by
  simp only [mapM_eq_ok_iff, raise_eq_ok_iff, IsMultiple]

theorem IsMultiple.units {x : Int} (h : IsMultiple x fs gs) :
    fs.map (·.unit) = gs.map (·.unit) := by
  induction h with
  | nil => rfl
  | cons head _ ih => rw [List.map_cons, List.map_cons, head.1, ih]

/-- The power of a product is the product of the powers. -/
theorem pow_ofFactors {n : Power} (h : AreFactors fs) (apart : Apart fs)
    (raised : fs.mapM (raise n) = .ok gs) (same : gs.map (·.unit) = fs.map (·.unit)) :
    (ofFactors fs).pow n = .ok (ofFactors gs) := by
  rw [pow, number?_ofFactors h apart, factors_ofFactors h apart, raised]
  refine ofProduct_of_apart ?_
  rw [apart_iff_units, same, ← apart_iff_units]
  exact apart

/-- The power of a single factor. -/
theorem pow_of_isFactor {n : Power} (h : u.IsFactor) : u.pow n = .ok (ofFactors [⟨u, n⟩]) := by
  rw [← ofFactors_singleton_one (u := u)]
  refine pow_ofFactors ?_ (List.pairwise_singleton _ _) ?_ rfl
  · intro f hf
    rw [List.mem_singleton.1 hf]
    exact ⟨h, Int.one_ne_zero⟩
  · rw [mapM_eq_ok (g := fun f => ⟨f.unit, n⟩)]
    · rfl
    · intro f hf
      rw [List.mem_singleton.1 hf]
      exact raise_eq_ok_iff.2 ⟨rfl, (Int.one_mul _).symm⟩

theorem div_eq_ok {w : MeasureUnit} :
    u.div v = .ok w ↔ ∃ r, v.reciprocal = .ok r ∧ u.mul r = .ok w :=
  bind_ok_iff

/-- Dividing products without a common factor puts the factors of the divisor behind, with
negated powers. -/
theorem div_ofFactors {ks : List (Factor MeasureUnit)} (h : AreFactors fs) (h' : AreFactors gs)
    (apart : Apart (fs ++ gs)) (negated : gs.mapM (raise Power.negOne) = .ok ks)
    (same : ks.map (·.unit) = gs.map (·.unit)) (nonzero : ∀ k ∈ ks, k.power.val ≠ 0) :
    (ofFactors fs).div (ofFactors gs) = .ok (ofFactors (fs ++ ks)) := by
  have apartRight : Apart gs := (List.pairwise_append.1 apart).2.1
  have factors : AreFactors ks := by
    intro k hk
    have member : k.unit ∈ gs.map (·.unit) := by
      rw [← same]
      exact List.mem_map_of_mem hk
    obtain ⟨g, hg, eq⟩ := List.mem_map.1 member
    exact ⟨eq ▸ (h' g hg).1, nonzero k hk⟩
  refine div_eq_ok.2 ⟨_, pow_ofFactors h' apartRight negated same, mul_ofFactors h factors ?_⟩
  rw [apart_iff_units, List.map_append, same, ← List.map_append, ← apart_iff_units]
  exact apart

/-! ### The operations keep a unit tidy -/

/-- A product of tidy factors is tidy. -/
theorem isTidy_ofProduct (h : ∀ f ∈ fs, f.unit.IsFactor ∧ f.unit.isTidy = true)
    (ok : ofProduct fs = .ok u) : u.isTidy = true := by
  obtain ⟨-, gs, -, -, rfl, apart, units⟩ := exists_of_ofProduct ok
  have kept : ∀ g ∈ gs, g.unit.IsFactor ∧ g.unit.isTidy = true := by
    intro g hg
    obtain ⟨f, hf, same⟩ := (units g hg).1
    exact same ▸ h f hf
  exact isTidy_ofFactors (fun g hg => ⟨(kept g hg).1, (units g hg).2⟩) apart fun g hg => (kept g hg).2

theorem isTidy_one : one.isTidy = true := by
  decide +kernel

/-- The factors of a tidy unit are no products or numbers themselves. -/
theorem isFactor_of_factors (tidy : u.isTidy = true) (plain : u.number? = none) :
    ∀ f ∈ u.factors, f.unit.IsFactor ∧ f.unit.isTidy = true := by
  obtain ⟨factors, -, units, -⟩ := factors_of_isTidy tidy plain
  exact fun f hf => ⟨(factors f hf).1, units f hf⟩

/-- Multiplying keeps units tidy. -/
theorem isTidy_mul {w : MeasureUnit} (hu : u.isTidy = true) (hv : v.isTidy = true)
    (ok : u.mul v = .ok w) : w.isTidy = true := by
  unfold mul at ok
  split at ok
  · cases ok
    exact hv
  · split at ok
    · cases ok
      exact hu
    · split at ok
      · cases ok
        exact isTidy_transform hv _
      · cases ok
        exact isTidy_transform hu _
      · rename_i plain plain'
        refine isTidy_ofProduct (fun f hf => ?_) ok
        rcases List.mem_append.1 hf with hf | hf
        · exact isFactor_of_factors hu plain f hf
        · exact isFactor_of_factors hv plain' f hf

/-- Each raised factor is a factor with its power multiplied. -/
theorem mem_of_mapM_raise {n : Power} (ok : fs.mapM (raise n) = .ok gs) :
    ∀ g ∈ gs, ∃ f ∈ fs, f.unit = g.unit := by
  intro g hg
  obtain ⟨f, hf, same, -⟩ := exists_of_forall₂ (mapM_raise_eq_ok_iff.1 ok) g hg
  exact ⟨f, hf, same⟩

theorem isTidy_pow {n : Power} {w : MeasureUnit} (tidy : u.isTidy = true)
    (ok : u.pow n = .ok w) : w.isTidy = true := by
  unfold pow at ok
  split at ok
  · split at ok
    · cases ok
      exact isTidy_transform isTidy_one _
    · cases ok
  · rename_i plain
    obtain ⟨gs, raised, ok⟩ := bind_ok_iff.1 ok
    refine isTidy_ofProduct (fun g hg => ?_) ok
    obtain ⟨f, hf, same⟩ := mem_of_mapM_raise raised g hg
    exact same ▸ isFactor_of_factors tidy plain f hf

theorem isTidy_div {w : MeasureUnit} (hu : u.isTidy = true) (hv : v.isTidy = true)
    (ok : u.div v = .ok w) : w.isTidy = true := by
  obtain ⟨r, reciprocal, ok⟩ := div_eq_ok.1 ok
  exact isTidy_mul hu (isTidy_pow hv reciprocal) ok

end MeasureUnit

end Metrology
