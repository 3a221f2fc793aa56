import Metrology.Proofs.MeasureUnit.Equivalence
import Metrology.Proofs.MeasureUnit.Exponents
import Metrology.Proofs.MeasureUnit.Representation

/-!
# The group of units

Units that are no numbers multiply like the elements of an abelian group, as far as their powers stay
in range. A product is settled by its exponents, and those of a product are the sums; so each law of
multiplication is one of addition. Whether a product exists is a matter of exponents, too: each sum
has to be in range, in whatever order the factors are joined.
-/
namespace Metrology.MeasureUnit

variable {a b c u v w t x y : MeasureUnit} {f : Factor MeasureUnit}
  {fs gs ks : List (Factor MeasureUnit)} {k m n : Power}

/-! ### When factors can be joined -/

def IsPower (z : ℤ) : Prop := ∃ n : Power, n.val = z

theorem exists_sum_iff {p q : Power} :
    (∃ n, powerOrOverflow (p.add? q) = .ok n) ↔ IsPower (p.val + q.val) :=
  exists_congr fun _ => powerOrOverflow_eq_ok.trans Power.ofInt?_eq_some_iff

/-- Among different factors an exponent is in range: it is zero or the power of a factor. -/
theorem isPower_exponent (apart : Apart fs) (distinct : t.IsDistinct) : IsPower (exponent t fs) := by
  by_cases zero : exponent t fs = 0
  · exact ⟨⟨0, by decide, by decide⟩, zero.symm⟩
  · obtain ⟨g, hg, same⟩ := exists_of_exponent_ne_zero zero
    exact ⟨g.power, (exponent_of_mem apart distinct hg same).symm⟩

/-- A factor can be joined to different ones if the sum with the exponent of its unit is in range. -/
theorem exists_insertFactor_iff (apart : Apart fs) (distinct : ∀ g ∈ fs, g.unit.IsDistinct)
    (last : f.unit.IsDistinct) :
    (∃ ks, insertFactor fs f = .ok ks) ↔ IsPower (exponent f.unit fs + f.power.val) := by
  induction fs with
  | nil => exact iff_of_true ⟨_, rfl⟩ ⟨f.power, (zero_add _).symm⟩
  | cons g fs ih =>
    rw [insertFactor]
    split
    · rename_i same
      have back := (distinct g (by simp)).beq_symm same
      rw [exponent_of_mem apart last (by simp) back, ← exists_sum_iff]
      constructor
      · rintro ⟨ks, ok⟩
        obtain ⟨n, sum, -⟩ := bind_ok_iff.1 ok
        exact ⟨n, sum⟩
      · rintro ⟨n, sum⟩
        exact ⟨_, bind_ok_iff.2 ⟨n, sum, rfl⟩⟩
    · rename_i differ
      have other : ¬ (f.unit == g.unit) = true := fun same => differ (last.beq_symm same)
      rw [exponent_cons, if_neg other, zero_add,
        ← ih (List.pairwise_cons.1 apart).2 fun k hk => distinct k (by simp [hk])]
      constructor
      · rintro ⟨ks, ok⟩
        obtain ⟨ls, others, -⟩ := bind_ok_iff.1 ok
        exact ⟨ls, others⟩
      · rintro ⟨ls, others⟩
        exact ⟨_, bind_ok_iff.2 ⟨ls, others, rfl⟩⟩

/-- Inserting a factor adds its exponents. -/
theorem exponent_insertFactor (distinct : ∀ g ∈ fs, g.unit.IsDistinct)
    (ok : insertFactor fs f = .ok ks) : exponent t ks = exponent t fs + exponent t [f] := by
  simp only [exponent, productValue_insertFactor (isShared_indicator t) distinct ok, toAdd_mul,
    productValue_singleton]

/-- Different factors can be joined to different ones if all sums of exponents are in range. That the
sums are taken one after the other does not matter, because no unit takes part in two of them. -/
theorem exists_foldlM_insertFactor_iff (apart : Apart fs) (apart' : Apart gs)
    (distinct : ∀ f ∈ fs, f.unit.IsDistinct)
    (kind : ∀ g ∈ gs, g.unit.IsDistinct ∧ (g.unit == g.unit) = true) :
    (∃ ks, gs.foldlM insertFactor fs = .ok ks) ↔
      ∀ t : MeasureUnit, t.IsDistinct → IsPower (exponent t fs + exponent t gs) := by
  induction gs generalizing fs with
  | nil =>
    refine iff_of_true ⟨fs, rfl⟩ fun t ht => ?_
    rw [exponent_nil, add_zero]
    exact isPower_exponent apart ht
  | cons g gs ih =>
    obtain ⟨last, self⟩ := kind g (by simp)
    have step (ks : List (Factor MeasureUnit)) (inserted : insertFactor fs g = .ok ks) :
        (∃ ls, gs.foldlM insertFactor ks = .ok ls) ↔
          ∀ t : MeasureUnit, t.IsDistinct → IsPower (exponent t fs + exponent t (g :: gs)) := by
      rw [ih (apart_of_insertFactor apart inserted) (List.pairwise_cons.1 apart').2
        (isDistinct_of_insertFactor distinct last inserted) fun k hk => kind k (by simp [hk])]
      simp only [exponent_insertFactor distinct inserted, ← exponent_append, List.append_assoc,
        List.singleton_append]
    constructor
    · rintro ⟨ls, ok⟩
      rw [List.foldlM_cons] at ok
      obtain ⟨ks, inserted, ok⟩ := bind_ok_iff.1 ok
      exact (step ks inserted).1 ⟨ls, ok⟩
    · intro sums
      have first := sums g.unit last
      rw [exponent_of_mem apart' last (by simp) self] at first
      obtain ⟨ks, inserted⟩ := (exists_insertFactor_iff apart distinct last).2 first
      obtain ⟨ls, ok⟩ := (step ks inserted).2 sums
      rw [List.foldlM_cons]
      exact ⟨ls, bind_ok_iff.2 ⟨ks, inserted, ok⟩⟩

/-- Two products can be joined exactly if all sums of exponents are powers. -/
theorem exists_ofProduct_append_iff (apart : Apart fs) (apart' : Apart gs)
    (distinct : ∀ f ∈ fs, f.unit.IsDistinct)
    (kind : ∀ g ∈ gs, g.unit.IsDistinct ∧ (g.unit == g.unit) = true) :
    (∃ u, ofProduct (fs ++ gs) = .ok u) ↔
      ∀ t : MeasureUnit, t.IsDistinct → IsPower (exponent t fs + exponent t gs) := by
  rw [← exists_foldlM_insertFactor_iff apart apart' distinct kind]
  have joined : (fs ++ gs).foldlM insertFactor [] = gs.foldlM insertFactor fs := by
    rw [List.foldlM_append, foldlM_insertFactor_of_apart (by simpa using apart), List.nil_append]
    rfl
  rw [exists_ofProduct_iff, joined]

/-! ### Failing by overflow alone -/

/-- Whether a step fails only because a power is out of range. -/
def OnlyOverflows {α : Type} (step : Except Error α) : Prop :=
  ∀ e, step = .error e → e = .exponentOverflow

theorem onlyOverflows_ok {α : Type} (value : α) : OnlyOverflows (.ok value) := nofun

theorem OnlyOverflows.bind {α β : Type} {step : Except Error α} {next : α → Except Error β}
    (h : OnlyOverflows step) (h' : ∀ value, OnlyOverflows (next value)) :
    OnlyOverflows (step >>= next) := by
  cases step with
  | error e => exact fun e' failed => h e' (by cases failed; rfl)
  | ok value => exact h' value

theorem onlyOverflows_powerOrOverflow (n : Option Power) : OnlyOverflows (powerOrOverflow n) := by
  cases n with
  | none => exact fun e failed => (Except.error.inj failed).symm
  | some n => exact onlyOverflows_ok n

theorem onlyOverflows_insertFactor (fs : List (Factor MeasureUnit)) (f : Factor MeasureUnit) :
    OnlyOverflows (insertFactor fs f) := by
  induction fs with
  | nil => exact onlyOverflows_ok _
  | cons g fs ih =>
    rw [insertFactor]
    split
    · exact (onlyOverflows_powerOrOverflow _).bind fun _ => onlyOverflows_ok _
    · exact ih.bind fun _ => onlyOverflows_ok _

/-- A product of any factors fails only if a power is out of range. -/
theorem onlyOverflows_ofProduct (fs : List (Factor MeasureUnit)) : OnlyOverflows (ofProduct fs) := by
  have fold (gs : List (Factor MeasureUnit)) : OnlyOverflows (fs.foldlM insertFactor gs) := by
    induction fs generalizing gs with
    | nil => exact onlyOverflows_ok gs
    | cons f fs ih =>
      rw [List.foldlM_cons]
      exact (onlyOverflows_insertFactor gs f).bind ih
  exact (fold []).bind fun _ => onlyOverflows_ok _

/-! ### Units with given exponents -/

/-- Whether a unit is a product of units that equal themselves, with exponents `e`. -/
def HasExponents (u : MeasureUnit) (e : MeasureUnit → ℤ) : Prop :=
  u.IsProductOf IsGenerator ∧ ∀ t, exponent t u.factors = e t

namespace HasExponents

variable {d e : MeasureUnit → ℤ}

theorem mul (hu : u.HasExponents d) (hv : v.HasExponents e) (ok : u.mul v = .ok w) :
    w.HasExponents fun t => d t + e t :=
  ⟨hu.1.mul IsGenerator.isFactor hv.1 ok, fun t => by rw [hu.1.exponent_mul hv.1 ok, hu.2, hv.2]⟩

theorem pow (hu : u.HasExponents e) (ok : u.pow n = .ok w) : w.HasExponents fun t => n.val * e t :=
  ⟨hu.1.pow IsGenerator.isFactor ok, fun t => by rw [hu.1.exponent_pow ok, hu.2]⟩

/-- Exponents settle a product. -/
theorem beq (hu : u.HasExponents d) (hv : v.HasExponents e) (same : ∀ t, d t = e t) :
    (u == v) = true :=
  hu.1.beq_of_exponent hv.1 fun t => by rw [hu.2, hv.2, same]

/-- A product exists if the sums of the exponents are in range. -/
theorem exists_mul_iff (hu : u.HasExponents d) (hv : v.HasExponents e) :
    (∃ w, u.mul v = .ok w) ↔ ∀ t : MeasureUnit, t.IsDistinct → IsPower (d t + e t) := by
  obtain ⟨-, apart, kind⟩ := hu.1.factors IsGenerator.isFactor
  obtain ⟨-, apart', kind'⟩ := hv.1.factors IsGenerator.isFactor
  rw [hu.1.mul_eq IsGenerator.isFactor hv.1, exists_ofProduct_append_iff apart apart'
    (fun f hf => (kind f hf).1.2.1) fun g hg => (kind' g hg).1.2]
  simp only [hu.2, hv.2]

/-- A product that does not exist has a power out of range. -/
theorem mul_eq_error (hu : u.HasExponents d) (hv : v.HasExponents e)
    (none : ¬ ∃ w, u.mul v = .ok w) : u.mul v = .error .exponentOverflow := by
  cases product : u.mul v with
  | ok w => exact absurd ⟨w, product⟩ none
  | error cause =>
    rw [hu.1.mul_eq IsGenerator.isFactor hv.1] at product
    rw [onlyOverflows_ofProduct _ cause product]

/-- Factors can be exchanged: both products exist and are equal, or neither exists. -/
theorem mul_comm (hu : u.HasExponents d) (hv : v.HasExponents e) :
    (∃ x y, u.mul v = .ok x ∧ v.mul u = .ok y ∧ (x == y) = true) ∨
      (u.mul v = .error .exponentOverflow ∧ v.mul u = .error .exponentOverflow) := by
  have both : (∃ x, u.mul v = .ok x) ↔ ∃ y, v.mul u = .ok y := by
    rw [hu.exists_mul_iff hv, hv.exists_mul_iff hu]
    simp only [add_comm]
  by_cases product : ∃ x, u.mul v = .ok x
  · obtain ⟨y, product'⟩ := both.1 product
    obtain ⟨x, product⟩ := product
    have same := (hu.mul hv product).beq (hv.mul hu product') fun _ => add_comm _ _
    exact Or.inl ⟨x, y, product, product', same⟩
  · exact Or.inr ⟨hu.mul_eq_error hv product, hv.mul_eq_error hu (mt both.2 product)⟩

/-- A unit divided by itself leaves nothing. -/
theorem div_self (hu : u.HasExponents e) (ok : u.div u = .ok w) : w = one := by
  obtain ⟨r, reciprocal, ok⟩ := div_eq_ok.1 ok
  have quotient := hu.mul (hu.pow reciprocal) ok
  refine quotient.1.eq_one_of_exponent fun t => (quotient.2 t).trans ?_
  change e t + -1 * e t = 0
  rw [neg_one_mul, add_neg_cancel]

end HasExponents

/-! ### The laws -/

/-- Factors equal themselves if the unit does. -/
theorem IsDistinct.beq_self_of_mem_factors (distinct : u.IsDistinct) (self : (u == u) = true) :
    ∀ f ∈ u.factors, (f.unit == f.unit) = true := by
  intro f hf
  cases distinct with
  | product _ units =>
    obtain ⟨g, -, same, -⟩ := (product_beq_product.1 self).2 f hf
    exact beq_trans same ((units f hf).beq_symm same)
  | _ => rwa [List.mem_singleton.1 hf]

/-- A unit that is no number and has neither products nor numbers as factors is the product of its
factors. -/
theorem IsRegular.isProductOf {P : MeasureUnit → Prop} (regular : u.IsRegular)
    (plain : u.number? = none) (factors : ∀ fs, u = .product fs → ∀ f ∈ fs, f.unit.IsFactor)
    (kind : ∀ f ∈ u.factors, f.unit.IsFactor → P f.unit) : u.IsProductOf P := by
  have alone (single : u.isProduct = false) : u.IsProductOf P := by
    have factor : u.IsFactor := ⟨single, plain⟩
    rw [factors_of_isFactor factor] at kind
    refine ⟨[⟨u, Power.one⟩], rfl, List.pairwise_singleton _ _, fun f hf => ?_⟩
    have unit := kind f hf
    rw [List.mem_singleton.1 hf] at unit ⊢
    exact ⟨unit factor, Int.one_ne_zero⟩
  cases u with
  | product fs =>
    cases regular with | product apart _ powers several =>
    exact ⟨fs, (ofFactors_eq_product powers several).symm, apart, fun f hf =>
      ⟨kind f hf (factors fs rfl f hf), powers f hf⟩⟩
  | _ => exact alone rfl

/-- The factors equal themselves if the unit does. -/
theorem IsRegular.isProductOf_isGenerator (regular : u.IsRegular) (plain : u.number? = none)
    (factors : ∀ fs, u = .product fs → ∀ f ∈ fs, f.unit.IsFactor) (self : (u == u) = true) :
    u.IsProductOf IsGenerator := by
  have distinct := regular.isDistinct
  exact regular.isProductOf plain factors fun f hf factor =>
    ⟨factor, isClosed_isDistinct.factors distinct f hf, distinct.beq_self_of_mem_factors self f hf⟩

/-- Whether a unit without NaNs is neither a number nor a product with a product or number as a
factor. -/
structure IsElement (u : MeasureUnit) : Prop where
  built : u.IsBuilt
  numeric : u.IsNumeric
  plain : u.number? = none
  factors : ∀ fs, u = product fs → ∀ f ∈ fs, f.unit.IsFactor

/-- The exponents of an element are those of its factors. -/
theorem IsElement.hasExponents (h : u.IsElement) : u.HasExponents fun t => exponent t u.factors :=
  ⟨h.built.isRegular.isProductOf_isGenerator h.plain h.factors h.numeric.beq_self, fun _ => rfl⟩

theorem one_mul_eq_ok (u : MeasureUnit) : one.mul u = .ok u := rfl

theorem mul_one_eq_ok (u : MeasureUnit) : u.mul one = .ok u := by
  rw [mul]
  split
  · rename_i neutral
    rw [isOne_iff.1 neutral]
  · rfl

/-- Units that are no numbers make an abelian group, as far as powers stay in range. -/
theorem mul_group_laws (ha : a.IsElement) (hb : b.IsElement) (hc : c.IsElement) :
    ((∃ x y, a.mul b = .ok x ∧ b.mul a = .ok y ∧ (x == y) = true) ∨
      (a.mul b = .error .exponentOverflow ∧ b.mul a = .error .exponentOverflow)) ∧
    (one.mul a = .ok a ∧ a.mul one = .ok a) ∧
    (∀ ab bc x y, a.mul b = .ok ab → ab.mul c = .ok x → b.mul c = .ok bc → a.mul bc = .ok y →
      (x == y) = true) ∧
    (∀ x, a.div a = .ok x → x = one) ∧
    (∀ (m n k : Power) am an x y, m.add? n = some k → a.pow m = .ok am → a.pow n = .ok an →
      am.mul an = .ok x → a.pow k = .ok y → (x == y) = true) ∧
    (∀ (m n k : Power) am x y, m.mul? n = some k → a.pow m = .ok am → am.pow n = .ok x →
      a.pow k = .ok y → (x == y) = true) ∧
    (∀ (n : Power) ab an bn x y, a.mul b = .ok ab → ab.pow n = .ok x → a.pow n = .ok an →
      b.pow n = .ok bn → an.mul bn = .ok y → (x == y) = true) := by
  have ea := ha.hasExponents
  have eb := hb.hasExponents
  have ec := hc.hasExponents
  refine ⟨ea.mul_comm eb, ⟨one_mul_eq_ok a, mul_one_eq_ok a⟩, ?_, fun x => ea.div_self, ?_, ?_, ?_⟩
  · intro ab bc x y hab hx hbc hy
    exact ((ea.mul eb hab).mul ec hx).beq (ea.mul (eb.mul ec hbc) hy) fun _ => add_assoc _ _ _
  · intro m n k am an x y sum hm hn hx hy
    refine ((ea.pow hm).mul (ea.pow hn) hx).beq (ea.pow hy) fun t => ?_
    rw [Power.ofInt?_eq_some_iff.1 sum, add_mul]
  · intro m n k am x y product hm hx hy
    refine ((ea.pow hm).pow hx).beq (ea.pow hy) fun t => ?_
    rw [Power.ofInt?_eq_some_iff.1 product, mul_comm m.val n.val, mul_assoc]
  · intro n ab an bn x y hab hx han hbn hy
    exact ((ea.mul eb hab).pow hx).beq ((ea.pow han).mul (eb.pow hbn) hy) fun _ => mul_add _ _ _

/-- A speed times seconds is the kilometre alone, and times kilograms over kilometres a kilogram. -/
theorem mul_group_laws_speed :
    let speed := product [⟨kilometre, Power.one⟩, ⟨base "s", Power.negOne⟩]
    let load := product [⟨base "kg", Power.one⟩, ⟨kilometre, Power.negOne⟩]
    let two : Power := ⟨2, by decide, by decide⟩
    let negTwo : Power := ⟨-2, by decide, by decide⟩
    let zero : Power := ⟨0, by decide, by decide⟩
    (speed.IsElement ∧ (base "s").IsElement ∧ load.IsElement) ∧
    (∃ y, speed.mul (base "s") = .ok kilometre ∧ (base "s").mul speed = .ok y ∧
      (kilometre == y) = true) ∧
    (∃ w y, kilometre.mul load = .ok (base "kg") ∧ (base "s").mul load = .ok w ∧
      speed.mul w = .ok y ∧ (base "kg" == y) = true) ∧
    speed.div speed = .ok one ∧
    (∃ p q x, speed.pow two = .ok p ∧ speed.pow negTwo = .ok q ∧ p.mul q = .ok x ∧
      speed.pow zero = .ok one ∧ (x == one) = true) ∧
    (∃ p x y, speed.pow two = .ok p ∧ p.pow Power.negOne = .ok x ∧ speed.pow negTwo = .ok y ∧
      (x == y) = true) ∧
    (∃ p q x y, kilometre.pow two = .ok x ∧ speed.pow two = .ok p ∧ (base "s").pow two = .ok q ∧
      p.mul q = .ok y ∧ (x == y) = true) := by
  intro speed load two negTwo zero
  have numeric : kilometre.IsNumeric := everyConverter_kilometre rfl
  have hs : (base "s").IsElement := ⟨.base "s", .base "s", rfl, nofun⟩
  have hspeed : speed.IsElement := by
    refine ⟨.div isBuilt_kilometre hs.built rfl, .product ?_, rfl, ?_⟩
    · simpa using ⟨numeric, hs.numeric⟩
    · intro fs eq
      rw [← product.inj eq]
      decide +kernel
  have hload : load.IsElement := by
    refine ⟨.div (.base "kg") isBuilt_kilometre rfl, .product ?_, rfl, ?_⟩
    · simpa using ⟨.base "kg", numeric⟩
    · intro fs eq
      rw [← product.inj eq]
      decide +kernel
  obtain ⟨comm, -, assoc, self, sum, repeated, shared⟩ := mul_group_laws hspeed hs hload
  refine ⟨⟨hspeed, hs, hload⟩, ?_, ⟨_, _, rfl, rfl, rfl, assoc _ _ _ _ rfl rfl rfl rfl⟩, ?_,
    ⟨_, _, _, rfl, rfl, rfl, rfl, sum two negTwo zero _ _ _ _ rfl rfl rfl rfl rfl⟩,
    ⟨_, _, _, rfl, rfl, rfl, repeated two Power.negOne negTwo _ _ _ rfl rfl rfl rfl⟩,
    ⟨_, _, _, _, rfl, rfl, rfl, rfl, shared two _ _ _ _ _ rfl rfl rfl rfl rfl⟩⟩
  · obtain ⟨x, y, ok, ok', same⟩ | ⟨failed, -⟩ := comm
    · cases ok
      exact ⟨y, rfl, ok', same⟩
    · cases failed
  · exact congrArg Except.ok (self _ rfl)

end Metrology.MeasureUnit
