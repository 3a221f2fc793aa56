import Metrology.MeasureUnit.System
import Metrology.Proofs.MeasureUnit.Products

/-!
# Properties of the parts of a unit

The operations on units make units out of the parts of others, and converters out of theirs. They
build two forms only: products of different factors with powers other than zero, and converters in
normal form over a unit that is not transformed. A property that these forms have as soon as their
parts have it is therefore kept by all operations.
-/
namespace Metrology

namespace MeasureUnit

/-- Whether units with a property `P`, and converters with a property `Q`, only make such units. -/
structure IsClosed (P : MeasureUnit → Prop) (Q : Converter → Prop) : Prop where
  units : ∀ {fs : List (Factor MeasureUnit)}, P (product fs) → ∀ f ∈ fs, P f.unit
  product : ∀ {fs : List (Factor MeasureUnit)}, Apart fs → (∀ f ∈ fs, P f.unit) → P (product fs)
  transformed : ∀ {parent : MeasureUnit} {c : Converter} {mark : Option Nat},
    P (transformed parent c mark) ↔ P parent ∧ Q c
  identity : Q .identity
  compose : ∀ {c d : Converter}, Q c → Q d → Q (c.compose d)
  power : ∀ {c d : Converter} {n : Int}, Q c → c.pow n = .ok d → Q d

/-- Whether a property `P` of units and a property `Q` of converters are had by the forms that the
operations on units build out of units and converters that have them. -/
structure IsInvariant (P : MeasureUnit → Prop) (Q : Converter → Prop) : Prop where
  units : ∀ {fs : List (Factor MeasureUnit)}, P (product fs) → ∀ f ∈ fs, P f.unit
  product : ∀ {fs : List (Factor MeasureUnit)}, Apart fs → (∀ f ∈ fs, P f.unit ∧ f.power.val ≠ 0) →
    fs.map (·.power) ≠ [Power.one] → P (product fs)
  parent : ∀ {parent : MeasureUnit} {c : Converter} {mark : Option Nat},
    P (transformed parent c mark) → P parent ∧ Q c
  transformed : ∀ {parent : MeasureUnit} {c : Converter}, P parent → parent.isTransformed = false →
    IsTransform c → Q c → P (transformed parent c)
  changed : ∀ {parent : MeasureUnit} {c d : Converter} {mark : Option Nat},
    P (.transformed parent c mark) → IsTransform d → Q d → P (.transformed parent d)
  identity : Q .identity
  compose : ∀ {c d : Converter}, Q c → Q d → Q (c.compose d)
  power : ∀ {c d : Converter} {n : Int}, Q c → c.pow n = .ok d → Q d

theorem IsClosed.isInvariant {P : MeasureUnit → Prop} {Q : Converter → Prop} (hP : IsClosed P Q) :
    IsInvariant P Q where
  units := hP.units
  product apart h _ := hP.product apart fun f hf => (h f hf).1
  parent := hP.transformed.1
  transformed parent _ _ outer := hP.transformed.2 ⟨parent, outer⟩
  changed h _ outer := hP.transformed.2 ⟨(hP.transformed.1 h).1, outer⟩
  identity := hP.identity
  compose := hP.compose
  power := hP.power

/-- What a successful power consists of. -/
theorem pow_eq_ok {u w : MeasureUnit} {n : Power} :
    u.pow n = .ok w ↔
      (∃ c d, u.number? = some c ∧ c.pow n.val = .ok d ∧ w = one.transform d) ∨
      (u.number? = none ∧ ∃ gs, u.factors.mapM (raise n) = .ok gs ∧ ofProduct gs = .ok w) := by
  unfold MeasureUnit.pow
  cases value : u.number? with
  | none => simp [bind_ok_iff]
  | some c =>
    cases power : c.pow n.val with
    | error e => simp [power]
    | ok d => simp [power, eq_comm]

/-- What a successful product consists of. -/
theorem mul_eq_ok {u v w : MeasureUnit} (ok : u.mul v = .ok w) :
    (u = one ∧ w = v) ∨ (v = one ∧ w = u) ∨
      (∃ c, u.number? = some c ∧ w = v.transform c) ∨
      (∃ c, v.number? = some c ∧ w = u.transform c) ∨
      (u.number? = none ∧ v.number? = none ∧ ofProduct (u.factors ++ v.factors) = .ok w) := by
  unfold mul at ok
  split at ok
  · rename_i h
    cases ok
    exact Or.inl ⟨isOne_iff.1 h, rfl⟩
  · split at ok
    · rename_i h
      cases ok
      exact Or.inr (Or.inl ⟨isOne_iff.1 h, rfl⟩)
    · split at ok
      · rename_i c h
        cases ok
        exact Or.inr (Or.inr (Or.inl ⟨c, h, rfl⟩))
      · rename_i c _ h
        cases ok
        exact Or.inr (Or.inr (Or.inr (Or.inl ⟨c, h, rfl⟩)))
      · rename_i h h'
        exact Or.inr (Or.inr (Or.inr (Or.inr ⟨h, h', ok⟩)))

/-- A note is refused exactly if a brace closes in it. -/
theorem annotate_eq_ok {u w : MeasureUnit} {note : String} :
    u.annotate note = .ok w ↔ '\x7d' ∉ note.toList ∧ w = .noted u note := by
  unfold annotate
  split
  · rename_i closes
    simp at closes
    simp [closes]
  · rename_i closes
    simp at closes
    simp [closes, eq_comm]

/-- Induction over the unwinding of a unit, the system unit of a product being that of the factors so
far times that of the next. -/
theorem systemUnit_induction {motive : MeasureUnit → MeasureUnit → Prop}
    {R : List (Factor MeasureUnit) → MeasureUnit → Prop}
    (base : ∀ symbol, motive (base symbol) (base symbol))
    (alternate : ∀ symbol parent, motive (alternate symbol parent) (alternate symbol parent))
    (product : ∀ fs s, R fs s → motive (product fs) s)
    (transformed : ∀ parent c mark s, motive parent s → motive (transformed parent c mark) s)
    (noted : ∀ actual note s, motive actual s → motive (noted actual note) s)
    (empty : R [] one)
    (next : ∀ (fs : List (Factor MeasureUnit)) f acc s p acc', R fs acc → motive f.unit s →
      s.pow f.power = .ok p → acc.mul p = .ok acc' → R (fs ++ [f]) acc')
    {u s : MeasureUnit} (ok : u.systemUnit = .ok s) : motive u s := by
  induction u generalizing s with
  | base symbol =>
    cases ok
    exact base symbol
  | alternate symbol parent =>
    cases ok
    exact alternate symbol parent
  | product fs ih =>
    have chain : ∀ (gs front : List (Factor MeasureUnit)) (acc : MeasureUnit), (∀ g ∈ gs, g ∈ fs) →
        R front acc → systemProduct gs acc = .ok s → R (front ++ gs) s := by
      intro gs
      induction gs with
      | nil =>
        intro front acc _ run ok
        cases ok
        rwa [List.append_nil]
      | cons g gs tail =>
        intro front acc inside run ok
        obtain ⟨unit, n⟩ := g
        simp only [systemProduct, systemPower, bind_ok_iff] at ok
        obtain ⟨p, ⟨t, head, power⟩, acc', multiplied, ok⟩ := ok
        have step :=
          next front ⟨unit, n⟩ acc t p acc' run (ih _ (inside _ (by simp)) head) power multiplied
        have whole := tail (front ++ [⟨unit, n⟩]) acc' (fun g hg => inside g (by simp [hg])) step ok
        rwa [List.append_assoc] at whole
    exact product fs s (chain fs [] one (fun _ h => h) empty ok)
  | transformed parent c mark ih => exact transformed parent c mark s (ih ok)
  | noted actual note ih => exact noted actual note s (ih ok)

/-- Lowering changes no unit. -/
theorem unit_of_lower {f g : Factor MeasureUnit} {n : Power} (h : lower n f = some g) :
    f.unit = g.unit := by
  unfold lower at h
  split at h
  · obtain ⟨m, -, rfl⟩ := Option.map_eq_some_iff.1 h
    rfl
  · cases h

namespace IsInvariant

variable {P : MeasureUnit → Prop} {Q : Converter → Prop} {u v w : MeasureUnit}
  {fs : List (Factor MeasureUnit)} {n : Power}

theorem one (hP : IsInvariant P Q) : P MeasureUnit.one :=
  hP.product List.Pairwise.nil (List.forall_mem_nil _) nofun

theorem transform {c : Converter} (hP : IsInvariant P Q) (hu : P u) (hc : Q c) : P (u.transform c) := by
  unfold MeasureUnit.transform
  split
  · exact hu
  · split
    · obtain ⟨parent, existing⟩ := hP.parent hu
      dsimp only
      split
      · exact parent
      · rename_i change
        rw [Converter.isIdentity_iff] at change
        exact hP.changed hu ⟨Converter.normalize_compose _ _, change⟩ (hP.compose existing hc)
    · rename_i plain
      have plain : u.isTransformed = false := by
        cases u with
        | transformed parent existing mark => exact absurd rfl (plain parent existing mark)
        | _ => rfl
      dsimp only
      split
      · exact hu
      · rename_i change
        rw [Converter.isIdentity_iff] at change
        exact hP.transformed hu plain ⟨Converter.normalize_compose _ _, change⟩
          (hP.compose hP.identity hc)

theorem shift {x : Rat} (hP : IsInvariant P Q) (hu : P u) (offset : x ≠ 0 → Q (.add x)) :
    P (u.shift x) := by
  by_cases zero : x = 0
  · rw [MeasureUnit.shift, Converter.offsetBy, if_pos zero]
    exact hu
  · rw [shift_of_ne zero]
    exact hP.transform hu (offset zero)

theorem factors (hP : IsInvariant P Q) (hu : P u) : ∀ f ∈ u.factors, P f.unit := by
  cases u with
  | product fs => exact hP.units hu
  | _ =>
    intro f hf
    cases List.mem_singleton.1 hf
    exact hu

/-- A product of different factors is one of the forms, once powers of zero are left out. -/
theorem ofFactors (hP : IsInvariant P Q) (apart : Apart fs)
    (h : ∀ f ∈ fs, P f.unit ∧ f.power.val ≠ 0) : P (MeasureUnit.ofFactors fs) := by
  by_cases single : fs.map (·.power) = [Power.one]
  · obtain ⟨⟨v, n⟩, rfl, power⟩ := List.map_eq_singleton_iff.1 single
    cases power
    exact (h _ (List.mem_singleton_self _)).1
  · rw [ofFactors_eq_product (fun f hf => (h f hf).2) single]
    exact hP.product apart h single

theorem ofProduct (hP : IsInvariant P Q) (h : ∀ f ∈ fs, P f.unit)
    (ok : MeasureUnit.ofProduct fs = .ok u) : P u := by
  obtain ⟨-, gs, -, -, rfl, apart, units⟩ := exists_of_ofProduct ok
  refine hP.ofFactors apart fun g hg => ?_
  obtain ⟨⟨f, hf, same⟩, power⟩ := units g hg
  exact ⟨same ▸ h f hf, power⟩

/-- The scaling of a number is a converter in it. -/
theorem number? {c : Converter} (hP : IsInvariant P Q) (hu : P u) (value : u.number? = some c) :
    Q c := by
  obtain ⟨mark, rfl, -⟩ := number?_eq_some.1 value
  exact (hP.parent hu).2

theorem mul (hP : IsInvariant P Q) (hu : P u) (hv : P v) (ok : u.mul v = .ok w) : P w := by
  rcases mul_eq_ok ok with ⟨-, rfl⟩ | ⟨-, rfl⟩ | ⟨c, value, rfl⟩ | ⟨c, value, rfl⟩ | ⟨-, -, ok⟩
  · exact hv
  · exact hu
  · exact hP.transform hv (hP.number? hu value)
  · exact hP.transform hu (hP.number? hv value)
  · refine hP.ofProduct (fun f hf => ?_) ok
    exact (List.mem_append.1 hf).elim (hP.factors hu f) (hP.factors hv f)

theorem pow (hP : IsInvariant P Q) (hu : P u) (ok : u.pow n = .ok w) : P w := by
  rcases pow_eq_ok.1 ok with ⟨c, d, value, power, rfl⟩ | ⟨-, gs, raised, ok⟩
  · exact hP.transform hP.one (hP.power (hP.number? hu value) power)
  · refine hP.ofProduct (fun g hg => ?_) ok
    obtain ⟨f, hf, same⟩ := mem_of_mapM_raise raised g hg
    exact same ▸ hP.factors hu f hf

theorem div (hP : IsInvariant P Q) (hu : P u) (hv : P v) (ok : u.div v = .ok w) : P w := by
  obtain ⟨r, reciprocal, ok⟩ := div_eq_ok.1 ok
  exact hP.mul hu (hP.pow hv reciprocal) ok

theorem positiveRoot? (hP : IsInvariant P Q) (hu : P u) (ok : u.positiveRoot? n = some w) : P w := by
  unfold MeasureUnit.positiveRoot? at ok
  split at ok
  · cases ok
    exact hu
  · split at ok
    · cases ok
      exact hu
    · rename_i fs _
      simp only [Option.bind_eq_bind, Option.bind_eq_some_iff] at ok
      obtain ⟨gs, lowered, ok⟩ := ok
      cases product : MeasureUnit.ofProduct gs with
      | error e =>
        rw [product] at ok
        cases ok
      | ok r =>
        rw [product] at ok
        cases ok
        refine hP.ofProduct (fun g hg => ?_) product
        obtain ⟨f, hf, eq⟩ := exists_of_forall₂ (mapM_eq_some_iff.1 lowered) g hg
        exact unit_of_lower eq ▸ hP.units hu f hf
    · cases ok

theorem root? (hP : IsInvariant P Q) (hu : P u) (ok : u.root? n = some w) : P w := by
  unfold MeasureUnit.root? at ok
  split at ok
  · cases ok
  · split at ok
    · exact hP.positiveRoot? hu ok
    · simp only [Option.bind_eq_bind, Option.bind_eq_some_iff] at ok
      obtain ⟨m, -, r, root, ok⟩ := ok
      cases reciprocal : r.reciprocal with
      | error e =>
        rw [reciprocal] at ok
        cases ok
      | ok v =>
        rw [reciprocal] at ok
        cases ok
        exact hP.pow (hP.positiveRoot? hu root) reciprocal

/-- The system unit has what the unit has. -/
theorem systemUnit (hP : IsInvariant P Q)
    (noted : ∀ {a : MeasureUnit} {note : String}, P (.noted a note) → P a) (hu : P u) (ok : u.systemUnit = .ok w) : P w := by
  refine systemUnit_induction (motive := fun u s => P u → P s)
    (R := fun fs acc => (∀ f ∈ fs, P f.unit) → P acc) (fun _ h => h) (fun _ _ h => h)
    (fun _ _ run hu => run (hP.units hu)) (fun _ _ _ _ ih hu => ih (hP.parent hu).1)
    (fun _ _ _ ih hu => ih (noted hu)) (fun _ => hP.one)
    (fun fs f acc s p acc' run ih power multiplied units => ?_) ok hu
  have front := run fun g hg => units g (List.mem_append_left _ hg)
  have last := ih (units f (by simp))
  exact hP.mul front (hP.pow last power) multiplied

end IsInvariant

namespace IsClosed

variable {P : MeasureUnit → Prop} {Q : Converter → Prop} {u v w : MeasureUnit} {n : Power}

theorem one (hP : IsClosed P Q) : P MeasureUnit.one := hP.isInvariant.one

theorem factors (hP : IsClosed P Q) (hu : P u) : ∀ f ∈ u.factors, P f.unit :=
  hP.isInvariant.factors hu

theorem mul (hP : IsClosed P Q) (hu : P u) (hv : P v) (ok : u.mul v = .ok w) : P w :=
  hP.isInvariant.mul hu hv ok

theorem pow (hP : IsClosed P Q) (hu : P u) (ok : u.pow n = .ok w) : P w :=
  hP.isInvariant.pow hu ok

theorem div (hP : IsClosed P Q) (hu : P u) (hv : P v) (ok : u.div v = .ok w) : P w :=
  hP.isInvariant.div hu hv ok

theorem systemUnit (hP : IsClosed P Q)
    (noted : ∀ {a : MeasureUnit} {note : String}, P (.noted a note) → P a) (hu : P u)
    (ok : u.systemUnit = .ok w) : P w :=
  hP.isInvariant.systemUnit noted hu ok

end IsClosed

/-! ### Properties of the parts alone -/

/-- Whether a product has a property just if the units of its factors do, and a transformed unit
just if its parent does. -/
structure IsHereditary (P : MeasureUnit → Prop) : Prop where
  product : ∀ {fs : List (Factor MeasureUnit)}, P (product fs) ↔ ∀ f ∈ fs, P f.unit
  transformed : ∀ {parent : MeasureUnit} {c : Converter} {mark : Option Nat},
    P (transformed parent c mark) ↔ P parent

namespace IsHereditary

variable {P : MeasureUnit → Prop} {u v w : MeasureUnit} {n : Power}

theorem isClosed (hP : IsHereditary P) : IsClosed P fun _ => True where
  units := hP.product.1
  product _ := hP.product.2
  transformed := hP.transformed.trans (and_iff_left trivial).symm
  identity := trivial
  compose _ _ := trivial
  power _ _ := trivial

theorem one (hP : IsHereditary P) : P MeasureUnit.one := hP.isClosed.one

theorem transform (hP : IsHereditary P) (h : P u) (c : Converter) : P (u.transform c) :=
  hP.isClosed.isInvariant.transform h trivial

theorem shift (hP : IsHereditary P) (h : P u) (x : Rat) : P (u.shift x) :=
  hP.isClosed.isInvariant.shift h fun _ => trivial

theorem mul (hP : IsHereditary P) (hu : P u) (hv : P v) (ok : u.mul v = .ok w) : P w :=
  hP.isClosed.mul hu hv ok

theorem pow (hP : IsHereditary P) (hu : P u) (ok : u.pow n = .ok w) : P w :=
  hP.isClosed.pow hu ok

theorem div (hP : IsHereditary P) (hu : P u) (hv : P v) (ok : u.div v = .ok w) : P w :=
  hP.isClosed.div hu hv ok

end IsHereditary

end MeasureUnit

end Metrology
