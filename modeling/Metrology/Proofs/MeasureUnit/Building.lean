import Metrology.Proofs.MeasureUnit.Parts

/-!
# Units that are built

Whatever is built from base units by the operations on units has products of different factors
only. Which steps there are in its converters depends on what is put in; kinds of converters that
are kept by composing, undoing and repeating stay among themselves, up to the converter to the
system unit.
-/
namespace Metrology.MeasureUnit

open Converter

/-- The units that can be built by the operations on units. -/
inductive IsBuilt : MeasureUnit → Prop where
  | base (symbol : String) : IsBuilt (.base symbol)
  | alternate (symbol : String) {parent : MeasureUnit} (unit : IsBuilt parent) :
      IsBuilt (.alternate symbol parent)
  | one : IsBuilt one
  | product {fs : List (Factor MeasureUnit)} {w : MeasureUnit} (units : ∀ f ∈ fs, IsBuilt f.unit)
      (ok : ofProduct fs = .ok w) : IsBuilt w
  | mul {u v w : MeasureUnit} (left : IsBuilt u) (right : IsBuilt v) (ok : u.mul v = .ok w) :
      IsBuilt w
  | div {u v w : MeasureUnit} (left : IsBuilt u) (right : IsBuilt v) (ok : u.div v = .ok w) :
      IsBuilt w
  | pow {u w : MeasureUnit} (n : Power) (unit : IsBuilt u) (ok : u.pow n = .ok w) : IsBuilt w
  | reciprocal {u w : MeasureUnit} (unit : IsBuilt u) (ok : u.reciprocal = .ok w) : IsBuilt w
  | root {u w : MeasureUnit} (n : Power) (unit : IsBuilt u) (ok : u.root? n = some w) : IsBuilt w
  | transform {u : MeasureUnit} (c : Converter) (unit : IsBuilt u) : IsBuilt (u.transform c)
  | shift {u : MeasureUnit} (x : Rat) (unit : IsBuilt u) : IsBuilt (u.shift x)
  | annotate {u w : MeasureUnit} (note : String) (unit : IsBuilt u) (ok : u.annotate note = .ok w) :
      IsBuilt w
  | system {u w : MeasureUnit} (unit : IsBuilt u) (ok : u.systemUnit = .ok w) : IsBuilt w

variable {u v w : MeasureUnit}

theorem isClosed_isDistinct : IsClosed IsDistinct fun _ => True where
  units := fun | .product _ units => units
  product := .product
  transformed := ⟨fun | .transformed _ _ inner => ⟨inner, trivial⟩, fun h => .transformed _ _ h.1⟩
  identity := trivial
  compose _ _ := trivial
  power _ _ := trivial

/-- What base units have, and is kept by the forms that the operations build, by names and by notes, is
had by all units that are built. -/
theorem IsBuilt.of_isInvariant {P : MeasureUnit → Prop} (hP : IsInvariant P fun _ => True)
    (base : ∀ symbol, P (.base symbol))
    (alternate : ∀ symbol {parent : MeasureUnit}, P parent → P (.alternate symbol parent))
    (noted : ∀ {actual : MeasureUnit} {note : String}, '\x7d' ∉ note.toList → P actual →
      P (.noted actual note))
    (bare : ∀ {actual : MeasureUnit} {note : String}, P (.noted actual note) → P actual)
    (h : u.IsBuilt) : P u := by
  induction h with
  | base symbol => exact base symbol
  | alternate symbol _ unit => exact alternate symbol unit
  | one => exact hP.one
  | product _ ok units => exact hP.ofProduct units ok
  | mul _ _ ok left right => exact hP.mul left right ok
  | div _ _ ok left right => exact hP.div left right ok
  | pow n _ ok unit => exact hP.pow unit ok
  | reciprocal _ ok unit => exact hP.pow unit ok
  | root n _ ok unit => exact hP.root? unit ok
  | transform c _ unit => exact hP.transform unit trivial
  | shift x _ unit => exact hP.shift unit fun _ => trivial
  | annotate note _ ok unit =>
    obtain ⟨legible, rfl⟩ := annotate_eq_ok.1 ok
    exact noted legible unit
  | system _ ok unit => exact hP.systemUnit bare unit ok

/-- No operation puts equal units side by side in a product. -/
theorem IsBuilt.isDistinct (h : u.IsBuilt) : u.IsDistinct :=
  h.of_isInvariant isClosed_isDistinct.isInvariant .base (fun symbol _ => .alternate symbol)
    (fun _ => .noted _) fun | .noted _ inner => inner

/-! ### The converters in a unit -/

inductive EveryConverter (Q : Converter → Prop) : MeasureUnit → Prop where
  | base (symbol : String) : EveryConverter Q (.base symbol)
  | alternate (symbol : String) {parent : MeasureUnit} (inner : parent.EveryConverter Q) :
      EveryConverter Q (.alternate symbol parent)
  | product {fs : List (Factor MeasureUnit)} (units : ∀ f ∈ fs, f.unit.EveryConverter Q) :
      EveryConverter Q (.product fs)
  | transformed {parent : MeasureUnit} {c : Converter} (mark : Option Nat)
      (inner : parent.EveryConverter Q) (outer : Q c) : EveryConverter Q (.transformed parent c mark)
  | noted {actual : MeasureUnit} (note : String) (inner : actual.EveryConverter Q) :
      EveryConverter Q (.noted actual note)

variable {Q : Converter → Prop}

/-- A unit equals itself when the converters in it do. -/
theorem EveryConverter.beq_self (h : u.EveryConverter Q) (refl : ∀ c, Q c → (c == c) = true) :
    (u == u) = true := by
  induction h with
  | base symbol => simp
  | alternate symbol _ ih => simp [ih]
  | product _ ih => exact product_beq_product.2 ⟨rfl, fun f hf => ⟨f, hf, ih f hf, rfl⟩⟩
  | transformed mark _ outer ih =>
    rw [transformed_beq_transformed, ih, sameConverter, refl _ outer]
    rfl
  | noted note _ ih => simp [ih]

mutual

def converters : MeasureUnit → List Converter
  | base _ => []
  | alternate _ parent => parent.converters
  | product fs => allConverters fs
  | transformed parent c _ => c :: parent.converters
  | noted actual _ => actual.converters
termination_by structural u => u

def allConverters : List (Factor MeasureUnit) → List Converter
  | [] => []
  | f :: fs => innerConverters f ++ allConverters fs
termination_by structural fs => fs

def innerConverters : Factor MeasureUnit → List Converter
  | ⟨u, _⟩ => u.converters
termination_by structural f => f

end

/-- Which converters a unit has can be computed. -/
theorem everyConverter_iff : u.EveryConverter Q ↔ ∀ c ∈ u.converters, Q c := by
  have all (fs : List (Factor MeasureUnit)) : (∀ c ∈ allConverters fs, Q c) ↔
      ∀ f ∈ fs, ∀ c ∈ f.unit.converters, Q c := by
    induction fs with
    | nil => simp [allConverters]
    | cons f fs ih =>
      obtain ⟨unit, power⟩ := f
      rw [allConverters, List.forall_mem_append, ih, List.forall_mem_cons, innerConverters]
  induction u with
  | base symbol => exact ⟨fun _ => List.forall_mem_nil _, fun _ => .base symbol⟩
  | alternate symbol parent ih =>
    refine ⟨fun h => ?_, fun h => .alternate symbol (ih.2 h)⟩
    cases h with
    | alternate _ inner => exact ih.1 inner
  | product fs ih =>
    rw [converters, all]
    refine ⟨fun h => ?_, fun h => .product fun f hf => (ih f hf).2 (h f hf)⟩
    cases h with
    | product units => exact fun f hf => (ih f hf).1 (units f hf)
  | transformed parent c mark ih =>
    rw [converters, List.forall_mem_cons]
    refine ⟨fun h => ?_, fun h => .transformed mark (ih.2 h.2) h.1⟩
    cases h with
    | transformed _ inner outer => exact ⟨outer, ih.1 inner⟩
  | noted actual note ih =>
    refine ⟨fun h => ?_, fun h => .noted note (ih.2 h)⟩
    cases h with
    | noted _ inner => exact ih.1 inner

theorem EveryConverter.and {Q' : Converter → Prop} (h : u.EveryConverter Q)
    (h' : u.EveryConverter Q') : u.EveryConverter fun c => Q c ∧ Q' c :=
  everyConverter_iff.2 fun c hc => ⟨everyConverter_iff.1 h c hc, everyConverter_iff.1 h' c hc⟩

instance [DecidablePred Q] : Decidable (u.EveryConverter Q) :=
  decidable_of_iff _ everyConverter_iff.symm

theorem isClosed_everyConverter (hQ : IsStable Q) : IsClosed (EveryConverter Q) Q where
  units := fun | .product units => units
  product _ := .product
  transformed := ⟨fun | .transformed _ inner outer => ⟨inner, outer⟩, fun h => .transformed _ h.1 h.2⟩
  identity := hQ.identity
  compose := hQ.compose
  power := hQ.pow

/-- What a factor of a product contributes to the converter of the product. -/
theorem factorConverter_eq_ok {n : Power} {c d : Converter} (ok : factorConverter u n c = .ok d) :
    c.isLinear = true ∧ ((n.val = 1 ∧ d = c) ∨ (n.val = -1 ∧ d = c.inverse) ∨
      ((c.isIdentity || c.isScale) = true ∧ c.pow n.val = .ok d)) := by
  unfold factorConverter at ok
  split at ok
  · cases ok
  · rename_i linear
    refine ⟨by simpa using linear, ?_⟩
    split at ok
    · rename_i one
      cases ok
      exact Or.inl ⟨one, rfl⟩
    · split at ok
      · rename_i negOne
        cases ok
        exact Or.inr (Or.inl ⟨negOne, rfl⟩)
      · split at ok
        · rename_i scale
          split at ok
          · rename_i power
            cases ok
            exact Or.inr (Or.inr ⟨scale, power⟩)
          · cases ok
        · cases ok

/-- Factors contribute converters of the kind of those in them. -/
theorem IsStable.factorConverter (hQ : IsStable Q) {n : Power} {c d : Converter} (hc : Q c)
    (ok : MeasureUnit.factorConverter u n c = .ok d) : Q d := by
  obtain ⟨-, ⟨-, rfl⟩ | ⟨-, rfl⟩ | ⟨-, power⟩⟩ := factorConverter_eq_ok ok
  · exact hc
  · exact hQ.inverse hc
  · exact hQ.pow hc power

/-- A factor is converted by the power of what converts its unit. -/
theorem powerConverter_eq_ok {f : Factor MeasureUnit} {d : Converter} :
    powerConverter f = .ok d ↔
      ∃ c, f.unit.systemConverter = .ok c ∧ factorConverter f.unit f.power c = .ok d := by
  obtain ⟨unit, n⟩ := f
  rw [powerConverter, bind_ok_iff]

/-- The converter of a product is that of its factors, one after the other. -/
theorem productConverter_eq_ok {fs : List (Factor MeasureUnit)} {acc c : Converter} :
    productConverter fs acc = .ok c ↔
      ∃ l, List.Forall₂ (fun f d => powerConverter f = .ok d) fs l ∧ c = l.foldl compose acc := by
  induction fs generalizing acc with
  | nil =>
    rw [productConverter]
    constructor
    · intro h
      cases h
      exact ⟨[], .nil, rfl⟩
    · rintro ⟨l, related, rfl⟩
      cases related
      rfl
  | cons f fs ih =>
    rw [productConverter, bind_ok_iff]
    constructor
    · rintro ⟨d, head, ok⟩
      obtain ⟨l, related, rfl⟩ := ih.1 ok
      exact ⟨d :: l, .cons head related, rfl⟩
    · rintro ⟨l, related, rfl⟩
      cases related with
      | cons head related => exact ⟨_, head, ih.2 ⟨_, related, rfl⟩⟩

/-- The converter to the system unit is of the kind of the converters in the unit. -/
theorem EveryConverter.systemConverter {c : Converter} (hQ : IsStable Q) (h : u.EveryConverter Q)
    (ok : u.systemConverter = .ok c) : Q c := by
  induction h generalizing c with
  | base symbol =>
    cases ok
    exact hQ.identity
  | alternate symbol _ _ =>
    cases ok
    exact hQ.identity
  | @product fs units ih =>
    obtain ⟨l, related, rfl⟩ := productConverter_eq_ok.1 ok
    have steps : ∀ d ∈ l, Q d := by
      intro d hd
      obtain ⟨f, hf, step⟩ := exists_of_forall₂ related d hd
      obtain ⟨c, base, power⟩ := powerConverter_eq_ok.1 step
      exact IsStable.factorConverter hQ (ih f hf base) power
    have run : ∀ (l : List Converter) (acc : Converter), Q acc → (∀ d ∈ l, Q d) →
        Q (l.foldl compose acc) := by
      intro l
      induction l with
      | nil => exact fun acc hacc _ => hacc
      | cons d l ih =>
        exact fun acc hacc hl => ih _ (hQ.compose hacc (hl d (by simp))) fun e he => hl e (by simp [he])
    exact run l .identity hQ.identity steps
  | transformed mark _ outer ih =>
    obtain ⟨d, parent, ok⟩ := bind_ok_iff.1 ok
    cases ok
    exact hQ.compose (ih parent) outer
  | noted note _ ih => exact ih ok

/-! ### Kilometres and minutes -/

def thousandfold : Converter := ratio ⟨1000, 1, by decide, by decide, by decide⟩

def kilometre : MeasureUnit := (MeasureUnit.base "m").transform thousandfold

def sixtyfold : Converter := ratio ⟨60, 1, by decide, by decide, by decide⟩

def minute : MeasureUnit := (MeasureUnit.base "s").transform sixtyfold

theorem isBuilt_kilometre : kilometre.IsBuilt := .transform _ (.base "m")

theorem isBuilt_minute : minute.IsBuilt := .transform _ (.base "s")

theorem everyConverter_kilometre (thousand : Q thousandfold) : kilometre.EveryConverter Q :=
  .transformed none (.base "m") thousand

theorem everyConverter_minute (sixty : Q sixtyfold) : minute.EveryConverter Q :=
  .transformed none (.base "s") sixty

theorem systemConverter_kilometre : kilometre.systemConverter = .ok thousandfold := rfl

theorem systemConverter_minute : minute.systemConverter = .ok sixtyfold := rfl

end Metrology.MeasureUnit
