import Mathlib.Data.List.Forall2
import Metrology.MeasureUnit.Basic
import Metrology.Proofs.Converter.GroupLaw

/-!
# Equality of units

Equality is transitive. It is not symmetric in general: `m·m` as a product of two factors
would equal the product of `m` and any other unit to the same power, but not the other way
round. It is symmetric from a unit on in which the factors of each product differ, because
then the factors that match them are all there are.

Converters made of proper steps are equal only if they are the same.
-/
namespace Metrology

/-- Each element of the second list is related to one of the first. -/
theorem exists_of_forall₂ {α β : Type} {R : α → β → Prop} {l : List α} {l' : List β}
    (h : List.Forall₂ R l l') : ∀ b ∈ l', ∃ a ∈ l, R a b := by
  induction h with
  | nil => simp
  | @cons a b l l' head _ ih =>
    intro c hc
    rcases List.mem_cons.1 hc with rfl | hc
    · exact ⟨a, List.mem_cons_self, head⟩
    · obtain ⟨a', ha', related⟩ := ih c hc
      exact ⟨a', List.mem_cons_of_mem a ha', related⟩

namespace MeasureUnit

/-- Induction over a unit, with the hypothesis for the unit of each factor of a product. -/
@[elab_as_elim, induction_eliminator]
theorem induction {motive : MeasureUnit → Prop} (base : ∀ symbol, motive (base symbol))
    (alternate : ∀ symbol parent, motive parent → motive (alternate symbol parent))
    (product : ∀ factors, (∀ f ∈ factors, motive f.unit) → motive (product factors))
    (transformed : ∀ parent converter mark, motive parent →
      motive (transformed parent converter mark))
    (noted : ∀ actual note, motive actual → motive (noted actual note)) (u : MeasureUnit) :
    motive u := by
  refine @MeasureUnit.rec motive (fun fs => ∀ f ∈ fs, motive f.unit) (fun f => motive f.unit)
    base alternate product transformed noted ?_ ?_ ?_ u
  · simp
  · intro f fs head tail g member
    rcases List.mem_cons.1 member with rfl | member
    · exact head
    · exact tail g member
  · exact fun unit power h => h

/-- Each factor of the first list has a match in the second. -/
theorem subset_iff {fs gs : List (Factor MeasureUnit)} :
    subset fs gs = true ↔ ∀ f ∈ fs, ∃ g ∈ gs, (f.unit == g.unit) = true ∧ f.power = g.power := by
  have factor (f g : Factor MeasureUnit) :
      beqFactor f g = true ↔ (f.unit == g.unit) = true ∧ f.power = g.power := by
    obtain ⟨unit, power⟩ := f
    rw [beqFactor, Bool.and_eq_true, beq_iff_eq]
    rfl
  induction fs with
  | nil => simp [subset]
  | cons f fs ih => simp [subset, ih, factor]

@[simp] theorem base_beq_base {a b : String} : (base a == base b) = (a == b) := rfl

@[simp] theorem alternate_beq_alternate {a b : String} {p q : MeasureUnit} :
    (alternate a p == alternate b q) = (a == b && p == q) := rfl

@[simp] theorem noted_beq_noted {a b : MeasureUnit} {m n : String} :
    (noted a m == noted b n) = (a == b && m == n) := rfl

@[simp] theorem transformed_beq_transformed {p q : MeasureUnit} {c d : Converter}
    {m n : Option Nat} :
    (transformed p c m == transformed q d n) = (p == q && sameConverter c m d n) := rfl

/-- Products are equal if they have as many factors, and each of the first has a match in the second. -/
theorem product_beq_product {fs gs : List (Factor MeasureUnit)} :
    (product fs == product gs) = true ↔ fs.length = gs.length ∧
      ∀ f ∈ fs, ∃ g ∈ gs, (f.unit == g.unit) = true ∧ f.power = g.power := by
  change beq (product fs) (product gs) = true ↔ _
  rw [beq, Bool.and_eq_true, subset_iff, beq_iff_eq]

end MeasureUnit

namespace Converter

theorem add_beq_add {x y : Rat} : (add x == add y) = true ↔ x = y :=
  beq_iff_eq (a := x) (b := y)

theorem ratio_beq_ratio {r s : Ratio} : (ratio r == ratio s) = true ↔ r = s :=
  beq_iff_eq (a := r) (b := s)

theorem pair_beq_pair {a b c d : Converter} :
    (pair a b == pair c d) = true ↔ (a == c) = true ∧ (b == d) = true :=
  Bool.and_eq_true_iff (x := a == c) (y := b == d)

theorem beq_trans {c d e : Converter} (h : (c == d) = true) (h' : (d == e) = true) :
    (c == e) = true := by
  induction c generalizing d e with
  | pair a b iha ihb =>
    cases d <;> try cases h
    cases e <;> try cases h'
    rw [pair_beq_pair] at h h' ⊢
    exact ⟨iha h.1 h'.1, ihb h.2 h'.2⟩
  | add x =>
    cases d <;> try cases h
    rwa [add_beq_add.1 h]
  | ratio r =>
    cases d <;> try cases h
    rwa [ratio_beq_ratio.1 h]
  | _ =>
    cases d <;> try cases h
    cases e <;> first | exact Double.beq_trans h h' | rfl | cases h'

theorem beq_symm {c d : Converter} (h : (c == d) = true) : (d == c) = true := by
  induction c generalizing d with
  | pair a b iha ihb =>
    cases d <;> try cases h
    rw [pair_beq_pair] at h ⊢
    exact ⟨iha h.1, ihb h.2⟩
  | add x =>
    cases d <;> try cases h
    exact add_beq_add.2 (add_beq_add.1 h).symm
  | ratio r =>
    cases d <;> try cases h
    exact ratio_beq_ratio.2 (ratio_beq_ratio.1 h).symm
  | _ =>
    cases d <;> first | exact Double.beq_symm h | rfl | cases h

/-- Converters of proper steps that are equal are the same. -/
theorem eq_of_beq_of_isProper {c d : Converter} (proper : c.IsProper) (h : (c == d) = true) :
    c = d := by
  induction c generalizing d with
  | pair a b iha ihb =>
    cases d <;> try cases h
    rw [pair_beq_pair] at h
    rw [iha proper.1 h.1, ihb proper.2 h.2]
  | multiply => exact proper.elim
  | log x | exp x =>
    cases d <;> try cases h
    rw [(beq_base_iff proper).1 h]
  | add x =>
    cases d <;> try cases h
    rw [add_beq_add.1 h]
  | ratio r =>
    cases d <;> try cases h
    rw [ratio_beq_ratio.1 h]
  | identity => cases d <;> first | rfl | cases h

theorem beq_self_of_isProper {c : Converter} (proper : c.IsProper) : (c == c) = true := by
  induction c with
  | pair a b iha ihb =>
    rw [pair_beq_pair]
    exact ⟨iha proper.1, ihb proper.2⟩
  | multiply => exact proper.elim
  | log x | exp x => exact (beq_base_iff proper).2 rfl
  | add x => exact add_beq_add.2 rfl
  | ratio r => exact ratio_beq_ratio.2 rfl
  | identity => rfl

end Converter

namespace MeasureUnit

/-- Marks do not break transitivity, because one mark is on one converter. -/
theorem sameConverter_trans {c d e : Converter} {l m n : Option Nat}
    (h : sameConverter c l d m = true) (h' : sameConverter d m e n = true) :
    sameConverter c l e n = true := by
  simp only [sameConverter, Bool.or_eq_true, Bool.and_eq_true, decide_eq_true_eq, beq_iff_eq] at *
  rcases h with h | ⟨⟨marked, rfl⟩, rfl⟩
  · rcases h' with h' | ⟨-, rfl⟩
    · exact Or.inl (Converter.beq_trans h h')
    · exact Or.inl h
  · exact h'

theorem sameConverter_symm {c d : Converter} {m n : Option Nat}
    (h : sameConverter c m d n = true) : sameConverter d n c m = true := by
  simp only [sameConverter, Bool.or_eq_true, Bool.and_eq_true, decide_eq_true_eq, beq_iff_eq] at *
  rcases h with h | ⟨⟨marked, rfl⟩, rfl⟩
  · exact Or.inl (Converter.beq_symm h)
  · exact Or.inr ⟨⟨marked, rfl⟩, rfl⟩

theorem beq_or_eq_of_sameConverter {c d : Converter} {m n : Option Nat}
    (h : sameConverter c m d n = true) : (c == d) = true ∨ c = d := by
  rw [sameConverter, Bool.or_eq_true, Bool.and_eq_true, decide_eq_true_eq] at h
  exact h.imp_right And.right

theorem eq_of_sameConverter {c d : Converter} {m n : Option Nat} (proper : c.IsProper)
    (h : sameConverter c m d n = true) : c = d :=
  (beq_or_eq_of_sameConverter h).elim (Converter.eq_of_beq_of_isProper proper) id

theorem beq_trans {a b c : MeasureUnit} (h : (a == b) = true) (h' : (b == c) = true) :
    (a == c) = true := by
  induction a generalizing b c with
  | base s =>
    cases b <;> try cases h
    cases c <;> try cases h'
    simp only [base_beq_base, beq_iff_eq] at *
    rw [h, h']
  | alternate s p ih =>
    cases b <;> try cases h
    cases c <;> try cases h'
    simp only [alternate_beq_alternate, Bool.and_eq_true, beq_iff_eq] at *
    exact ⟨h.1.trans h'.1, ih h.2 h'.2⟩
  | product fs ih =>
    cases b <;> try cases h
    cases c <;> try cases h'
    obtain ⟨length, matched⟩ := product_beq_product.1 h
    obtain ⟨length', matched'⟩ := product_beq_product.1 h'
    refine product_beq_product.2 ⟨length.trans length', fun f hf => ?_⟩
    obtain ⟨g, hg, same, power⟩ := matched f hf
    obtain ⟨k, hk, same', power'⟩ := matched' g hg
    exact ⟨k, hk, ih f hf same same', power.trans power'⟩
  | transformed p k m ih =>
    cases b <;> try cases h
    cases c <;> try cases h'
    simp only [transformed_beq_transformed, Bool.and_eq_true] at *
    exact ⟨ih h.1 h'.1, sameConverter_trans h.2 h'.2⟩
  | noted a n ih =>
    cases b <;> try cases h
    cases c <;> try cases h'
    simp only [noted_beq_noted, Bool.and_eq_true, beq_iff_eq] at *
    exact ⟨ih h.1 h'.1, h.2.trans h'.2⟩

/-! ### Tidy units -/

def isProduct : MeasureUnit → Bool
  | product _ => true
  | _ => false

def isTransformed : MeasureUnit → Bool
  | transformed _ _ _ => true
  | _ => false

/-- Whether no two factors have equal units. -/
def Apart (fs : List (Factor MeasureUnit)) : Prop :=
  fs.Pairwise fun f g => (f.unit == g.unit) = false

instance (fs : List (Factor MeasureUnit)) : Decidable (Apart fs) :=
  inferInstanceAs (Decidable (fs.Pairwise _))

/-- Whether a unit is left as it is by a product of which it is a factor: it is neither a
product itself nor a number. -/
def IsFactor (u : MeasureUnit) : Prop := u.isProduct = false ∧ u.number? = none

instance (u : MeasureUnit) : Decidable u.IsFactor :=
  inferInstanceAs (Decidable (_ ∧ u.number? = none))

/-- Whether factors make a product: they differ, no power is zero, and there is not just one
of them with power one. -/
def MakesProduct (fs : List (Factor MeasureUnit)) : Prop :=
  Apart fs ∧ (∀ f ∈ fs, f.unit.IsFactor ∧ f.power.val ≠ 0) ∧ fs.map (·.power) ≠ [Power.one]

instance (fs : List (Factor MeasureUnit)) : Decidable (MakesProduct fs) :=
  inferInstanceAs (Decidable (_ ∧ _ ∧ _))

/-- Whether a converter is in normal form and does something. -/
def IsTransform (c : Converter) : Prop := c.normalize = c ∧ c ≠ .identity

instance (c : Converter) : Decidable (IsTransform c) := inferInstanceAs (Decidable (_ ∧ _))

mutual

/-- Whether the unit is in the form that the operations on units give it: each product is one
that its factors make, and a transformed unit has no other one as its parent. -/
def isTidy : MeasureUnit → Bool
  | base _ => true
  | alternate _ parent => parent.isTidy
  | product fs => decide (MakesProduct fs) && allTidy fs
  | transformed parent c mark =>
    parent.isTidy && !parent.isTransformed && decide (IsTransform c) && mark.isNone
  | noted actual _ => actual.isTidy
termination_by structural u => u

def allTidy : List (Factor MeasureUnit) → Bool
  | [] => true
  | f :: fs => factorTidy f && allTidy fs
termination_by structural fs => fs

def factorTidy : Factor MeasureUnit → Bool
  | ⟨u, _⟩ => u.isTidy
termination_by structural f => f

end

/-- A product is tidy if its factors make it and their units are tidy. -/
theorem isTidy_product {fs : List (Factor MeasureUnit)} :
    (product fs).isTidy = true ↔ MakesProduct fs ∧ ∀ f ∈ fs, f.unit.isTidy = true := by
  have all : ∀ fs : List (Factor MeasureUnit), allTidy fs = true ↔ ∀ f ∈ fs, f.unit.isTidy = true := by
    intro fs
    induction fs with
    | nil => simp [allTidy]
    | cons f fs ih =>
      obtain ⟨unit, power⟩ := f
      simp [allTidy, factorTidy, ih]
  rw [isTidy, Bool.and_eq_true, decide_eq_true_eq, all]

theorem isTidy_transformed {parent : MeasureUnit} {c : Converter} {mark : Option Nat} :
    (transformed parent c mark).isTidy = true ↔ parent.isTidy = true ∧
      parent.isTransformed = false ∧ IsTransform c ∧ mark = none := by
  simp only [isTidy, Bool.and_eq_true, Bool.not_eq_true', decide_eq_true_eq, Option.isNone_iff_eq_none,
    and_assoc]

/-! ### Units with different factors -/

/-- Whether the factors of each product in a unit have different units. -/
inductive IsDistinct : MeasureUnit → Prop where
  | base (symbol : String) : IsDistinct (.base symbol)
  | alternate (symbol : String) {parent : MeasureUnit} (inner : parent.IsDistinct) :
      IsDistinct (.alternate symbol parent)
  | product {fs : List (Factor MeasureUnit)} (apart : Apart fs)
      (units : ∀ f ∈ fs, f.unit.IsDistinct) : IsDistinct (.product fs)
  | transformed {parent : MeasureUnit} (c : Converter) (mark : Option Nat)
      (inner : parent.IsDistinct) : IsDistinct (.transformed parent c mark)
  | noted {actual : MeasureUnit} (note : String) (inner : actual.IsDistinct) :
      IsDistinct (.noted actual note)

/-- In a tidy unit the factors of each product differ. -/
theorem isDistinct_of_isTidy {u : MeasureUnit} (tidy : u.isTidy = true) : u.IsDistinct := by
  induction u with
  | base symbol => exact .base symbol
  | alternate symbol parent ih => exact .alternate symbol (ih tidy)
  | product fs ih =>
    obtain ⟨⟨apart, -⟩, units⟩ := isTidy_product.1 tidy
    exact .product apart fun f hf => ih f hf (units f hf)
  | transformed parent c mark ih => exact .transformed c mark (ih (isTidy_transformed.1 tidy).1)
  | noted actual note ih => exact .noted note (ih tidy)

/-- Matching is one to one on factors that differ: other factors have other matches. -/
theorem exists_append_perm_of_matched {fs gs : List (Factor MeasureUnit)} (apart : Apart fs)
    (symm : ∀ f ∈ fs, ∀ v, (f.unit == v) = true → (v == f.unit) = true)
    (matched : ∀ f ∈ fs, ∃ g ∈ gs, (f.unit == g.unit) = true ∧ f.power = g.power) :
    ∃ ks rest, (ks ++ rest).Perm gs ∧
      List.Forall₂ (fun f k => (f.unit == k.unit) = true ∧ f.power = k.power) fs ks := by
  induction fs generalizing gs with
  | nil => exact ⟨[], gs, List.Perm.refl _, .nil⟩
  | cons f fs ih =>
    obtain ⟨g, hg, same⟩ := matched f (by simp)
    obtain ⟨front, back, rfl⟩ := List.append_of_mem hg
    have differ := List.pairwise_cons.1 apart
    have others : ∀ f' ∈ fs, ∃ g' ∈ front ++ back, (f'.unit == g'.unit) = true ∧
        f'.power = g'.power := by
      intro f' hf'
      obtain ⟨g', hg', same'⟩ := matched f' (by simp [hf'])
      refine ⟨g', ?_, same'⟩
      rcases List.mem_append.1 hg' with hg' | hg'
      · simp [hg']
      · rcases List.mem_cons.1 hg' with rfl | hg'
        · have equal := beq_trans same.1 (symm f' (by simp [hf']) _ same'.1)
          rw [differ.1 f' hf'] at equal
          cases equal
        · simp [hg']
    obtain ⟨ks, rest, perm, related⟩ := ih differ.2 (fun f' hf' => symm f' (by simp [hf'])) others
    exact ⟨g :: ks, rest, (List.Perm.cons g perm).trans List.perm_middle.symm, .cons same related⟩

/-- Lists of one length whose factors match do so up to their order. -/
theorem exists_perm_of_matched {fs gs : List (Factor MeasureUnit)} (apart : Apart fs)
    (symm : ∀ f ∈ fs, ∀ v, (f.unit == v) = true → (v == f.unit) = true)
    (length : fs.length = gs.length)
    (matched : ∀ f ∈ fs, ∃ g ∈ gs, (f.unit == g.unit) = true ∧ f.power = g.power) :
    ∃ ks, ks.Perm gs ∧
      List.Forall₂ (fun f k => (f.unit == k.unit) = true ∧ f.power = k.power) fs ks := by
  obtain ⟨ks, rest, perm, related⟩ := exists_append_perm_of_matched apart symm matched
  have lengths := perm.length_eq
  rw [List.length_append, ← length, related.length_eq] at lengths
  rw [List.eq_nil_of_length_eq_zero (by omega : rest.length = 0), List.append_nil] at perm
  exact ⟨ks, perm, related⟩

/-- Equality is symmetric from a unit on whose products have different factors. -/
theorem IsDistinct.beq_symm {a b : MeasureUnit} (distinct : a.IsDistinct) (h : (a == b) = true) :
    (b == a) = true := by
  induction a generalizing b with
  | base s =>
    cases b <;> try cases h
    simp only [base_beq_base, beq_iff_eq] at *
    exact h.symm
  | alternate s p ih =>
    cases b <;> try cases h
    cases distinct with
    | alternate _ inner =>
      simp only [alternate_beq_alternate, Bool.and_eq_true, beq_iff_eq] at *
      exact ⟨h.1.symm, ih inner h.2⟩
  | product fs ih =>
    cases b with
    | product gs =>
      cases distinct with
      | product apart units =>
        obtain ⟨length, matched⟩ := product_beq_product.1 h
        obtain ⟨ks, perm, related⟩ := exists_perm_of_matched apart
          (fun f hf _ same => ih f hf (units f hf) same) length matched
        refine product_beq_product.2 ⟨length.symm, fun g hg => ?_⟩
        obtain ⟨f, hf, same, power⟩ := exists_of_forall₂ related g (perm.mem_iff.2 hg)
        exact ⟨f, hf, ih f hf (units f hf) same, power.symm⟩
    | _ => cases h
  | transformed p k m ih =>
    cases b <;> try cases h
    cases distinct with
    | transformed _ _ inner =>
      simp only [transformed_beq_transformed, Bool.and_eq_true] at *
      exact ⟨ih inner h.1, sameConverter_symm h.2⟩
  | noted a n ih =>
    cases b <;> try cases h
    cases distinct with
    | noted _ inner =>
      simp only [noted_beq_noted, Bool.and_eq_true, beq_iff_eq] at *
      exact ⟨ih inner h.1, h.2.symm⟩

theorem beq_symm {a b : MeasureUnit} (tidy : a.isTidy = true) (h : (a == b) = true) :
    (b == a) = true :=
  (isDistinct_of_isTidy tidy).beq_symm h

/-- Factors that differ do so either way round. -/
theorem Apart.both {fs : List (Factor MeasureUnit)} (apart : Apart fs)
    (distinct : ∀ f ∈ fs, f.unit.IsDistinct) :
    fs.Pairwise fun f g => (f.unit == g.unit) = false ∧ (g.unit == f.unit) = false := by
  refine apart.imp_of_mem fun {f g} _ hg differ => ⟨differ, ?_⟩
  rw [← Bool.not_eq_true] at differ ⊢
  exact fun same => differ ((distinct g hg).beq_symm same)

/-- Equal products have the same factors in some order. -/
theorem exists_perm_of_product_beq {fs gs : List (Factor MeasureUnit)}
    (distinct : (product fs).IsDistinct) (h : (product fs == product gs) = true) :
    ∃ ks, ks.Perm gs ∧
      List.Forall₂ (fun f k => (f.unit == k.unit) = true ∧ f.power = k.power) fs ks := by
  cases distinct with
  | product apart units =>
    obtain ⟨length, matched⟩ := product_beq_product.1 h
    exact exists_perm_of_matched apart (fun f hf _ same => (units f hf).beq_symm same) length matched

end MeasureUnit

end Metrology
