import Metrology.MeasureUnit.Mark
import Metrology.Proofs.MeasureUnit.SystemUnits

/-!
# Marked units

Marking makes a unit equal to itself, and with new marks it makes no other units equal: the numbers
come from a counter that all marks in the unit are below. So factors that differ still do when they
are marked, and a marked unit is definite.
-/
namespace Metrology.MeasureUnit

variable {u v : MeasureUnit} {k m n : Nat}

/-- Whether all marks in a unit are below a number. -/
inductive MarksBelow (n : Nat) : MeasureUnit → Prop where
  | base (symbol : String) : MarksBelow n (.base symbol)
  | alternate (symbol : String) {parent : MeasureUnit} (inner : parent.MarksBelow n) :
      MarksBelow n (.alternate symbol parent)
  | product {fs : List (Factor MeasureUnit)} (units : ∀ f ∈ fs, f.unit.MarksBelow n) :
      MarksBelow n (.product fs)
  | transformed {parent : MeasureUnit} (c : Converter) {mark : Option Nat}
      (inner : parent.MarksBelow n) (outer : ∀ m ∈ mark, m < n) :
      MarksBelow n (.transformed parent c mark)
  | noted {actual : MeasureUnit} (note : String) (inner : actual.MarksBelow n) :
      MarksBelow n (.noted actual note)

theorem MarksBelow.mono (h : u.MarksBelow m) (le : m ≤ n) : u.MarksBelow n := by
  induction h with
  | base symbol => exact .base symbol
  | alternate symbol _ ih => exact .alternate symbol ih
  | product _ ih => exact .product ih
  | transformed c _ outer ih =>
    exact .transformed c ih fun mark hm => Nat.lt_of_lt_of_le (outer mark hm) le
  | noted note _ ih => exact .noted note ih

/-- The operations put no mark into a unit that is not in a part of it already. -/
theorem isInvariant_marksBelow : IsInvariant (MarksBelow n) fun _ => True where
  units := fun | .product units => units
  product _ units _ := .product fun f hf => (units f hf).1
  parent := fun | .transformed _ inner _ => ⟨inner, trivial⟩
  transformed inner _ _ _ := .transformed _ inner (by simp)
  changed := fun | .transformed _ inner _, _, _ => .transformed _ inner (by simp)
  identity := trivial
  compose _ _ := trivial
  power _ _ := trivial

theorem IsBuilt.marksBelow (h : u.IsBuilt) : u.MarksBelow n :=
  h.of_isInvariant isInvariant_marksBelow .base (fun symbol _ => .alternate symbol)
    (fun _ => .noted _) fun | .noted _ inner => inner

/-! ### The counter -/

/-- A converter gets the next number exactly if it has no mark and differs from itself. -/
theorem run_markOf (c : Converter) (mark : Option Nat) (n : Nat) :
    ((markOf c mark).run n = (some n, n + 1) ∧ mark = none) ∨ (markOf c mark).run n = (mark, n) := by
  have run : (markOf c mark).run n =
      if mark.isNone && !(c == c) then (some n, n + 1) else (mark, n) := rfl
  rw [run]
  split
  · rename_i new
    rw [Bool.and_eq_true, Option.isNone_iff_eq_none] at new
    exact Or.inl ⟨rfl, new.1⟩
  · exact Or.inr rfl

theorem run_marked_product (fs : List (Factor MeasureUnit)) (n : Nat) :
    (product fs).marked.run n =
      (product ((markedFactors fs).run n).1, ((markedFactors fs).run n).2) := rfl

theorem run_marked_transformed (parent : MeasureUnit) (c : Converter) (mark : Option Nat) (n : Nat) :
    (transformed parent c mark).marked.run n =
      (transformed (parent.marked.run n).1 c ((markOf c mark).run (parent.marked.run n).2).1,
        ((markOf c mark).run (parent.marked.run n).2).2) := rfl

theorem run_markedFactors_cons (f : Factor MeasureUnit) (fs : List (Factor MeasureUnit)) (n : Nat) :
    (markedFactors (f :: fs)).run n =
      (⟨(f.unit.marked.run n).1, f.power⟩ :: ((markedFactors fs).run (f.unit.marked.run n).2).1,
        ((markedFactors fs).run (f.unit.marked.run n).2).2) := by
  obtain ⟨unit, power⟩ := f
  rfl

theorem le_markOf (c : Converter) (mark : Option Nat) (n : Nat) : n ≤ ((markOf c mark).run n).2 := by
  rcases run_markOf c mark n with ⟨run, -⟩ | run <;> simp [run]

theorem le_markedFactors_of {fs : List (Factor MeasureUnit)}
    (units : ∀ f ∈ fs, ∀ n, n ≤ (f.unit.marked.run n).2) (n : Nat) :
    n ≤ ((markedFactors fs).run n).2 := by
  induction fs generalizing n with
  | nil => exact Nat.le_refl n
  | cons f fs ih =>
    rw [run_markedFactors_cons]
    exact Nat.le_trans (units f (by simp) n) (ih (fun g hg => units g (by simp [hg])) _)

/-- Numbers are given out upwards. -/
theorem le_marked (u : MeasureUnit) (n : Nat) : n ≤ (u.marked.run n).2 := by
  induction u generalizing n with
  | base symbol => exact Nat.le_refl n
  | alternate symbol parent ih => exact ih n
  | product fs ih => exact le_markedFactors_of ih n
  | transformed parent c mark ih => exact Nat.le_trans (ih n) (le_markOf c mark _)
  | noted actual note ih => exact ih n

/-- Whether a factor is marked with numbers from one on that stay below another. -/
def IsMarkedWithin (first last : Nat) (f g : Factor MeasureUnit) : Prop :=
  ∃ i, first ≤ i ∧ (f.unit.marked.run i).2 ≤ last ∧ g = ⟨(f.unit.marked.run i).1, f.power⟩

/-- The factors of a product are marked one by one. -/
theorem forall₂_markedFactors (fs : List (Factor MeasureUnit)) (n : Nat) :
    List.Forall₂ (IsMarkedWithin n ((markedFactors fs).run n).2) fs ((markedFactors fs).run n).1 := by
  induction fs generalizing n with
  | nil => exact .nil
  | cons f fs ih =>
    rw [run_markedFactors_cons]
    refine .cons ⟨n, Nat.le_refl n, le_markedFactors_of (fun g _ => le_marked g.unit) _, rfl⟩ ?_
    refine (ih (f.unit.marked.run n).2).imp ?_
    rintro g g' ⟨i, from', to', rfl⟩
    exact ⟨i, Nat.le_trans (le_marked f.unit n) from', to', rfl⟩

/-- Marking stays below the counter. -/
theorem marksBelow_marked (below : u.MarksBelow n) :
    (u.marked.run n).1.MarksBelow (u.marked.run n).2 := by
  induction u generalizing n with
  | base symbol => exact .base symbol
  | alternate symbol parent ih =>
    cases below with | alternate _ inner =>
    exact .alternate symbol (ih inner)
  | product fs ih =>
    cases below with | product units =>
    refine .product fun g hg => ?_
    obtain ⟨f, hf, i, first, last, rfl⟩ := exists_of_forall₂ (forall₂_markedFactors fs n) g hg
    exact (ih f hf ((units f hf).mono first)).mono last
  | transformed parent c mark ih =>
    cases below with | transformed _ inner outer =>
    rw [run_marked_transformed]
    refine .transformed c ((ih inner).mono (le_markOf c mark _)) ?_
    rcases run_markOf c mark (parent.marked.run n).2 with ⟨run, -⟩ | run
    · simp [run]
    · rw [run]
      exact fun m hm => Nat.lt_of_lt_of_le (outer m hm) (le_marked parent n)
  | noted actual note ih =>
    cases below with | noted _ inner =>
    exact .noted note (ih inner)

/-! ### What equals a marked unit -/

/-- New marks on two converters differ from each other and from those that are there already. -/
theorem sameConverter_of_markOf {c d : Converter} {mark mark' : Option Nat}
    (below : ∀ j ∈ mark, j < m) (below' : ∀ j ∈ mark', j < m)
    (apart : ((markOf c mark).run m).2 ≤ n)
    (h : sameConverter c ((markOf c mark).run m).1 d ((markOf d mark').run n).1 = true) :
    sameConverter c mark d mark' = true := by
  simp only [sameConverter, Bool.or_eq_true, Bool.and_eq_true, decide_eq_true_eq, beq_iff_eq] at h ⊢
  refine h.imp_right ?_
  rintro ⟨⟨marked, same⟩, rfl⟩
  rcases run_markOf c mark m with ⟨run, rfl⟩ | run <;>
    rcases run_markOf c mark' n with ⟨run', rfl⟩ | run' <;>
    simp only [run, run'] at apart marked same
  · cases same
    omega
  · exact absurd (below' m same.symm) (Nat.lt_irrefl m)
  · have old := below n same
    omega
  · exact ⟨⟨marked, same⟩, rfl⟩

/-- Units that are equal when they are marked one after the other were equal before. -/
theorem beq_of_marked_beq (hu : u.MarksBelow m) (hv : v.MarksBelow m)
    (apart : (u.marked.run m).2 ≤ n) (same : ((u.marked.run m).1 == (v.marked.run n).1) = true) :
    (u == v) = true := by
  induction u generalizing v m n with
  | base symbol => cases v <;> exact same
  | alternate symbol parent ih =>
    cases v <;> try cases same
    cases hu with | alternate _ inner =>
    cases hv with | alternate _ inner' =>
    obtain ⟨symbols, parents⟩ := Bool.and_eq_true_iff.1 same
    rw [alternate_beq_alternate, symbols, ih inner inner' apart parents]
    rfl
  | product fs ih =>
    cases v <;> try cases same
    rename_i gs
    cases hu with | product units =>
    cases hv with | product units' =>
    rw [run_marked_product, run_marked_product] at same
    rw [run_marked_product] at apart
    have marked := forall₂_markedFactors fs m
    have marked' := forall₂_markedFactors gs n
    obtain ⟨length, matched⟩ := product_beq_product.1 same
    rw [← marked.length_eq, ← marked'.length_eq] at length
    refine product_beq_product.2 ⟨length, fun f hf => ?_⟩
    obtain ⟨f', hf', i, first, last, rfl⟩ := exists_of_forall₂ marked.flip f hf
    obtain ⟨g', hg', same, powers⟩ := matched _ hf'
    obtain ⟨g, hg, j, first', -, rfl⟩ := exists_of_forall₂ marked' g' hg'
    refine ⟨g, hg, ih f hf ((units f hf).mono first) ((units' g hg).mono first) ?_ same, powers⟩
    exact (last.trans apart).trans first'
  | transformed parent c mark ih =>
    cases v <;> try cases same
    rename_i parent' d mark'
    cases hu with | transformed _ inner outer =>
    cases hv with | transformed _ inner' outer' =>
    rw [run_marked_transformed, run_marked_transformed, transformed_beq_transformed,
      Bool.and_eq_true] at same
    rw [run_marked_transformed] at apart
    have first := le_marked parent m
    have parents := ih inner inner' ((le_markOf c mark _).trans apart) same.1
    have converters := sameConverter_of_markOf (fun j hj => (outer j hj).trans_le first)
      (fun j hj => (outer' j hj).trans_le first) (apart.trans (le_marked parent' n)) same.2
    rw [transformed_beq_transformed, parents, converters]
    rfl
  | noted actual note ih =>
    cases v <;> try cases same
    cases hu with | noted _ inner =>
    cases hv with | noted _ inner' =>
    obtain ⟨units, notes⟩ := Bool.and_eq_true_iff.1 same
    rw [noted_beq_noted, notes, ih inner inner' apart units]
    rfl

/-- Factors that differ do so when they are marked. -/
theorem apart_markedFactors {fs : List (Factor MeasureUnit)} (apart : Apart fs)
    (below : ∀ f ∈ fs, f.unit.MarksBelow n) : Apart ((markedFactors fs).run n).1 := by
  induction fs generalizing n with
  | nil => exact .nil
  | cons f fs ih =>
    obtain ⟨differ, apart⟩ := List.pairwise_cons.1 apart
    have first := le_marked f.unit n
    rw [run_markedFactors_cons]
    refine .cons (fun g' hg' => ?_) (ih apart fun g hg => (below g (by simp [hg])).mono first)
    obtain ⟨g, hg, i, from', -, rfl⟩ := exists_of_forall₂ (forall₂_markedFactors fs _) g' hg'
    rw [← Bool.not_eq_true]
    intro same
    have equal := beq_of_marked_beq (below f (by simp)) (below g (by simp [hg])) from' same
    rw [differ g hg] at equal
    cases equal

theorem IsDistinct.marked (distinct : u.IsDistinct) (below : u.MarksBelow n) :
    (u.marked.run n).1.IsDistinct := by
  induction u generalizing n with
  | base symbol => exact .base symbol
  | alternate symbol parent ih =>
    cases distinct with | alternate _ apart =>
    cases below with | alternate _ inner =>
    exact .alternate symbol (ih apart inner)
  | product fs ih =>
    cases distinct with | product apart units =>
    cases below with | product units' =>
    refine .product (apart_markedFactors apart units') fun g hg => ?_
    obtain ⟨f, hf, i, first, -, rfl⟩ := exists_of_forall₂ (forall₂_markedFactors fs n) g hg
    exact ih f hf (units f hf) ((units' f hf).mono first)
  | transformed parent c mark ih =>
    cases distinct with | transformed _ _ apart =>
    cases below with | transformed _ inner _ =>
    exact .transformed c _ (ih apart inner)
  | noted actual note ih =>
    cases distinct with | noted _ apart =>
    cases below with | noted _ inner =>
    exact .noted note (ih apart inner)

/-- A unit marked with new numbers is definite. -/
theorem isDefinite_marked (distinct : u.IsDistinct) (below : u.MarksBelow n) :
    (u.marked.run n).1.IsDefinite :=
  .of_beq_self (distinct.marked below) (marked_beq_self u n)

/-- A unit that is built is definite once it is marked. -/
theorem IsBuilt.isDefinite_marked (h : u.IsBuilt) (n : Nat) : (u.marked.run n).1.IsDefinite :=
  MeasureUnit.isDefinite_marked h.isDistinct h.marksBelow

end Metrology.MeasureUnit
