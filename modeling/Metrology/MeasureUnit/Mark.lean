import Metrology.MeasureUnit.Basic

/-!
# Marks

A converter with a NaN in it differs from itself, and two units that were built from
it are two different units even if they look alike. To find such a unit again it has
to be marked. `marked` gives the parts of a unit that need a mark the numbers from a
counter, and leaves a mark alone that is there already. After that the unit equals
itself: `marked_beq_self`.
-/
namespace Metrology.MeasureUnit

/-- The mark of a converter in a unit: the one it has, else the next number of the
counter if the converter differs from itself. -/
def markOf (converter : Converter) (mark : Option Nat) : StateM Nat (Option Nat) :=
  modifyGet fun n =>
    if mark.isNone && !(converter == converter) then (some n, n + 1) else (mark, n)

mutual

/-- The unit with every part marked that differs from itself. -/
def marked : MeasureUnit → StateM Nat MeasureUnit
  | base symbol => return base symbol
  | alternate symbol parent => do return alternate symbol (← parent.marked)
  | product fs => do return product (← markedFactors fs)
  | transformed parent converter mark => do
    let parent ← parent.marked
    return transformed parent converter (← markOf converter mark)
  | noted actual note => do return noted (← actual.marked) note
termination_by structural u => u

/-- The factors with their units marked. -/
def markedFactors : List (Factor MeasureUnit) → StateM Nat (List (Factor MeasureUnit))
  | [] => return []
  | f :: fs => do
    let f ← markedFactor f
    return f :: (← markedFactors fs)
termination_by structural fs => fs

/-- The factor with its unit marked. -/
def markedFactor : Factor MeasureUnit → StateM Nat (Factor MeasureUnit)
  | ⟨u, n⟩ => do return ⟨← u.marked, n⟩
termination_by structural f => f

end

/-! ### Marked units equal themselves -/

theorem sameConverter_self {converter : Converter} {mark : Option Nat}
    (h : (converter == converter) = true ∨ mark.isSome = true) :
    sameConverter converter mark converter mark = true := by
  rcases h with h | h <;> simp [sameConverter, h]

theorem sameConverter_markOf (converter : Converter) (mark : Option Nat) (n : Nat) :
    sameConverter converter ((markOf converter mark).run n).1
      converter ((markOf converter mark).run n).1 = true := by
  have run : (markOf converter mark).run n =
      if mark.isNone && !(converter == converter) then (some n, n + 1) else (mark, n) := rfl
  rw [run]
  apply sameConverter_self
  split
  · exact Or.inr rfl
  · rename_i h
    cases mark with
    | none => exact Or.inl (by simpa using h)
    | some m => exact Or.inr rfl

theorem subset_of_forall {fs gs : List (Factor MeasureUnit)}
    (h : ∀ f ∈ fs, f ∈ gs ∧ beqFactor f f = true) : subset fs gs = true := by
  induction fs with
  | nil => simp [subset]
  | cons f fs ih =>
    have head := h f List.mem_cons_self
    have tail := ih fun g mem => h g (List.mem_cons_of_mem f mem)
    simp only [subset, tail, Bool.and_true, List.any_eq_true]
    exact ⟨f, head.1, head.2⟩

mutual

/-- A marked unit equals itself, whatever is in its converters. -/
theorem marked_beq_self (u : MeasureUnit) (n : Nat) :
    beq (u.marked.run n).1 (u.marked.run n).1 = true := by
  cases u with
  | base symbol =>
    change beq (base symbol) (base symbol) = true
    simp [beq]
  | alternate symbol parent =>
    have inner := marked_beq_self parent n
    change beq (alternate symbol (parent.marked.run n).1)
      (alternate symbol (parent.marked.run n).1) = true
    simpa [beq] using inner
  | product fs =>
    have inner := markedFactors_beq_self fs n
    change beq (product ((markedFactors fs).run n).1) (product ((markedFactors fs).run n).1) = true
    simpa [beq] using subset_of_forall fun f mem => ⟨mem, inner f mem⟩
  | transformed parent converter mark =>
    have inner := marked_beq_self parent n
    have outer := sameConverter_markOf converter mark (parent.marked.run n).2
    let after := (markOf converter mark).run (parent.marked.run n).2
    change beq (transformed (parent.marked.run n).1 converter after.1)
      (transformed (parent.marked.run n).1 converter after.1) = true
    simpa [beq, inner] using outer
  | noted actual note =>
    have inner := marked_beq_self actual n
    change beq (noted (actual.marked.run n).1 note) (noted (actual.marked.run n).1 note) = true
    simpa [beq] using inner
termination_by structural u

theorem markedFactors_beq_self (fs : List (Factor MeasureUnit)) (n : Nat) :
    ∀ f ∈ ((markedFactors fs).run n).1, beqFactor f f = true := by
  cases fs with
  | nil =>
    intro f mem
    cases mem
  | cons f fs =>
    have head := markedFactor_beq_self f n
    have tail := markedFactors_beq_self fs ((markedFactor f).run n).2
    intro g mem
    change g ∈ ((markedFactor f).run n).1 :: ((markedFactors fs).run _).1 at mem
    rcases List.mem_cons.1 mem with eq | mem
    · rw [eq]
      exact head
    · exact tail g mem
termination_by structural fs

theorem markedFactor_beq_self (f : Factor MeasureUnit) (n : Nat) :
    beqFactor ((markedFactor f).run n).1 ((markedFactor f).run n).1 = true := by
  cases f with
  | mk u power =>
    have inner := marked_beq_self u n
    change beqFactor ⟨(u.marked.run n).1, power⟩ ⟨(u.marked.run n).1, power⟩ = true
    simpa [beqFactor] using inner
termination_by structural f

end

end Metrology.MeasureUnit
