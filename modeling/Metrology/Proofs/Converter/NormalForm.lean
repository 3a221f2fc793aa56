import Metrology.Proofs.Converter.Chain

/-!
# Normal forms of converters

Whatever is composed, pairs in any nesting, steps that the checked constructors refuse, and doubles of
any kind, the result is a left-nested chain in which no two neighbours compose to anything else than
the pair of them. A product of doubles that is not finite keeps its two steps apart, and steps that
cancel uncover steps that may merge in turn: neither leaves a pair of neighbours behind that would
merge.

Normal forms are exactly the converters that normalizing leaves alone. Equality is `=` here, so that
all this holds of NaNs too, which `==` would tell apart from themselves.
-/
namespace Metrology.Converter

/-- Whether the converter is the left-nested chain of its steps, and each two neighbours compose to a
chain of just the two. -/
structure IsNormalForm (c : Converter) : Prop where
  chain : ofSteps c.steps = c
  steps : ∀ s ∈ c.steps, s.IsStep
  apart : c.steps.IsChain fun outer inner => (outer.compose inner).steps = [outer, inner]

/-- Steps that merge compose to one step or to none. -/
theorem merge_eq_none_iff {outer inner : Converter} (ho : outer.IsStep) (hi : inner.IsStep) :
    outer.merge inner = none ↔ (outer.compose inner).steps = [outer, inner] := by
  have pushed : (outer.compose inner).steps = (push [outer] inner).reverse := by
    rw [steps_compose, steps_of_isStep ho, steps_of_isStep hi]
    rfl
  rw [pushed, push]
  cases outer.merge inner with
  | none => exact iff_of_true rfl rfl
  | some merged =>
    refine iff_of_false (Option.some_ne_none merged) fun two => ?_
    have length := congrArg List.length two
    by_cases cancelled : merged.isIdentity = true <;> simp [cancelled, push] at length

/-- A stack of steps is normal if its neighbours compose to pairs. -/
theorem isNormal_iff {l : List Converter} (h : ∀ s ∈ l, s.IsStep) : IsNormal l.reverse ↔
    l.IsChain fun outer inner => (outer.compose inner).steps = [outer, inner] := by
  rw [IsNormal, List.isChain_reverse]
  exact List.IsChain.iff_of_mem_imp fun _ _ ho hi => merge_eq_none_iff (h _ ho) (h _ hi)

/-- Normal forms are what normalizing leaves alone. -/
theorem isNormalForm_iff {c : Converter} : c.IsNormalForm ↔ c.normalize = c := by
  have steps : ∀ s ∈ c.steps, s.IsStep := fun _ => isStep_of_mem_steps
  constructor
  · intro normal
    rw [normalize_eq, mergeSteps_of_isNormal ((isNormal_iff steps).2 normal.apart), normal.chain]
  · intro fixed
    obtain ⟨normal, chain⟩ := isNormal_of_normalize fixed
    exact ⟨chain, steps, (isNormal_iff steps).1 normal⟩

theorem isNormalForm_compose (a b : Converter) : (a.compose b).IsNormalForm :=
  isNormalForm_iff.2 (normalize_compose a b)

/-- Composition gives normal forms, of which normalizing changes nothing, and so do normalizing and the
inversion of a pair, which compose. -/
theorem composition_normalizes (a b : Converter) :
    (a.compose b).IsNormalForm ∧ (a.compose b).normalize = a.compose b ∧
    (∀ c : Converter, c.normalize.IsNormalForm ∧ (c.IsNormalForm ↔ c.normalize = c)) ∧
    (pair a b).inverse.IsNormalForm :=
  ⟨isNormalForm_compose a b, normalize_compose a b,
    fun c => ⟨isNormalForm_compose identity c, isNormalForm_iff⟩,
    isNormalForm_compose b.inverse a.inverse⟩

/-- Offsets that cancel uncover two scalings whose product is too large for a double. -/
example :
    let large := multiply 1e200
    (pair large (add 1)).compose (pair (add (-1)) large) = pair large large := by
  decide +kernel

end Metrology.Converter
