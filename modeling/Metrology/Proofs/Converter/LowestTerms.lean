import Metrology.Proofs.Converter.Exactness

/-!
# Reducing to lowest terms

Only merging reduces a scaling to lowest terms. A chain of scalings is merged into one, so that it
comes out reduced, unless its innermost step finds everything outside it cancelled: that step meets
no other and stays as it was given.
-/
namespace Metrology.Converter

/-- In a composition a scaling is in lowest terms, or it is a step of one of the parts that met no
other scaling. -/
theorem isReduced_or_mem_of_compose {a b : Converter} {r : Ratio}
    (h : ratio r ∈ (a.compose b).steps) : r.IsReduced ∨ ratio r ∈ a.steps ++ b.steps := by
  rw [steps_compose] at h
  refine forall_mergeSteps (P := fun s => ∀ r, s = ratio r → r.IsReduced ∨ s ∈ a.steps ++ b.steps)
    ?_ (fun s hs _ _ => Or.inr hs) _ h r rfl
  intro x y m _ _ merged _ t eq
  subst eq
  left
  rcases merge_kinds merged with ⟨p, q, -, -, sum⟩ | ⟨p, q, -, -, product⟩ |
    ⟨p, q, -, -, none | ⟨z, double⟩⟩ | ⟨p, q, -, -, none⟩ | ⟨p, q, -, -, none⟩
  · unfold shiftBy at sum
    split at sum <;> cases sum
  · have proper := isProper_scaleBy (p.toRat * q.toRat)
    rwa [← product] at proper
  · cases none
  · cases double
  · cases none
  · cases none

theorem isRational_of_mem_steps {c s : Converter} (rational : c.IsRational) (h : s ∈ c.steps) :
    ∃ r : Ratio, s = ratio r := by
  induction c with
  | identity => cases h
  | ratio r => exact ⟨r, List.mem_singleton.1 h⟩
  | pair outer inner ho hi =>
    rcases List.mem_append.1 h with h | h
    · exact ho rational.1 h
    · exact hi rational.2 h
  | _ => cases rational

/-- Scalings are merged into one, unless they cancel. -/
theorem mergeSteps_of_ratios {l : List Converter} (h : ∀ s ∈ l, ∃ r : Ratio, s = ratio r) :
    (mergeSteps l = [] ∧ (l.map factor).prod = 1) ∨
      ∃ r : Ratio, mergeSteps l = [ratio r] ∧ (l.map factor).prod = r.toRat := by
  have value := isInterpretation_factor.mergeSteps l
  have ratios : ∀ s ∈ mergeSteps l, ∃ r : Ratio, s = ratio r := by
    refine forall_mergeSteps (fun ⟨r, hr⟩ ⟨s, hs⟩ merged keeps => ?_) h
    rw [hr, hs, merge_ratio] at merged
    cases merged
    rcases scaleBy_cases (r.toRat * s.toRat) with ⟨eq, -⟩ | ⟨t, eq, -⟩
    · rw [eq] at keeps
      cases keeps
    · exact ⟨t, eq⟩
  have normal : IsNormal (mergeSteps l).reverse := by
    rw [mergeSteps, List.reverse_reverse]
    refine (foldl_push_invariant (by simp) List.isChain_nil fun s hs => ?_).2
    obtain ⟨r, rfl⟩ := h s hs
    trivial
  cases merged : mergeSteps l with
  | nil => exact Or.inl ⟨rfl, by rw [← value, merged]; rfl⟩
  | cons s rest =>
    rw [merged] at value ratios normal
    obtain ⟨r, rfl⟩ := ratios s (by simp)
    cases rest with
    | nil => exact Or.inr ⟨r, rfl, by rw [← value]; exact mul_one _⟩
    | cons t rest =>
      obtain ⟨r', rfl⟩ := ratios t (by simp)
      rw [IsNormal, List.isChain_reverse] at normal
      have apart := (List.isChain_cons_cons.1 normal).1
      rw [merge_ratio] at apart
      cases apart

/-- What becomes of a chain of scalings: its innermost step as it is, if the steps outside it
cancel, and otherwise the scaling by its factor in lowest terms. -/
theorem normalize_of_steps {c : Converter} {l : List Converter} {r : Ratio}
    (rational : c.IsRational) (steps : c.steps = l ++ [ratio r]) :
    c.normalize = if (l.map factor).prod = 1 then ratio r else scaleBy c.factor := by
  have ratios : ∀ s ∈ l, ∃ r : Ratio, s = ratio r := fun s hs =>
    isRational_of_mem_steps rational (by simp [steps, hs])
  have value : c.factor = (l.map factor).prod * r.toRat := by
    rw [← isInterpretation_factor.prod_steps c, steps]
    simp [factor]
  have last : mergeSteps c.steps = (push (mergeSteps l).reverse (ratio r)).reverse := by
    rw [steps, mergeSteps_concat]
  rw [normalize_eq, last, value]
  rcases mergeSteps_of_ratios ratios with ⟨merged, cancels⟩ | ⟨s, merged, product⟩
  · rw [merged, if_pos cancels]
    rfl
  · rw [merged, product, if_neg s.toRat_ne_one]
    have pushed : push [ratio s].reverse (ratio r) = place [] (scaleBy (s.toRat * r.toRat)) :=
      push_cons_of_merge (merge_ratio s r)
    rw [pushed]
    rcases scaleBy_cases (s.toRat * r.toRat) with ⟨eq, -⟩ | ⟨t, eq, -⟩ <;> rw [eq] <;> rfl

/-- Whether the innermost step is a scaling not in lowest terms and all outside it cancel. -/
def Keeps (c : Converter) (r : Ratio) : Prop :=
  ∃ l, c.steps = l ++ [ratio r] ∧ (l.map factor).prod = 1 ∧ ¬r.IsReduced

variable {a b c : Converter} {r : Ratio}

theorem normalize_of_keeps (rational : c.IsRational) (keeps : c.Keeps r) : c.normalize = ratio r := by
  obtain ⟨l, steps, cancels, -⟩ := keeps
  rw [normalize_of_steps rational steps, if_pos cancels]

/-- Any other chain of scalings is reduced: to the scaling by its factor in lowest terms. -/
theorem normalize_of_not_keeps (rational : c.IsRational) (reduced : ∀ r, ¬c.Keeps r) :
    c.normalize = scaleBy c.factor := by
  rcases List.eq_nil_or_concat c.steps with none | ⟨l, s, steps⟩
  · have one : c.factor = 1 := by
      rw [← isInterpretation_factor.prod_steps c, none]
      rfl
    rw [normalize_eq, none, one, scaleBy_one]
    rfl
  · rw [List.concat_eq_append] at steps
    obtain ⟨r, rfl⟩ := isRational_of_mem_steps rational (by simp [steps] : s ∈ c.steps)
    rw [normalize_of_steps rational steps]
    by_cases cancels : (l.map factor).prod = 1
    · have value : c.factor = r.toRat := by
        rw [← isInterpretation_factor.prod_steps c, steps]
        simp [cancels, factor]
      have proper : r.IsReduced := by
        by_contra unreduced
        exact reduced r ⟨l, steps, cancels, unreduced⟩
      rw [if_pos cancels, value, scaleBy_toRat proper]
    · rw [if_neg cancels]

/-- A normal form tells which terms were kept. -/
theorem keeps_iff (rational : c.IsRational) :
    c.Keeps r ↔ c.normalize = ratio r ∧ ¬r.IsReduced := by
  constructor
  · intro keeps
    refine ⟨normalize_of_keeps rational keeps, ?_⟩
    obtain ⟨_, -, -, unreduced⟩ := keeps
    exact unreduced
  · rintro ⟨normal, unreduced⟩
    by_cases reduced : ∀ r, ¬c.Keeps r
    · have proper := isProper_scaleBy c.factor
      rw [← normalize_of_not_keeps rational reduced, normal] at proper
      exact absurd proper unreduced
    · obtain ⟨r', keeps⟩ := not_forall_not.1 reduced
      cases normal.symm.trans (normalize_of_keeps rational keeps)
      exact keeps

theorem not_keeps {s : Ratio} (rational : c.IsRational) (normal : c.normalize = ratio s)
    (proper : s.IsReduced) (r : Ratio) : ¬c.Keeps r := by
  intro keeps
  obtain ⟨same, unreduced⟩ := (keeps_iff rational).1 keeps
  cases normal.symm.trans same
  exact unreduced proper

/-- Chains of exact scalings by one number have one normal form just if they keep the same terms. -/
theorem normalize_eq_iff (rational : a.IsRational) (rational' : b.IsRational)
    (equal : a.factor = b.factor) :
    a.normalize = b.normalize ↔ ∀ r, a.Keeps r ↔ b.Keeps r := by
  constructor
  · intro same r
    rw [keeps_iff rational, keeps_iff rational', same]
  · intro same
    by_cases reduced : ∀ r, ¬a.Keeps r
    · have reduced' : ∀ r, ¬b.Keeps r := fun r keeps => reduced r ((same r).2 keeps)
      rw [normalize_of_not_keeps rational reduced, normalize_of_not_keeps rational' reduced', equal]
    · obtain ⟨r, keeps⟩ := not_forall_not.1 reduced
      rw [normalize_of_keeps rational keeps, normalize_of_keeps rational' ((same r).1 keeps)]

/-- The normal form of a chain of exact scalings is in lowest terms just if it keeps none. -/
theorem forall_isReduced_iff (rational : c.IsRational) :
    (∀ r, ratio r ∈ c.normalize.steps → r.IsReduced) ↔ ∀ r, ¬c.Keeps r := by
  constructor
  · intro proper r keeps
    obtain ⟨normal, unreduced⟩ := (keeps_iff rational).1 keeps
    exact unreduced (proper r (by simp [normal, steps]))
  · intro reduced r step
    rw [normalize_of_not_keeps rational reduced] at step
    rcases scaleBy_cases c.factor with ⟨eq, -⟩ | ⟨t, eq, -⟩
    · rw [eq] at step
      cases step
    · have proper := isProper_scaleBy c.factor
      rw [eq] at step proper
      cases List.mem_singleton.1 step
      exact proper

/-- Chains of exact scalings by one number have one normal form, those apart whose innermost step is
not in lowest terms and meets no other: such a chain shares its normal form with those alone that
keep the same step, and all others are reduced to lowest terms. Whatever is composed, a scaling in
the result is in lowest terms or was a step before. -/
theorem normalize_canonical (a b : Converter) :
    (a.IsRational → b.IsRational → a.factor = b.factor →
      (a.normalize = b.normalize ↔ ∀ r, a.Keeps r ↔ b.Keeps r)) ∧
    (a.IsRational → ((∀ r, ratio r ∈ a.normalize.steps → r.IsReduced) ↔ ∀ r, ¬a.Keeps r)) ∧
    (a.IsRational → b.IsRational →
      ((∀ r, ratio r ∈ (a.compose b).steps → r.IsReduced) ↔ ∀ r, ¬(pair a b).Keeps r)) ∧
    (∀ r, ratio r ∈ (a.compose b).steps → r.IsReduced ∨ ratio r ∈ a.steps ++ b.steps) ∧
    (∀ r, ratio r ∈ a.normalize.steps → r.IsReduced ∨ ratio r ∈ a.steps) :=
  ⟨normalize_eq_iff, forall_isReduced_iff,
    -- A composition is the normal form of the pair.
    fun rational rational' => forall_isReduced_iff (c := pair a b) ⟨rational, rational'⟩,
    fun _ => isReduced_or_mem_of_compose, fun _ => isReduced_or_mem_of_compose⟩

/-- Two fourths are a half once they have merged with another step. -/
theorem normalize_canonical_halves :
    let fourths := ratio ⟨2, 4, by decide, by decide, by decide⟩
    let half := ratio ⟨1, 2, by decide, by decide, by decide⟩
    let twice := ratio ⟨2, 1, by decide, by decide, by decide⟩
    let chain := pair fourths (pair twice half)
    chain.factor = half.factor ∧ chain.normalize = half.normalize ∧
      (∀ r, ratio r ∈ chain.normalize.steps → r.IsReduced) ∧
      ∀ r, ratio r ∈ (fourths.compose (pair twice half)).steps → r.IsReduced := by
  intro fourths half twice chain
  have equal : chain.factor = half.factor := by decide +kernel
  have normal : chain.normalize = half := by decide +kernel
  have chained : chain.IsRational := by decide
  have single : half.IsRational := by decide
  have reduced : ∀ r, ¬chain.Keeps r := not_keeps chained normal (by decide)
  have reduced' : ∀ r, ¬half.Keeps r := not_keeps single rfl (by decide)
  exact ⟨equal, ((normalize_canonical chain half).1 chained single equal).2 fun r =>
    iff_of_false (reduced r) (reduced' r), ((normalize_canonical chain half).2.1 chained).2 reduced,
    ((normalize_canonical fourths (pair twice half)).2.2.1 (by decide) (by decide)).2 reduced⟩

/-- Two fourths and a half scale by one number and have two normal forms, one of them not in lowest
terms. -/
theorem exists_normalize_ne :
    let fourths := ratio ⟨2, 4, by decide, by decide, by decide⟩
    let half := ratio ⟨1, 2, by decide, by decide, by decide⟩
    ofTerms 2 4 = .ok fourths ∧ ofTerms 1 2 = .ok half ∧ fourths.factor = half.factor ∧
    fourths.normalize ≠ half.normalize ∧
    ∃ r : Ratio, ratio r ∈ fourths.normalize.steps ∧ ¬r.IsReduced := by
  intro fourths half
  exact ⟨rfl, rfl, by decide +kernel, by decide +kernel, _, List.mem_singleton.2 rfl, by decide⟩

end Metrology.Converter
