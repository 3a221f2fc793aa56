import Mathlib.Data.List.Chain
import Metrology.Converter.Composition

/-!
# Chains of steps

A converter is a tree over its steps, and composition rebuilds it as the left-nested
chain of the steps that `mergeSteps` leaves. What composition yields is settled here
for all converters, with unchecked steps and doubles of any kind: the steps of a chain
are steps, and no two neighbours of a composed chain merge.
-/
namespace Metrology.Converter

def IsStep : Converter → Prop
  | identity | pair _ _ => False
  | _ => True

theorem steps_of_isStep {c : Converter} (h : c.IsStep) : c.steps = [c] := by
  cases c <;> first | rfl | cases h

theorem isStep_of_mem_steps {c s : Converter} (h : s ∈ c.steps) : s.IsStep := by
  induction c with
  | identity => cases h
  | pair outer inner ho hi =>
    rcases List.mem_append.1 h with h | h
    · exact ho h
    · exact hi h
  | _ =>
    cases List.mem_singleton.1 h
    trivial

/-- What a pair has just if both of its parts do, a converter has just if all its steps do. -/
theorem iff_forall_steps {Q : Converter → Prop} (neutral : Q identity)
    (parts : ∀ outer inner, Q (pair outer inner) ↔ Q outer ∧ Q inner) (c : Converter) :
    Q c ↔ ∀ s ∈ c.steps, Q s := by
  induction c with
  | identity => exact iff_of_true neutral (List.forall_mem_nil _)
  | pair outer inner ho hi => rw [parts, steps, List.forall_mem_append, ho, hi]
  | _ => exact List.forall_mem_singleton.symm

theorem not_isIdentity_of_isStep {c : Converter} (h : c.IsStep) : c.isIdentity = false := by
  cases c <;> first | rfl | cases h

theorem isIdentity_iff {c : Converter} : c.isIdentity = true ↔ c = identity := by
  cases c <;> simp [isIdentity]

/-! ### Left-nested chains -/

/-- Pairing steps onto a converter adds them to its steps. -/
theorem steps_foldl_pair (l : List Converter) (c : Converter) :
    (l.foldl pair c).steps = c.steps ++ l.flatMap steps := by
  induction l generalizing c with
  | nil => simp
  | cons s l ih => simp [ih, steps]

theorem flatMap_steps {l : List Converter} (h : ∀ s ∈ l, s.IsStep) : l.flatMap steps = l := by
  induction l with
  | nil => rfl
  | cons s l ih =>
    rw [List.flatMap_cons, steps_of_isStep (h s (by simp)), ih fun t ht => h t (by simp [ht])]
    rfl

/-- The steps of a chain are those it was built from. -/
theorem steps_ofSteps {l : List Converter} (h : ∀ s ∈ l, s.IsStep) : (ofSteps l).steps = l := by
  cases l with
  | nil => rfl
  | cons s l =>
    rw [ofSteps, steps_foldl_pair, steps_of_isStep (h s (by simp)),
      flatMap_steps fun t ht => h t (by simp [ht])]
    rfl

/-- What the identity has, and a pair whose parts have it, a chain has whose links have it. -/
theorem ofSteps_induction {Q : Converter → Prop} (neutral : Q identity)
    (parts : ∀ {outer inner}, Q outer → Q inner → Q (pair outer inner)) {l : List Converter}
    (links : ∀ s ∈ l, Q s) : Q (ofSteps l) := by
  have chain : ∀ (l : List Converter) (c : Converter), Q c → (∀ s ∈ l, Q s) → Q (l.foldl pair c) := by
    intro l
    induction l with
    | nil => exact fun _ hc _ => hc
    | cons s l ih =>
      intro c hc links
      exact ih (pair c s) (parts hc (links s (by simp))) fun t ht => links t (by simp [ht])
  cases l with
  | nil => exact neutral
  | cons s l => exact chain l s (links s (by simp)) fun t ht => links t (by simp [ht])

theorem ofSteps_append_singleton {l : List Converter} (h : l ≠ []) (s : Converter) :
    ofSteps (l ++ [s]) = pair (ofSteps l) s := by
  cases l with
  | nil => exact absurd rfl h
  | cons t l => simp [ofSteps]

/-! ### What a merge leaves -/

/-- Two steps merge into one step, unless they cancel. -/
theorem isStep_of_merge {a b m : Converter} (h : a.merge b = some m) (keeps : m.isIdentity = false) :
    m.IsStep := by
  unfold merge at h
  split at h
  · cases h
    unfold ofRatio? at keeps ⊢
    split at keeps
    · cases keeps
    · trivial
  · cases h
    split at keeps
    · cases keeps
    · rw [if_neg (by assumption)]
      trivial
  · simp only at h
    split at h
    · cases h
    · cases h
      split at keeps
      · cases keeps
      · rw [if_neg (by assumption)]
        trivial
  · split at h
    · cases h
      cases keeps
    · cases h
  · split at h
    · cases h
      cases keeps
    · cases h
  · cases h

/-- A stack on which no step merges with the one below, the innermost step on top. -/
def IsNormal (stack : List Converter) : Prop :=
  stack.IsChain fun inner outer => outer.merge inner = none

theorem IsNormal.tail {t : Converter} {r : List Converter} (h : IsNormal (t :: r)) : IsNormal r :=
  List.IsChain.tail h

/-- Whatever merging keeps, pushing keeps on the whole stack. -/
theorem forall_push {P : Converter → Prop}
    (merge : ∀ {a b m : Converter}, P a → P b → a.merge b = some m → m.isIdentity = false → P m)
    {stack : List Converter} {s : Converter} (stacked : ∀ t ∈ stack, P t) (hs : P s) :
    ∀ t ∈ push stack s, P t := by
  induction stack generalizing s with
  | nil => simpa [push] using hs
  | cons top below ih =>
    have rest : ∀ t ∈ below, P t := fun t ht => stacked t (by simp [ht])
    rw [push]
    split
    · intro t ht
      rcases List.mem_cons.1 ht with rfl | ht
      · exact hs
      · exact stacked t ht
    · rename_i merged h
      split
      · exact rest
      · rename_i keeps
        exact ih rest (merge (stacked top (by simp)) hs h (by simpa using keeps))

/-- What the steps have and merges keep, the merged steps have. -/
theorem forall_mergeSteps {P : Converter → Prop}
    (merge : ∀ {a b m : Converter}, P a → P b → a.merge b = some m → m.isIdentity = false → P m)
    {l : List Converter} (h : ∀ s ∈ l, P s) : ∀ s ∈ mergeSteps l, P s := by
  have pushed : ∀ l stack : List Converter, (∀ t ∈ stack, P t) → (∀ s ∈ l, P s) →
      ∀ t ∈ l.foldl push stack, P t := by
    intro l
    induction l with
    | nil => exact fun _ stacked _ => stacked
    | cons s l ih =>
      exact fun stack stacked hl =>
        ih _ (forall_push merge stacked (hl s (by simp))) fun t ht => hl t (by simp [ht])
  exact fun s hs => pushed l [] (by simp) h s (List.mem_reverse.1 hs)

theorem push_isStep {stack : List Converter} {s : Converter} (stacked : ∀ t ∈ stack, t.IsStep)
    (hs : s.IsStep) : ∀ t ∈ push stack s, t.IsStep :=
  forall_push (fun _ _ h keeps => isStep_of_merge h keeps) stacked hs

/-- A push keeps neighbours from merging. -/
theorem push_isNormal {stack : List Converter} {s : Converter} (normal : IsNormal stack) :
    IsNormal (push stack s) := by
  induction stack generalizing s with
  | nil => exact List.isChain_singleton s
  | cons top below ih =>
    rw [push]
    split
    · rename_i h
      exact List.isChain_cons_cons.2 ⟨h, normal⟩
    · split
      · exact normal.tail
      · exact ih normal.tail

/-- Pushing more steps keeps a stack of steps on which nothing merges. -/
theorem foldl_push_invariant {stack l : List Converter} (stacked : ∀ t ∈ stack, t.IsStep)
    (normal : IsNormal stack) (hl : ∀ s ∈ l, s.IsStep) :
    (∀ t ∈ l.foldl push stack, t.IsStep) ∧ IsNormal (l.foldl push stack) := by
  induction l generalizing stack with
  | nil => exact ⟨stacked, normal⟩
  | cons s l ih =>
    exact ih (push_isStep stacked (hl s (by simp))) (push_isNormal normal)
      fun t ht => hl t (by simp [ht])

theorem mergeSteps_isStep {l : List Converter} (h : ∀ s ∈ l, s.IsStep) :
    ∀ s ∈ mergeSteps l, s.IsStep :=
  forall_mergeSteps (fun _ _ h keeps => isStep_of_merge h keeps) h

theorem steps_append_isStep (a b : Converter) : ∀ s ∈ a.steps ++ b.steps, s.IsStep := by
  intro s hs
  rcases List.mem_append.1 hs with h | h
  · exact isStep_of_mem_steps h
  · exact isStep_of_mem_steps h

/-- The steps of a composition are the merged steps of its parts. -/
theorem steps_compose (a b : Converter) :
    (a.compose b).steps = mergeSteps (a.steps ++ b.steps) :=
  steps_ofSteps (mergeSteps_isStep (steps_append_isStep a b))

/-- No two neighbouring steps of a composition merge. -/
theorem compose_isNormal (a b : Converter) : IsNormal (a.compose b).steps.reverse := by
  rw [steps_compose, mergeSteps, List.reverse_reverse]
  exact (foldl_push_invariant (by simp) List.isChain_nil (steps_append_isStep a b)).2

/-- A composition is the chain of its steps. -/
theorem ofSteps_steps_compose (a b : Converter) : ofSteps (a.compose b).steps = a.compose b := by
  rw [steps_compose]
  rfl

/-! ### Chains that are in normal form already -/

theorem foldl_push_of_isNormal {l stack : List Converter} (h : IsNormal (l.reverse ++ stack)) :
    l.foldl push stack = l.reverse ++ stack := by
  induction l generalizing stack with
  | nil => rfl
  | cons s l ih =>
    have shifted : (s :: l).reverse ++ stack = l.reverse ++ (s :: stack) := by simp
    rw [shifted] at h ⊢
    have pushed : push stack s = s :: stack := by
      cases stack with
      | nil => rfl
      | cons top below =>
        have apart := (List.isChain_cons_cons.1 (List.IsChain.right_of_append h)).1
        rw [push, apart]
    rw [List.foldl_cons, pushed, ih h]

/-- Steps that do not merge stay as they are. -/
theorem mergeSteps_of_isNormal {l : List Converter} (h : IsNormal l.reverse) : mergeSteps l = l := by
  have pushed : l.foldl push [] = l.reverse ++ [] := foldl_push_of_isNormal (by simpa using h)
  rw [mergeSteps, pushed, List.append_nil, List.reverse_reverse]

theorem mergeSteps_concat (l : List Converter) (s : Converter) :
    mergeSteps (l ++ [s]) = (push (mergeSteps l).reverse s).reverse := by
  rw [mergeSteps, List.foldl_append, mergeSteps, List.reverse_reverse]
  rfl

/-- To normalize is to merge the steps. -/
theorem normalize_eq (c : Converter) : c.normalize = ofSteps (mergeSteps c.steps) := by
  rw [normalize, compose]
  rfl

/-- Composition gives a normal form. -/
theorem normalize_compose (a b : Converter) : (a.compose b).normalize = a.compose b := by
  rw [normalize_eq, mergeSteps_of_isNormal (compose_isNormal a b), ofSteps_steps_compose]

theorem isNormal_of_normalize {c : Converter} (h : c.normalize = c) :
    IsNormal c.steps.reverse ∧ ofSteps c.steps = c := by
  rw [← h]
  exact ⟨compose_isNormal _ _, ofSteps_steps_compose _ _⟩

/-- The parts of a normal form compose to it. -/
theorem compose_ofSteps_of_isNormal {l l' : List Converter} (steps : ∀ s ∈ l ++ l', s.IsStep)
    (normal : IsNormal (l ++ l').reverse) :
    (ofSteps l).compose (ofSteps l') = ofSteps (l ++ l') := by
  rw [compose, steps_ofSteps fun s hs => steps s (List.mem_append_left l' hs),
    steps_ofSteps fun s hs => steps s (List.mem_append_right l hs), mergeSteps_of_isNormal normal]

end Metrology.Converter
