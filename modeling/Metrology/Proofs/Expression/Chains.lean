import Mathlib.Data.List.Induction
import Metrology.Proofs.Expression.Steps

/-!
# Chains of steps in print

A chain is printed step by step, from the last unit with a symbol that the steps lead to. What
is printed for the unit so far is read back as that unit, and so is what is printed for the
next: that is the invariant, both of `convert` along the steps and of `advance` along the units
with symbols. Only two offsets in a row would not be read back, and those merge.
-/
namespace Metrology.Expression

open Converter

variable {printer : Printer} {u : MeasureUnit} {r : Rendered}

/-! ### One step -/

theorem renders_withMultiple? (faithful : printer.table.IsFaithful) {c : Converter}
    {rendered : Rendered} (h : printer.withMultiple? c u r = some rendered) :
    Renders printer.table rendered (u.transform c) ∧ rendered.precedence = .atom := by
  unfold Printer.withMultiple? at h
  split at h
  · simp only [Option.bind_eq_bind, Option.bind_eq_some_iff] at h
    obtain ⟨multiple, -, v, found, h⟩ := h
    split at h
    · rename_i same
      cases h
      have symm := MeasureUnit.beq_symm (faithful.tidy found) same
      exact ⟨Or.inr (reads_symbol faithful found symm), rfl⟩
    · cases h
  · cases h

/-- What is printed for a step: with a multiple in front, or with the step applied. -/
theorem renders_step (faithful : printer.table.IsFaithful) {s : Converter} (spoken : s.IsSpoken)
    (h : Renders printer.table r u) (proper : u.IsProper)
    (first : r.precedence = .addition → ∀ x, s ≠ add x) :
    Renders printer.table (printer.convert s u r) (u.transform s) ∧
      ((printer.convert s u r).precedence = .addition → ∃ x, s = add x) := by
  unfold Printer.convert
  cases multiple : printer.withMultiple? s u r with
  | some rendered =>
    obtain ⟨renders, atom⟩ := renders_withMultiple? faithful multiple
    refine ⟨renders, fun addition => ?_⟩
    rw [atom] at addition
    cases addition
  | none =>
    cases s with
    | add x =>
      have strong : r.precedence ≠ .addition := fun addition => first addition x rfl
      exact ⟨renders_addOffset h strong proper spoken, fun _ => ⟨x, rfl⟩⟩
    | ratio q => exact ⟨renders_addRatio printer h proper spoken, fun addition => by cases addition⟩
    | log base =>
      obtain ⟨name, b, named, -⟩ := exists_logarithm spoken
      refine ⟨renders_addLogarithm h proper spoken, ?_⟩
      simp only [Printer.addLogarithm, named]
      intro addition
      cases addition
    | exp base =>
      obtain ⟨name, b, named, -⟩ := exists_base spoken
      refine ⟨renders_addExponential h proper spoken, ?_⟩
      simp only [Printer.addExponential, named]
      intro addition
      cases addition
    | _ => exact spoken.elim

/-! ### All steps -/

theorem isProper_ofSteps_of_isSpoken {l : List Converter} (spoken : ∀ s ∈ l, s.IsSpoken) :
    (ofSteps l).IsProper :=
  isProper_ofSteps fun s hs => isProper_of_isSpoken (spoken s hs)

theorem isNormal_of_append {l l' : List Converter} (h : IsNormal (l ++ l').reverse) :
    IsNormal l.reverse ∧ IsNormal l'.reverse := by
  rw [List.reverse_append] at h
  exact ⟨List.IsChain.right_of_append h, List.IsChain.left_of_append h⟩

/-- Transforming by a part of the steps and then by the others. -/
theorem transform_ofSteps_append {l l' : List Converter} (proper : u.IsProper)
    (spoken : ∀ s ∈ l ++ l', s.IsSpoken) (normal : IsNormal (l ++ l').reverse) :
    (u.transform (ofSteps l)).transform (ofSteps l') = u.transform (ofSteps (l ++ l')) := by
  rw [proper.transform_transform
    (isProper_ofSteps_of_isSpoken fun s hs => spoken s (List.mem_append_left l' hs))
    (isProper_ofSteps_of_isSpoken fun s hs => spoken s (List.mem_append_right l hs)),
    compose_ofSteps_of_isNormal (fun s hs => isStep_of_isSpoken (spoken s hs)) normal]

/-- In a normal form no offset follows another, as they merge. -/
theorem ne_add_of_isNormal {l : List Converter} {s : Converter} {x : Rat}
    (normal : IsNormal (s :: l.reverse)) (last : l.getLast? = some (add x)) (y : Rat) :
    s ≠ add y := by
  rintro rfl
  rw [List.getLast?_eq_head?_reverse] at last
  obtain ⟨tail, eq⟩ := List.head?_eq_some_iff.1 last
  rw [eq] at normal
  have apart := (List.isChain_cons_cons.1 normal).1
  rw [merge_add] at apart
  cases apart

theorem convert_identity (printer : Printer) (u : MeasureUnit) (r : Rendered) :
    printer.convert .identity u r = (printer.withMultiple? .identity u r).getD r := by
  unfold Printer.convert
  cases printer.withMultiple? .identity u r <;> rfl

/-- What is printed for a chain in normal form of steps that have words. -/
theorem renders_convert (faithful : printer.table.IsFaithful) {l : List Converter}
    (spoken : ∀ s ∈ l, s.IsSpoken) (normal : IsNormal l.reverse) (h : Renders printer.table r u)
    (proper : u.IsProper) (first : r.precedence = .addition → ∀ x, l.head? ≠ some (add x)) :
    Renders printer.table (printer.convert (ofSteps l) u r) (u.transform (ofSteps l)) ∧
      (l ≠ [] → (printer.convert (ofSteps l) u r).precedence = .addition →
        ∃ x, l.getLast? = some (add x)) := by
  induction l using List.reverseRecOn with
  | nil =>
    refine ⟨?_, fun some => absurd rfl some⟩
    change Renders printer.table (printer.convert .identity u r) (u.transform .identity)
    rw [convert_identity]
    cases multiple : printer.withMultiple? .identity u r with
    | none => exact h
    | some rendered => exact (renders_withMultiple? faithful multiple).1
  | append_singleton l s ih =>
    have spokenLast := spoken s (by simp)
    have spokenInit : ∀ t ∈ l, t.IsSpoken := fun t ht => spoken t (by simp [ht])
    have last : (l ++ [s]).getLast? = some s := by simp
    rw [last]
    cases eq : l with
    | nil =>
      rw [eq] at first
      obtain ⟨renders, addition⟩ := renders_step faithful spokenLast h proper
        fun addition x hx => first addition x (by simp [hx])
      refine ⟨renders, fun _ more => ?_⟩
      obtain ⟨x, rfl⟩ := addition more
      exact ⟨x, rfl⟩
    | cons t l' =>
      have some : l ≠ [] := by simp [eq]
      rw [← eq]
      have normalInit := (isNormal_of_append normal).1
      obtain ⟨renders, addition⟩ := ih spokenInit normalInit fun addition x hx =>
        first addition x (by rw [List.head?_append, hx]; rfl)
      have joined := transform_ofSteps_append proper spoken normal
      rw [ofSteps_append_singleton some] at joined ⊢
      unfold Printer.convert
      cases multiple : printer.withMultiple? (pair (ofSteps l) s) u r with
      | some rendered =>
        obtain ⟨renders, atom⟩ := renders_withMultiple? faithful multiple
        refine ⟨renders, fun _ addition => ?_⟩
        rw [atom] at addition
        cases addition
      | none =>
        have properInit := isProper_ofSteps_of_isSpoken spokenInit
        have separate (more : (printer.convert (ofSteps l) u r).precedence = .addition) (y : Rat) :
            s ≠ add y := by
          obtain ⟨x, hx⟩ := addition some more
          rw [List.reverse_append] at normal
          exact ne_add_of_isNormal normal hx y
        have next := renders_step faithful spokenLast renders (proper.transform properInit) separate
        refine ⟨joined ▸ next.1, fun _ more => ?_⟩
        obtain ⟨x, rfl⟩ := next.2 more
        exact ⟨x, rfl⟩

/-! ### Units with symbols on the way -/

/-- Whether a chain leads to a unit: it starts from a unit that is read back, and the steps
that are left can be printed. -/
structure LeadsTo (printer : Printer) (chain : Printer.Chain) (u : MeasureUnit) : Prop where
  renders : Renders printer.table chain.rendered chain.unit
  first : chain.rendered.precedence = .addition → ∀ x, chain.steps.head? ≠ some (add x)
  proper : chain.unit.IsProper
  spoken : ∀ s ∈ chain.steps, s.IsSpoken
  normal : IsNormal chain.steps.reverse
  target : chain.unit.transform (ofSteps chain.steps) = u

theorem LeadsTo.farthestNamed? (faithful : printer.table.IsFaithful) {chain next : Printer.Chain}
    (h : LeadsTo printer chain u)
    (found : printer.farthestNamed? chain.unit chain.steps = some next) :
    LeadsTo printer next u := by
  obtain ⟨n, -, named⟩ := List.exists_of_findSome?_eq_some found
  simp only [Printer.namedAfter?, Option.bind_eq_bind, Option.bind_eq_some_iff] at named
  obtain ⟨symbol, label, eq⟩ := named
  cases eq
  have parts : chain.steps.take n ++ chain.steps.drop n = chain.steps := List.take_append_drop _ _
  have spoken := h.spoken
  have normal := h.normal
  rw [← parts] at spoken normal
  have properInit : (ofSteps (chain.steps.take n)).IsProper :=
    isProper_ofSteps_of_isSpoken fun s hs => spoken s (List.mem_append_left _ hs)
  exact {
    renders := Or.inr (reads_label faithful label)
    first := fun addition => by cases addition
    proper := h.proper.transform properInit
    spoken := fun s hs => spoken s (List.mem_append_right _ hs)
    normal := (isNormal_of_append normal).2
    target := by
      rw [transform_ofSteps_append h.proper spoken normal, parts]
      exact h.target }

/-- Going on from one unit with a symbol to the next, until there is no other. -/
theorem LeadsTo.advance (faithful : printer.table.IsFaithful) {chain : Printer.Chain}
    (h : LeadsTo printer chain u) : LeadsTo printer (chain.advance printer) u := by
  induction length : chain.steps.length using Nat.strongRecOn generalizing chain with
  | ind n ih =>
    subst length
    unfold Printer.Chain.advance
    split
    · exact h
    · rename_i next found
      exact ih _ (Printer.length_steps_farthestNamed? found) (h.farthestNamed? faithful found) rfl

/-- The text of a chain of steps is read back as the unit that it leads to. -/
theorem LeadsTo.renders_convert (faithful : printer.table.IsFaithful) {chain : Printer.Chain}
    (h : LeadsTo printer chain u) :
    Renders printer.table (printer.convert (ofSteps chain.steps) chain.unit chain.rendered) u := by
  have renders := Expression.renders_convert faithful h.spoken h.normal h.renders h.proper h.first
  rw [h.target] at renders
  exact renders.1

theorem renders_chainText (faithful : printer.table.IsFaithful) {c : Converter}
    (spoken : ∀ s ∈ c.steps, s.IsSpoken) (normal : c.normalize = c)
    (h : Renders printer.table r u) (strong : r.precedence ≠ .addition) (proper : u.IsProper) :
    Renders printer.table (printer.chainText u r c) (u.transform c) := by
  obtain ⟨isNormal, whole⟩ := isNormal_of_normalize normal
  have start : LeadsTo printer ⟨u, r, c.steps⟩ (u.transform c) :=
    ⟨h, fun addition => absurd addition strong, proper, spoken, isNormal, by rw [whole]⟩
  unfold Printer.chainText
  split
  · have text := start.renders_convert faithful
    rwa [whole] at text
  · rename_i chain found
    exact ((start.farthestNamed? faithful found).advance faithful).renders_convert faithful

/-! ### Substitutes -/

def thousandth : Ratio := ⟨1, 1000, by decide, by decide, by decide⟩

/-- What stands in for a unit is its thousandth. -/
theorem substitute_eq {system preferred : MeasureUnit}
    (h : (system, preferred) ∈ Printer.substitutes) :
    preferred = .transformed system (ratio thousandth) ∧ system.isTransformed = false ∧
      preferred.systemConverter = .ok (ratio thousandth) := by
  simp only [Printer.substitutes, List.mem_cons, List.not_mem_nil, or_false] at h
  rcases h with h | h
  · cases h
    exact ⟨rfl, rfl, rfl⟩
  · cases h
    exact ⟨rfl, rfl, rfl⟩

/-- A unit that is stood in for is equal to no other. -/
theorem eq_of_beq_system {system preferred : MeasureUnit}
    (h : (system, preferred) ∈ Printer.substitutes) (same : (u == system) = true) : u = system := by
  have base {v : MeasureUnit} {symbol : String} (same : (v == .base symbol) = true) :
      v = .base symbol := by
    cases v <;> try cases same
    rw [eq_of_beq (show (_ == symbol) = true from same)]
  simp only [Printer.substitutes, List.mem_cons, List.not_mem_nil, or_false] at h
  rcases h with h | h
  · cases h
    exact base same
  · cases h
    have cube : Catalog.cubicMetre = .product [⟨.base "m", ⟨3, by decide, by decide⟩⟩] := rfl
    rw [cube] at same ⊢
    cases u with
    | product fs =>
      obtain ⟨length, matched⟩ := MeasureUnit.product_beq_product.1 same
      obtain ⟨⟨v, n⟩, rfl⟩ := List.length_eq_one_iff.1 length
      obtain ⟨g, member, unit, power⟩ := matched ⟨v, n⟩ (List.mem_singleton_self _)
      cases List.mem_singleton.1 member
      obtain rfl : v = .base "m" := base unit
      obtain rfl : n = _ := power
      rfl
    | _ => cases same

/-- Any scaling may stand where another does in a normal form, or none. -/
theorem isNormal_scaleBy_append {q : Ratio} {l : List Converter} (x : Rat)
    (normal : IsNormal (ratio q :: l).reverse) : IsNormal ((scaleBy x).steps ++ l).reverse := by
  have chain := List.isChain_reverse.1 normal
  refine List.isChain_reverse.2 ?_
  rcases scaleBy_cases x with ⟨eq, -⟩ | ⟨p, eq, -⟩
  · rw [eq]
    exact chain.tail
  · rw [eq]
    change List.IsChain _ (ratio p :: l)
    cases l with
    | nil => exact List.isChain_singleton _
    | cons s l =>
      -- The step inside does not merge with one scaling, so with no other either.
      obtain ⟨apart, chain⟩ := List.isChain_cons_cons.1 chain
      refine List.isChain_cons_cons.2 ⟨?_, chain⟩
      cases s <;> first | rfl | cases apart

theorem mergeSteps_ratio_ratio (r q : Ratio) (l : List Converter) :
    mergeSteps (ratio r :: ratio q :: l) = mergeSteps ((scaleBy (r.toRat * q.toRat)).steps ++ l) := by
  change (l.foldl push (push [ratio r] (ratio q))).reverse = _
  rw [push, merge_ratio]
  rcases scaleBy_cases (r.toRat * q.toRat) with ⟨eq, -⟩ | ⟨p, eq, -⟩ <;>
  · rw [eq]
    rfl

/-- A scaling outside a normal form is a new step, or is merged with the outermost one. -/
theorem steps_ratio_compose {r : Ratio} {c : Converter} (reduced : r.IsReduced)
    (normal : c.normalize = c) :
    ((ratio r).compose c).steps = ratio r :: c.steps ∨
      ∃ q l, c.steps = ratio q :: l ∧
        ((ratio r).compose c).steps = (scaleBy (r.toRat * q.toRat)).steps ++ l := by
  have normal := (isNormal_of_normalize normal).1
  have merges : ((ratio r).compose c).steps = mergeSteps (ratio r :: c.steps) := steps_compose _ _
  rw [merges]
  cases steps : c.steps with
  | nil => exact Or.inl (mergeSteps_of_isNormal (List.isChain_singleton _))
  | cons t l =>
    rw [steps] at normal
    have chain := List.isChain_reverse.1 normal
    cases merged : (ratio r).merge t with
    | none =>
      have apart : IsNormal (ratio r :: t :: l).reverse :=
        List.isChain_reverse.2 (List.isChain_cons_cons.2 ⟨merged, chain⟩)
      exact Or.inl (mergeSteps_of_isNormal apart)
    | some m =>
      obtain ⟨q, rfl⟩ : ∃ q, t = ratio q := by
        rcases merge_cases (a := ratio r) reduced merged with
          ⟨x, y, eq, -⟩ | ⟨a, q, -, eq, -⟩ | ⟨x, eq, -⟩ | ⟨x, eq, -⟩
        · cases eq
        · exact ⟨q, eq⟩
        · cases eq
        · cases eq
      rw [mergeSteps_ratio_ratio]
      exact Or.inr ⟨q, l, rfl, mergeSteps_of_isNormal (isNormal_scaleBy_append _ normal)⟩

/-- Multiplying the outermost scaling by an integer does not make a divisor longer. -/
theorem isSpoken_of_mem_compose {k : Nat} {r : Ratio} {c : Converter} (whole : r.toRat = k)
    (divisor : r.divisor = 1) (normal : c.normalize = c) (spoken : ∀ s ∈ c.steps, s.IsSpoken) :
    ∀ s ∈ ((ratio r).compose c).steps, s.IsSpoken := by
  have outermost : (ratio r).IsSpoken := by
    refine ⟨?_, ?_⟩
    · rw [Ratio.IsReduced, divisor]
      exact Nat.coprime_one_right _
    · rw [divisor]
      exact one_lt_pow₀ (by decide) (by decide)
  intro s hs
  rcases steps_ratio_compose outermost.1 normal with eq | ⟨q, l, steps, eq⟩
  · rw [eq] at hs
    rcases List.mem_cons.1 hs with rfl | hs
    · exact outermost
    · exact spoken s hs
  · rw [steps] at spoken
    rw [eq] at hs
    rcases List.mem_append.1 hs with hs | hs
    · obtain ⟨reduced, bound⟩ := spoken (ratio q) (by simp)
      rcases scaleBy_cases (r.toRat * q.toRat) with ⟨eq, -⟩ | ⟨p, eq, reduced', value⟩
      · rw [eq] at hs
        cases hs
      · rw [eq] at hs
        cases List.mem_singleton.1 hs
        have den : p.divisor ∣ q.divisor := by
          have divides := Rat.mul_den_dvd r.toRat q.toRat
          rw [← value, (Ratio.num_den_toRat reduced').2, (Ratio.num_den_toRat reduced).2, whole,
            Rat.den_natCast, one_mul] at divides
          exact divides
        exact ⟨reduced', Nat.lt_of_le_of_lt (Nat.le_of_dvd q.divisor_pos den) bound⟩
    · exact spoken s (by simp [hs])

/-- What stands in for a unit is its thousandth, and is read back from its symbol. -/
theorem substituted?_eq_some {c k : Converter} {preferred : MeasureUnit} {symbol : String}
    (found : printer.substituted? u c = some (preferred, symbol, k)) :
    u.isTransformed = false ∧ preferred = u.transform (ratio thousandth) ∧
      printer.table.symbol? preferred = some symbol ∧
        k = (ratio thousandth).inverse.compose c := by
  obtain ⟨⟨system, other⟩, member, chosen⟩ := List.exists_of_findSome?_eq_some found
  obtain ⟨eq, plain, converter⟩ := substitute_eq member
  simp only [converter] at chosen
  split at chosen
  · rename_i same
    cases label : printer.table.symbol? other with
    | none =>
      rw [label] at chosen
      cases chosen
    | some symbol' =>
      rw [label] at chosen
      cases chosen
      obtain rfl := eq_of_beq_system member same
      refine ⟨plain, ?_, label, rfl⟩
      rw [(MeasureUnit.isOver_self plain).transform, eq]
      rfl
  · cases chosen

/-- The steps that are printed for a transformed unit: those from the unit that stands in for its
parent, if one does. -/
def Printer.printedSteps (p : Printer) (parent : MeasureUnit)
    (c : Converter) : List Converter :=
  match p.substituted? parent c with
  | some (_, _, k) => k.steps
  | none => c.steps

/-- From what stands in for its parent a unit has no longer divisors. -/
theorem isSpoken_printedSteps (printer : Printer) {c : Converter} (normal : c.normalize = c)
    (spoken : ∀ s ∈ c.steps, s.IsSpoken) : ∀ s ∈ printer.printedSteps u c, s.IsSpoken := by
  unfold Printer.printedSteps
  split
  · rename_i found
    obtain ⟨-, -, -, rfl⟩ := substituted?_eq_some found
    have whole : thousandth.inverse.toRat = (1000 : Nat) := by decide +kernel
    exact isSpoken_of_mem_compose whole rfl normal spoken
  · exact spoken

/-- The text of a unit by way of the one that stands in for its parent. -/
theorem renders_substituted (faithful : printer.table.IsFaithful) {c k : Converter}
    {preferred : MeasureUnit} {symbol : String} (spoken : ∀ s ∈ k.steps, s.IsSpoken)
    (proper : c.IsProper) (normal : c.normalize = c)
    (found : printer.substituted? u c = some (preferred, symbol, k)) :
    Renders printer.table (printer.chainText preferred (.atom symbol) k) (u.transform c) := by
  obtain ⟨plain, rfl, label, rfl⟩ := substituted?_eq_some found
  have isProper : (ratio thousandth).IsProper := (by decide : thousandth.IsReduced)
  have parent : u.IsProper := MeasureUnit.isProper_of_plain plain
  have text := renders_chainText faithful (r := .atom symbol) spoken (normalize_compose _ c)
    (Or.inr (reads_label faithful label)) nofun (parent.transform isProper)
  have target : (u.transform (ratio thousandth)).transform ((ratio thousandth).inverse.compose c) =
      u.transform c := by
    rw [parent.transform_transform isProper (isProper_compose (isProper_inverse isProper) proper),
      ← compose_compose isProper (isProper_inverse isProper) proper, compose_inverse isProper]
    change u.transform c.normalize = _
    rw [normal]
  rw [← target]
  exact text

end Metrology.Expression
