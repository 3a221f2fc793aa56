import Mathlib.Algebra.Group.End
import Mathlib.Algebra.GroupWithZero.Units.Equiv
import Metrology.Converter.Evaluation
import Metrology.Proofs.Converter.Scalings

/-!
# Exact conversions

A converter that evaluates exactly is a permutation of the rational numbers, and composing and
undoing converters is composing and inverting their permutations. Which converters evaluate exactly
depends on what is left of the logarithms and exponentials when the steps are merged. With all
scalings in lowest terms that follows from the group law; scalings that were given otherwise merge,
cancel and evaluate as those in lowest terms do.
-/
namespace Metrology

theorem Ratio.toRat_ne_one (r : Ratio) : r.toRat ≠ 1 := by
  have one : (1 : Rat) = mkRat 1 1 := rfl
  rw [toRat, one, Ne, Rat.mkRat_eq_iff (Nat.ne_of_gt r.divisor_pos) (by decide)]
  simpa using r.dividend_ne_divisor

namespace Converter

/-! ### Lowest terms -/

def lowest : Converter → Converter
  | ratio r => scaleBy r.toRat
  | pair outer inner => pair outer.lowest inner.lowest
  | c => c

/-- A scaling in lowest terms scales by the same number. -/
theorem lowest_ratio (r : Ratio) :
    ∃ s : Ratio, (ratio r).lowest = ratio s ∧ s.IsReduced ∧ s.toRat = r.toRat := by
  rcases scaleBy_cases r.toRat with ⟨-, zero | one⟩ | lowest
  · exact absurd zero r.toRat_ne_zero
  · exact absurd one r.toRat_ne_one
  · exact lowest

theorem lowest_scaleBy (q : Rat) : (scaleBy q).lowest = scaleBy q := by
  rcases scaleBy_cases q with ⟨eq, -⟩ | ⟨r, eq, -, rfl⟩
  · rw [eq]
    rfl
  · rw [eq, lowest, eq]

theorem isIdentity_lowest (c : Converter) : c.lowest.isIdentity = c.isIdentity := by
  cases c with
  | ratio r =>
    obtain ⟨s, eq, -⟩ := lowest_ratio r
    rw [eq]
    rfl
  | _ => rfl

theorem steps_lowest (c : Converter) : c.lowest.steps = c.steps.map lowest := by
  induction c with
  | ratio r =>
    obtain ⟨s, eq, -⟩ := lowest_ratio r
    have single : (ratio r).steps = [ratio r] := rfl
    rw [single, List.map_singleton, eq]
    rfl
  | pair outer inner ho hi => rw [lowest, steps, ho, hi, steps, List.map_append]
  | _ => rfl

theorem lowest_ofSteps (l : List Converter) : (ofSteps l).lowest = ofSteps (l.map lowest) := by
  have chain : ∀ (l : List Converter) (c : Converter),
      (l.foldl pair c).lowest = (l.map lowest).foldl pair c.lowest := by
    intro l
    induction l with
    | nil => exact fun _ => rfl
    | cons s l ih => exact fun c => ih (pair c s)
  cases l with
  | nil => rfl
  | cons s l => exact chain l s

/-- It makes no difference to a merge whether terms were reduced before. -/
theorem merge_lowest (a b : Converter) : a.lowest.merge b.lowest = (a.merge b).map lowest := by
  cases a with
  | ratio r =>
    obtain ⟨r', eq, -, value⟩ := lowest_ratio r
    rw [eq]
    cases b with
    | ratio s =>
      obtain ⟨s', eq', -, value'⟩ := lowest_ratio s
      rw [eq', merge_ratio, merge_ratio, value, value', Option.map_some, lowest_scaleBy]
    | _ => rfl
  | _ =>
    cases b with
    | ratio s =>
      obtain ⟨s', eq, -⟩ := lowest_ratio s
      rw [eq]
      rfl
    | _ =>
      simp only [merge, lowest]
      first
        | rfl
        | (split <;> first | rfl | (split <;> rfl))

theorem push_lowest (stack : List Converter) (s : Converter) :
    push (stack.map lowest) s.lowest = (push stack s).map lowest := by
  induction stack generalizing s with
  | nil => rfl
  | cons top below ih =>
    rw [List.map_cons, push, push, merge_lowest]
    cases top.merge s with
    | none => rfl
    | some m =>
      dsimp only [Option.map_some]
      rw [isIdentity_lowest]
      split
      · rfl
      · exact ih m

/-- Reducing all terms and merging can be exchanged. -/
theorem mergeSteps_lowest (l : List Converter) :
    mergeSteps (l.map lowest) = (mergeSteps l).map lowest := by
  have pushed : ∀ l stack : List Converter,
      (l.map lowest).foldl push (stack.map lowest) = (l.foldl push stack).map lowest := by
    intro l
    induction l with
    | nil => exact fun _ => rfl
    | cons s l ih =>
      intro stack
      rw [List.map_cons, List.foldl_cons, push_lowest, ih, List.foldl_cons]
  rw [mergeSteps, mergeSteps, List.map_reverse]
  exact congrArg _ (pushed l [])

/-- Terms may be reduced before a composition or after it. -/
theorem lowest_compose (a b : Converter) : (a.compose b).lowest = a.lowest.compose b.lowest := by
  rw [compose, compose, lowest_ofSteps, ← mergeSteps_lowest, List.map_append, ← steps_lowest,
    ← steps_lowest]

/-- Terms may be reduced before an inversion or after it. -/
theorem lowest_inverse (c : Converter) : c.inverse.lowest = c.lowest.inverse := by
  induction c with
  | ratio r =>
    rw [inverse, lowest, lowest, inverse_scaleBy r.toRat_ne_zero,
      ← eq_inv_of_mul_eq_one_right (toRat_mul_inverse r)]
  | pair outer inner ho hi => rw [inverse, lowest_compose, ho, hi, lowest, inverse]
  | _ => rfl

/-! ### Checked converters -/

/-- Converters out of what the checked constructors give, doubles apart: any scalings, offsets other
than zero, and logarithms and exponentials to a finite positive base other than one. -/
def IsChecked : Converter → Prop
  | identity | ratio _ => True
  | add offset => offset ≠ 0
  | multiply _ => False
  | log base | exp base => isBase base = true
  | pair outer inner => outer.IsChecked ∧ inner.IsChecked

/-- Checked converters are those that are proper once their terms are reduced. -/
theorem isChecked_iff (c : Converter) : c.IsChecked ↔ c.lowest.IsProper := by
  induction c with
  | ratio r => exact iff_of_true trivial (isProper_scaleBy _)
  | pair outer inner ho hi => exact and_congr ho hi
  | _ => exact Iff.rfl

instance (c : Converter) : Decidable c.IsChecked := decidable_of_iff _ (isChecked_iff c).symm

theorem isStable_isChecked : IsStable IsChecked :=
  isStable_of_steps trivial (fun _ _ => Iff.rfl) (fun _ _ _ _ nonzero => nonzero) (fun _ _ => trivial)
    (fun _ h => h) fun s step h => by
      cases s with
      | add offset => exact neg_ne_zero.2 h
      | identity | pair => exact step.elim
      | multiply => exact h.elim
      | _ => exact h

/-! ### Evaluation -/

def isExact : Converter → Bool
  | identity | add _ | ratio _ => true
  | pair outer inner => outer.isExact && inner.isExact
  | _ => false

/-- The permutation of the rational numbers that the exact steps of a converter make up. -/
def motion : Converter → Equiv.Perm ℚ
  | add offset => Equiv.addRight offset
  | ratio r => Equiv.mulRight₀ r.toRat r.toRat_ne_zero
  | pair outer inner => outer.motion * inner.motion
  | _ => 1

theorem motion_pair (outer inner : Converter) :
    (pair outer inner).motion = outer.motion * inner.motion := rfl

/-- A converter applies exactly if all its steps do, and then as the permutation that it is. -/
theorem applyExact_eq_ok {c : Converter} {x y : Rat} :
    c.applyExact x = .ok y ↔ c.isExact = true ∧ c.motion x = y := by
  induction c generalizing x y with
  | pair outer inner ho hi =>
    rw [applyExact, bind_ok_iff, isExact, Bool.and_eq_true, motion_pair, Equiv.Perm.mul_apply]
    constructor
    · rintro ⟨z, first, second⟩
      obtain ⟨exact₁, rfl⟩ := hi.1 first
      obtain ⟨exact₂, rfl⟩ := ho.1 second
      exact ⟨⟨exact₂, exact₁⟩, rfl⟩
    · rintro ⟨⟨exact₂, exact₁⟩, rfl⟩
      exact ⟨_, hi.2 ⟨exact₁, rfl⟩, ho.2 ⟨exact₂, rfl⟩⟩
  | identity | add | ratio => exact ⟨fun h => ⟨rfl, Except.ok.inj h⟩, fun h => congrArg Except.ok h.2⟩
  | _ => simp [applyExact, isExact]

theorem motion_shiftBy (x z : Rat) : (shiftBy x).motion z = z + x := by
  unfold shiftBy
  split
  · rename_i zero
    rw [zero, add_zero]
    rfl
  · rfl

theorem motion_scaleBy {q : Rat} (h : q ≠ 0) (z : Rat) : (scaleBy q).motion z = z * q := by
  rcases scaleBy_cases q with ⟨eq, zero | one⟩ | ⟨r, eq, -, rfl⟩
  · exact absurd zero h
  · rw [eq, one, mul_one]
    rfl
  · rw [eq]
    rfl

/-- The permutation of a chain is the product of those of its steps, and merging keeps it. -/
theorem isInterpretation_motion : IsInterpretation motion where
  identity := rfl
  pair := motion_pair
  merge {a b m} h := by
    ext z
    rcases merge_kinds h with ⟨x, y, rfl, rfl, rfl⟩ | ⟨r, s, rfl, rfl, rfl⟩ |
      ⟨x, y, rfl, rfl, rfl | ⟨w, rfl⟩⟩ | ⟨x, y, rfl, rfl, rfl⟩ | ⟨x, y, rfl, rfl, rfl⟩
    · rw [motion_shiftBy, add_comm x]
      exact (add_assoc z y x).symm
    · rw [motion_scaleBy (mul_ne_zero r.toRat_ne_zero s.toRat_ne_zero), mul_comm r.toRat]
      exact (mul_assoc z _ _).symm
    all_goals rfl

/-- The inverse undoes the permutation. -/
theorem motion_inverse (c : Converter) : c.inverse.motion = c.motion⁻¹ := by
  induction c with
  | pair outer inner ho hi =>
    rw [inverse, isInterpretation_motion.compose, ho, hi, motion_pair, mul_inv_rev]
  | add x =>
    ext z
    rfl
  | ratio r =>
    ext z
    exact congrArg (z * ·) (eq_inv_of_mul_eq_one_right (toRat_mul_inverse r))
  | _ => exact inv_one.symm

theorem isExact_iff (c : Converter) : c.isExact = true ↔ ∀ s ∈ c.steps, s.isExact = true :=
  iff_forall_steps (Q := fun c => c.isExact = true) rfl (fun _ _ => Bool.and_eq_true_iff) c

theorem isExact_lowest (c : Converter) : c.lowest.isExact = c.isExact := by
  induction c with
  | ratio r =>
    obtain ⟨s, eq, -⟩ := lowest_ratio r
    rw [eq]
    rfl
  | pair outer inner ho hi => rw [lowest, isExact, ho, hi, isExact]
  | _ => rfl

theorem isExact_of_merge {a b m : Converter} (ha : a.isExact = true) (h : a.merge b = some m) :
    m.isExact = true := by
  rcases merge_kinds h with ⟨x, y, rfl, rfl, rfl⟩ | ⟨r, s, rfl, rfl, rfl⟩ | ⟨x, y, rfl, -⟩ |
    ⟨x, y, rfl, -⟩ | ⟨x, y, rfl, -⟩
  · unfold shiftBy
    split <;> rfl
  · rcases scaleBy_cases (r.toRat * s.toRat) with ⟨eq, -⟩ | ⟨t, eq, -⟩ <;> rw [eq] <;> rfl
  all_goals cases ha

/-- What is composed of exact converters is exact. -/
theorem isExact_compose {a b : Converter} (ha : a.isExact = true) (hb : b.isExact = true) :
    (a.compose b).isExact = true := by
  rw [isExact_iff, steps_compose]
  refine forall_mergeSteps (fun exact _ h _ => isExact_of_merge exact h) ?_
  rw [isExact_iff] at ha hb
  exact List.forall_mem_append.2 ⟨ha, hb⟩

theorem isExact_inverse {c : Converter} (h : c.isExact = true) : c.inverse.isExact = true := by
  induction c with
  | pair outer inner ho hi =>
    rw [isExact, Bool.and_eq_true] at h
    exact isExact_compose (hi h.2) (ho h.1)
  | log | exp => cases h
  | multiply => cases h
  | _ => rfl

/-! ### What composing and undoing do to values -/

/-- A composition applies its second converter first. -/
theorem applyExact_compose {a b : Converter} {x y z : Rat} (inner : b.applyExact x = .ok y)
    (outer : a.applyExact y = .ok z) : (a.compose b).applyExact x = .ok z := by
  obtain ⟨exact₁, rfl⟩ := applyExact_eq_ok.1 inner
  obtain ⟨exact₂, rfl⟩ := applyExact_eq_ok.1 outer
  refine applyExact_eq_ok.2 ⟨isExact_compose exact₂ exact₁, ?_⟩
  rw [isInterpretation_motion.compose, Equiv.Perm.mul_apply]

/-- The normal form applies to whatever the converter does, with the same result. -/
theorem applyExact_normalize {c : Converter} {x y : Rat} (ok : c.applyExact x = .ok y) :
    c.normalize.applyExact x = .ok y :=
  applyExact_compose ok rfl

/-- The inverse takes a result back to the argument. -/
theorem applyExact_inverse {c : Converter} {x y : Rat} (ok : c.applyExact x = .ok y) :
    c.inverse.applyExact y = .ok x := by
  obtain ⟨exact, rfl⟩ := applyExact_eq_ok.1 ok
  refine applyExact_eq_ok.2 ⟨isExact_inverse exact, ?_⟩
  rw [motion_inverse, ← Equiv.Perm.mul_apply, inv_mul_cancel, Equiv.Perm.one_apply]

/-- What the parts of a composition do to a value one after the other, that the composition does at
once, and so does the normal form; the inverse takes the value back. Steps may be scalings that are
not in lowest terms, and offsets by zero. -/
theorem applyExact_preserved (a b c : Converter) (x y : Rat) :
    (∀ z, b.applyExact x = .ok y → a.applyExact y = .ok z → (a.compose b).applyExact x = .ok z) ∧
    (c.applyExact x = .ok y → c.normalize.applyExact x = .ok y ∧ c.inverse.applyExact y = .ok x) :=
  ⟨fun _ inner outer => applyExact_compose inner outer,
    fun ok => ⟨applyExact_normalize ok, applyExact_inverse ok⟩⟩

/-- From degrees Celsius by way of kelvins to degrees Fahrenheit and back; eighteen tenths are nine
fifths. -/
theorem applyExact_preserved_fahrenheit :
    let kelvins := add (27315 / 100)
    let fahrenheit := pair (add 32) (pair (ratio ⟨18, 10, by decide, by decide, by decide⟩)
      (pair identity (add (-27315 / 100))))
    (kelvins.applyExact 100 = .ok (37315 / 100) ∧ fahrenheit.applyExact (37315 / 100) = .ok 212) ∧
    (fahrenheit.compose kelvins).applyExact 100 = .ok 212 ∧
    fahrenheit.normalize.applyExact (37315 / 100) = .ok 212 ∧
    fahrenheit.inverse.applyExact 212 = .ok (37315 / 100) := by
  intro kelvins fahrenheit
  have first : kelvins.applyExact 100 = .ok (37315 / 100) := congrArg Except.ok (by decide +kernel)
  have second : fahrenheit.applyExact (37315 / 100) = .ok 212 :=
    congrArg Except.ok (by decide +kernel)
  have composed := (applyExact_preserved fahrenheit kelvins kelvins 100 (37315 / 100)).1 212
    first second
  have undone := (applyExact_preserved kelvins kelvins fahrenheit (37315 / 100) 212).2 second
  exact ⟨⟨first, second⟩, composed, undone⟩

/-- What a conversion by way of another scale does, that in the other direction undoes. -/
theorem applyExact_back {c d : Converter} {x y : Rat} (hc : c.IsChecked) (hd : d.IsChecked)
    (ok : (d.inverse.compose c).applyExact x = .ok y) :
    (c.inverse.compose d).applyExact y = .ok x := by
  obtain ⟨exact, rfl⟩ := applyExact_eq_ok.1 ok
  refine applyExact_eq_ok.2 ⟨?_, ?_⟩
  · -- In lowest terms the one is the inverse of the other, logarithms that cancel included.
    have undone : (c.inverse.compose d).lowest = (d.inverse.compose c).lowest.inverse := by
      rw [lowest_compose, lowest_compose, lowest_inverse, lowest_inverse,
        inverse_inverse_compose ((isChecked_iff c).1 hc) ((isChecked_iff d).1 hd)]
    rw [← isExact_lowest, undone]
    exact isExact_inverse ((isExact_lowest _).trans exact)
  · rw [isInterpretation_motion.compose, isInterpretation_motion.compose, motion_inverse,
      motion_inverse, ← Equiv.Perm.mul_apply, mul_assoc, mul_inv_cancel_left, inv_mul_cancel,
      Equiv.Perm.one_apply]

end Converter

end Metrology
