import Mathlib.Algebra.Field.Rat
import Metrology.Converter.Power
import Metrology.Proofs.Converter.GroupLaw
import Metrology.Proofs.Converter.Interpretation

/-!
# Scalings

A chain of exact scalings does what its factor says. In lowest terms it is settled by the factor,
so that composing, undoing and repeating such chains is multiplying, inverting and raising
numbers, and their order does not matter.
-/
namespace Metrology

/-- A computation after another succeeds if both do. -/
theorem bind_ok_iff {ε α β : Type} {x : Except ε α} {f : α → Except ε β} {b : β} :
    x >>= f = .ok b ↔ ∃ a, x = .ok a ∧ f a = .ok b := by
  cases x with
  | error e => exact ⟨nofun, fun ⟨_, h, _⟩ => nomatch h⟩
  | ok a => exact ⟨fun h => ⟨a, rfl, h⟩, fun ⟨_, rfl, h⟩ => h⟩

theorem toOption_eq_some_iff {ε α : Type} {x : Except ε α} {a : α} :
    x.toOption = some a ↔ x = .ok a := by
  cases x with
  | error e => exact ⟨nofun, nofun⟩
  | ok b => exact ⟨fun h => congrArg Except.ok (Option.some.inj h), fun h => congrArg some (Except.ok.inj h)⟩

/-- Reduced terms are numerator and denominator of the number. -/
theorem Ratio.num_den_toRat {r : Ratio} (h : r.IsReduced) :
    r.toRat.num = r.dividend ∧ r.toRat.den = r.divisor := by
  have value : r.toRat = ⟨r.dividend, r.divisor, Nat.ne_of_gt r.divisor_pos, h⟩ :=
    (Rat.mk_eq_mkRat _ _ _ _).symm
  rw [value]
  exact ⟨rfl, rfl⟩

namespace Converter

theorem normalize_scaleBy (q : Rat) : (scaleBy q).normalize = scaleBy q := by
  rcases scaleBy_cases q with ⟨eq, -⟩ | ⟨r, eq, -, -⟩ <;> rw [eq] <;> rfl

/-- Two scalings compose to the scaling by the product, left out if that is one. -/
theorem ratio_compose_ratio (r s : Ratio) :
    (ratio r).compose (ratio s) = scaleBy (r.toRat * s.toRat) := by
  change ofSteps (push [ratio r] (ratio s)).reverse = _
  rw [push, merge_ratio]
  rcases scaleBy_cases (r.toRat * s.toRat) with ⟨eq, -⟩ | ⟨t, eq, -⟩ <;> rw [eq] <;> rfl

/-- Scalings are composed by multiplying their factors. -/
theorem scaleBy_compose {p q : Rat} (hp : p ≠ 0) (hq : q ≠ 0) :
    (scaleBy p).compose (scaleBy q) = scaleBy (p * q) := by
  rcases scaleBy_cases p with ⟨eq, zero | one⟩ | ⟨r, eq, -, rfl⟩
  · exact absurd zero hp
  · rw [eq, one, Rat.one_mul]
    exact normalize_scaleBy q
  · rcases scaleBy_cases q with ⟨eq', zero | one⟩ | ⟨s, eq', -, rfl⟩
    · exact absurd zero hq
    · rw [eq', one, Rat.mul_one, compose_identity, normalize_scaleBy]
    · rw [eq, eq', ratio_compose_ratio]

/-- Every number other than zero gives a scaling. -/
theorem scaling_eq {q : Rat} (h : q ≠ 0) : scaling q = .ok (scaleBy q) := by
  by_cases one : q = 1
  · rw [scaling, if_pos one, one, scaleBy_one]
  · have equal : q.num ≠ (q.den : Int) := by
      intro eq
      have gcd : q.num.natAbs.gcd q.den = 1 := q.reduced
      have den : q.den = 1 := by simpa [eq] using gcd
      exact one (Rat.ext (by simp [eq, den]) (by simp [den]))
    rw [scaling, if_neg one, ofTerms, Ratio.ofTerms, dif_pos (by exact_mod_cast q.den_pos),
      dif_neg equal, dif_neg (mt Rat.num_eq_zero.1 h), scaleBy, dif_pos h, Ratio.ofRat?, dif_neg one]
    rfl

/-- Whether no step scales by a double. -/
def ScalesExactly (c : Converter) : Prop := ∀ x, multiply x ∉ c.steps

theorem IsProper.scalesExactly {c : Converter} (proper : c.IsProper) : c.ScalesExactly := by
  intro x step
  induction c with
  | pair a b iha ihb =>
    rcases List.mem_append.1 step with step | step
    · exact iha proper.1 step
    · exact ihb proper.2 step
  | multiply => exact proper
  | identity => cases step
  | _ => cases List.mem_singleton.1 step

/-- A chain of exact scalings is a single one in normal form. -/
theorem eq_ratio_of_scalesExactly {c : Converter} (exact : c.ScalesExactly) (normal : c.normalize = c)
    (scale : c.isScale = true) : ∃ r : Ratio, c = ratio r := by
  have all : ∀ s ∈ c.steps, ∃ r : Ratio, s = ratio r := by
    clear normal
    induction c with
    | pair a b iha ihb =>
      simp only [isScale, Bool.and_eq_true] at scale
      intro s hs
      rcases List.mem_append.1 hs with hs | hs
      · exact iha (fun x mem => exact x (List.mem_append_left _ mem)) scale.1 s hs
      · exact ihb (fun x mem => exact x (List.mem_append_right _ mem)) scale.2 s hs
    | ratio r =>
      intro s hs
      exact ⟨r, List.mem_singleton.1 hs⟩
    | multiply x => exact absurd (List.mem_singleton_self _) (exact x)
    | _ => cases scale
  obtain ⟨chain, eq⟩ := isNormal_of_normalize normal
  cases steps : c.steps with
  | nil =>
    rw [steps] at eq
    rw [← eq] at scale
    cases scale
  | cons s l =>
    rw [steps] at all chain eq
    cases l with
    | nil =>
      obtain ⟨r, rfl⟩ := all s (by simp)
      exact ⟨r, eq.symm⟩
    | cons t l =>
      obtain ⟨r, rfl⟩ := all s (by simp)
      obtain ⟨r', rfl⟩ := all t (by simp)
      have none : (ratio r).merge (ratio r') = none := by
        rw [IsNormal, List.isChain_reverse] at chain
        exact (List.isChain_cons_cons.1 chain).1
      rw [merge_ratio] at none
      cases none

/-- In lowest terms, too. -/
theorem eq_ratio_of_isScale {c : Converter} (proper : c.IsProper) (normal : c.normalize = c)
    (scale : c.isScale = true) : ∃ r : Ratio, c = ratio r ∧ r.IsReduced := by
  obtain ⟨r, rfl⟩ := eq_ratio_of_scalesExactly proper.scalesExactly normal scale
  exact ⟨r, rfl, proper⟩

/-! ### Chains of scalings -/

def IsRational : Converter → Prop
  | identity | ratio _ => True
  | pair outer inner => outer.IsRational ∧ inner.IsRational
  | _ => False

instance decidableIsRational : (c : Converter) → Decidable c.IsRational
  | identity | ratio _ => inferInstanceAs (Decidable True)
  | add _ | multiply _ | log _ | exp _ => inferInstanceAs (Decidable False)
  | pair outer inner =>
    have := decidableIsRational outer
    have := decidableIsRational inner
    inferInstanceAs (Decidable (outer.IsRational ∧ inner.IsRational))

/-- The number that the exact scalings of a chain scale by. -/
def factor : Converter → Rat
  | ratio r => r.toRat
  | pair outer inner => outer.factor * inner.factor
  | _ => 1

@[simp] theorem factor_identity : identity.factor = 1 := rfl

theorem factor_ne_zero (c : Converter) : c.factor ≠ 0 := by
  induction c with
  | ratio r => exact r.toRat_ne_zero
  | pair outer inner ho hi => exact mul_ne_zero ho hi
  | _ => exact one_ne_zero

/-- The scaling by a number scales by it. -/
theorem factor_scaleBy {q : Rat} (h : q ≠ 0) : (scaleBy q).factor = q := by
  rcases scaleBy_cases q with ⟨eq, zero | one⟩ | ⟨r, eq, -, value⟩
  · exact absurd zero h
  · rw [eq, one]
    rfl
  · rw [eq]
    exact value

theorem isRational_scaleBy (q : Rat) : (scaleBy q).IsRational := by
  rcases scaleBy_cases q with ⟨eq, -⟩ | ⟨r, eq, -⟩ <;> rw [eq] <;> trivial

theorem compose_normalize {a b : Converter} (ha : a.IsProper) (hb : b.IsProper) :
    a.normalize.compose b.normalize = a.compose b := by
  have neutral : identity.IsProper := trivial
  have left : a.normalize.compose b.normalize = (a.compose b.normalize).normalize :=
    compose_compose neutral ha (isProper_compose neutral hb)
  rw [left, normalize_compose, ← compose_identity b, ← compose_compose ha hb neutral,
    compose_identity, normalize_compose]

/-- In lowest terms and in normal form a chain of scalings is the scaling by its factor. -/
theorem normalize_of_isRational {c : Converter} (proper : c.IsProper) (rational : c.IsRational) :
    c.normalize = scaleBy c.factor := by
  induction c with
  | identity => exact scaleBy_one.symm
  | ratio r => exact (scaleBy_toRat proper).symm
  | pair outer inner ho hi =>
    change outer.compose inner = _
    rw [← compose_normalize proper.1 proper.2, ho proper.1 rational.1, hi proper.2 rational.2,
      scaleBy_compose outer.factor_ne_zero inner.factor_ne_zero]
    rfl
  | _ => cases rational

/-- Chains of scalings are composed by multiplying their factors. -/
theorem compose_of_isRational {a b : Converter} (pa : a.IsProper) (ra : a.IsRational)
    (pb : b.IsProper) (rb : b.IsRational) : a.compose b = scaleBy (a.factor * b.factor) := by
  rw [← compose_normalize pa pb, normalize_of_isRational pa ra, normalize_of_isRational pb rb,
    scaleBy_compose a.factor_ne_zero b.factor_ne_zero]

/-- A scaling is undone by the scaling by the reciprocal. -/
theorem inverse_scaleBy {q : Rat} (h : q ≠ 0) : (scaleBy q).inverse = scaleBy q⁻¹ := by
  rcases scaleBy_cases q with ⟨eq, zero | one⟩ | ⟨r, eq, reduced, rfl⟩
  · exact absurd zero h
  · rw [one, inv_one, scaleBy_one]
    rfl
  · rw [eq, inverse, ← scaleBy_toRat (isReduced_inverse reduced),
      ← eq_inv_of_mul_eq_one_right (toRat_mul_inverse r)]

/-! ### Powers -/

theorem ofRatio?_pow? (r : Ratio) (n : Nat) : ofRatio? (r.pow? n) = scaleBy (r.toRat ^ n) := by
  rw [scaleBy, dif_pos (r.toRat_pow_ne_zero n)]
  rfl

/-- Induction over the chain of which a power is taken. -/
theorem powNat_induction {motive : Converter → Converter → Prop} {n : Nat}
    (zero : ∀ c, n = 0 → motive c identity) (one : motive identity identity)
    (multiply : ∀ x d, d.factor = 1 → motive (multiply x) d)
    (ratio : ∀ r, motive (ratio r) (scaleBy (r.toRat ^ n)))
    (pair : ∀ a b a' b', motive a a' → motive b b' → motive (pair a b) (a'.compose b'))
    {c d : Converter} (ok : c.powNat n = .ok d) : motive c d := by
  by_cases none : n = 0
  · unfold powNat at ok
    rw [if_pos none] at ok
    cases ok
    exact zero c none
  induction c generalizing d with
  | identity =>
    unfold powNat at ok
    rw [if_neg none] at ok
    cases ok
    exact one
  | multiply x =>
    unfold powNat multiplyPower at ok
    rw [if_neg none] at ok
    dsimp only at ok
    split at ok <;> cases ok
    refine multiply x _ ?_
    split <;> rfl
  | ratio r =>
    unfold powNat ratioPower at ok
    rw [if_neg none] at ok
    dsimp only at ok
    split at ok <;> cases ok
    rw [ofRatio?_pow?]
    exact ratio r
  | pair a b left right =>
    unfold powNat at ok
    rw [if_neg none] at ok
    dsimp only at ok
    split at ok
    · obtain ⟨a', outer, ok⟩ := bind_ok_iff.1 ok
      obtain ⟨b', inner, ok⟩ := bind_ok_iff.1 ok
      cases ok
      exact pair a b a' b' (left outer) (right inner)
    · cases ok
  | _ =>
    unfold powNat at ok
    rw [if_neg none] at ok
    cases ok

/-- A power of a chain of scalings is the scaling by the power of its factor. -/
theorem powNat_of_isRational {c d : Converter} {n : Nat} (rational : c.IsRational)
    (ok : c.powNat n = .ok d) : d = scaleBy (c.factor ^ n) := by
  refine powNat_induction (motive := fun c d => c.IsRational → d = scaleBy (c.factor ^ n))
    (fun c zero _ => ?_) (fun _ => ?_) (fun x d _ rational => rational.elim) (fun r _ => rfl)
    (fun a b a' b' left right rational => ?_) ok rational
  · rw [zero, pow_zero, scaleBy_one]
  · rw [factor_identity, one_pow, scaleBy_one]
  · rw [left rational.1, right rational.2,
      scaleBy_compose (pow_ne_zero n a.factor_ne_zero) (pow_ne_zero n b.factor_ne_zero), ← mul_pow]
    rfl

/-- A power is that to the magnitude of the exponent, undone if the exponent is negative. -/
theorem pow_eq_ok {c d : Converter} {n : Int} :
    c.pow n = .ok d ↔
      ∃ p, c.powNat n.natAbs = .ok p ∧ d = if n < 0 then p.inverse else p := by
  rw [pow, bind_ok_iff]
  exact exists_congr fun p => and_congr_right fun _ => ⟨fun h => (Except.ok.inj h).symm, fun h => by rw [h]; rfl⟩

/-- A power of exact scalings is the scaling by the power of their product. -/
theorem pow_of_isRational {c d : Converter} {n : Int} (rational : c.IsRational)
    (ok : c.pow n = .ok d) : d = scaleBy (c.factor ^ n) := by
  obtain ⟨p, power, rfl⟩ := pow_eq_ok.1 ok
  rw [powNat_of_isRational rational power]
  split
  · rw [inverse_scaleBy (pow_ne_zero _ c.factor_ne_zero), ← zpow_natCast, ← zpow_neg]
    congr 2
    omega
  · rw [← zpow_natCast]
    congr 2
    omega

/-- An exact scaling has the powers whose terms cannot become too long. -/
theorem pow_ratio (r : Ratio) (n : Int) :
    (ratio r).pow n = if r.bits * n.natAbs ≤ Ratio.maxPowerBits then .ok (scaleBy (r.toRat ^ n))
      else .error .overflow := by
  have power : (ratio r).powNat n.natAbs = if r.bits * n.natAbs ≤ Ratio.maxPowerBits then
      .ok (scaleBy (r.toRat ^ n.natAbs)) else .error .overflow := by
    unfold powNat
    by_cases none : n.natAbs = 0
    · rw [if_pos none, none, Nat.mul_zero, if_pos (Nat.zero_le _), pow_zero, scaleBy_one]
    · rw [if_neg none]
      dsimp only
      rw [ratioPower, ofRatio?_pow?]
      simp only [gt_iff_lt, ← not_le, ite_not]
  by_cases short : r.bits * n.natAbs ≤ Ratio.maxPowerBits
  · rw [if_pos short] at power ⊢
    have ok := pow_eq_ok.2 ⟨_, power, rfl⟩
    rw [ok, pow_of_isRational (c := ratio r) trivial ok]
    rfl
  · rw [if_neg short] at power ⊢
    rw [pow, power]
    rfl

/-! ### The factor of any chain

Merging, undoing and repeating steps multiplies, inverts and raises the factor, whatever other steps
there are in the chain. -/

theorem factor_shiftBy (x : Rat) : (shiftBy x).factor = 1 := by
  unfold shiftBy
  split <;> rfl

/-- The factor of a chain is the product of those of its steps, and merging keeps it. -/
theorem isInterpretation_factor : IsInterpretation factor where
  identity := rfl
  pair _ _ := rfl
  merge {a b m} h := by
    rcases merge_kinds h with ⟨x, y, rfl, rfl, rfl⟩ | ⟨r, s, rfl, rfl, rfl⟩ |
      ⟨x, y, rfl, rfl, rfl | ⟨z, rfl⟩⟩ | ⟨x, y, rfl, rfl, rfl⟩ | ⟨x, y, rfl, rfl, rfl⟩
    · exact (factor_shiftBy _).trans (one_mul 1).symm
    · exact factor_scaleBy (mul_ne_zero r.toRat_ne_zero s.toRat_ne_zero)
    all_goals exact (one_mul 1).symm

theorem factor_compose (a b : Converter) : (a.compose b).factor = a.factor * b.factor :=
  isInterpretation_factor.compose a b

theorem factor_inverse (c : Converter) : c.inverse.factor = c.factor⁻¹ := by
  induction c with
  | ratio r => exact eq_inv_of_mul_eq_one_right (toRat_mul_inverse r)
  | pair outer inner ho hi => rw [inverse, factor_compose, ho, hi, factor, mul_inv, mul_comm]
  | _ => exact inv_one.symm

theorem factor_powNat {c d : Converter} {n : Nat} (ok : c.powNat n = .ok d) :
    d.factor = c.factor ^ n := by
  refine powNat_induction (motive := fun c d => d.factor = c.factor ^ n) (fun c zero => ?_) ?_
    (fun x d one => ?_) (fun r => factor_scaleBy (r.toRat_pow_ne_zero n))
    (fun a b a' b' left right => ?_) ok
  · rw [zero, pow_zero, factor_identity]
  · exact (one_pow n).symm
  · rw [one]
    exact (one_pow n).symm
  · rw [factor_compose, left, right, ← mul_pow, factor]

/-- A power scales by the power of the factor. -/
theorem factor_pow {c d : Converter} {n : Int} (ok : c.pow n = .ok d) : d.factor = c.factor ^ n := by
  obtain ⟨p, power, rfl⟩ := pow_eq_ok.1 ok
  split
  · rw [factor_inverse, factor_powNat power, ← zpow_natCast, ← zpow_neg]
    congr 1
    omega
  · rw [factor_powNat power, ← zpow_natCast]
    congr 1
    omega

/-! ### Kinds of converters -/

/-- Whether a kind of converters without doubles holds all scalings in lowest terms and is kept by
what is done to converters. -/
structure IsStable (Q : Converter → Prop) : Prop where
  identity : Q identity
  scaling : ∀ q, Q (scaleBy q)
  exact : ∀ x, ¬Q (multiply x)
  parts : ∀ {a b}, Q (pair a b) → Q a ∧ Q b
  compose : ∀ {a b}, Q a → Q b → Q (a.compose b)
  inverse : ∀ {a}, Q a → Q a.inverse

theorem IsStable.powNat {Q : Converter → Prop} (hQ : IsStable Q) {c d : Converter} {n : Nat}
    (hc : Q c) (ok : c.powNat n = .ok d) : Q d :=
  powNat_induction (motive := fun c d => Q c → Q d) (fun _ _ _ => hQ.identity)
    (fun _ => hQ.identity) (fun x _ _ h => absurd h (hQ.exact x)) (fun _ _ => hQ.scaling _)
    (fun _ _ _ _ left right h => hQ.compose (left (hQ.parts h).1) (right (hQ.parts h).2)) ok hc

theorem IsStable.pow {Q : Converter → Prop} (hQ : IsStable Q) {c d : Converter} {n : Int}
    (hc : Q c) (ok : c.pow n = .ok d) : Q d := by
  obtain ⟨p, power, rfl⟩ := pow_eq_ok.1 ok
  have hp := hQ.powNat hc power
  split
  · exact hQ.inverse hp
  · exact hp

/-- A kind of steps that holds the sums of its offsets and all scalings in lowest terms and is kept by
undoing makes up a stable kind of converters. -/
theorem isStable_of_steps {Q : Converter → Prop} (neutral : Q identity)
    (parts : ∀ outer inner, Q (pair outer inner) ↔ Q outer ∧ Q inner)
    (offset : ∀ x y, Q (add x) → Q (add y) → x + y ≠ 0 → Q (add (x + y)))
    (scaling : ∀ r : Ratio, r.IsReduced → Q (ratio r))
    (exact : ∀ x, ¬Q (multiply x)) (inverse : ∀ s, s.IsStep → Q s → Q s.inverse) : IsStable Q := by
  have steps := iff_forall_steps neutral parts
  have scales (q : Rat) : Q (scaleBy q) := by
    rcases scaleBy_cases q with ⟨eq, -⟩ | ⟨r, eq, reduced, -⟩
    · rw [eq]
      exact neutral
    · rw [eq]
      exact scaling r reduced
  have merged {a b m : Converter} (ha : Q a) (hb : Q b) (h : a.merge b = some m) : Q m := by
    rcases merge_kinds h with ⟨x, y, rfl, rfl, rfl⟩ | ⟨r, s, -, -, rfl⟩ | ⟨x, y, rfl, -⟩ |
      ⟨x, y, -, -, rfl⟩ | ⟨x, y, -, -, rfl⟩
    · unfold shiftBy
      split
      · exact neutral
      · rename_i nonzero
        exact offset x y ha hb nonzero
    · exact scales _
    · exact absurd ha (exact x)
    · exact neutral
    · exact neutral
  have composed {a b : Converter} (ha : Q a) (hb : Q b) : Q (a.compose b) := by
    rw [steps, steps_compose]
    exact forall_mergeSteps (fun ha hb h _ => merged ha hb h)
      (List.forall_mem_append.2 ⟨(steps a).1 ha, (steps b).1 hb⟩)
  refine ⟨neutral, scales, exact, (parts _ _).1, composed, ?_⟩
  intro a ha
  induction a with
  | identity => exact neutral
  | pair outer inner ho hi =>
    obtain ⟨left, right⟩ := (parts outer inner).1 ha
    exact composed (hi right) (ho left)
  | _ => exact inverse _ trivial ha

theorem isStable_isProper : IsStable IsProper where
  identity := trivial
  scaling := isProper_scaleBy
  exact _ h := h
  parts h := h
  compose := isProper_compose
  inverse := isProper_inverse

def IsScaling (c : Converter) : Prop := c.IsProper ∧ c.IsRational

instance (c : Converter) : Decidable c.IsScaling := inferInstanceAs (Decidable (_ ∧ _))

theorem isStable_isScaling : IsStable IsScaling :=
  isStable_of_steps ⟨trivial, trivial⟩ (fun _ _ => and_and_and_comm) (fun _ _ h _ _ => h.2.elim)
    (fun _ reduced => ⟨reduced, trivial⟩) (fun _ h => h.1) fun s step h => by
      cases s with
      | ratio r => exact ⟨isReduced_inverse h.1, trivial⟩
      | identity | pair => exact step.elim
      | _ => exact h.2.elim

end Converter

end Metrology
