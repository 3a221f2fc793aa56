import Metrology.Proofs.Converter.Powers

/-!
# Validity

The checked constructors refuse terms, offsets and bases for which there is no converter. Afterwards
nothing is checked again: terms are multiplied, raised, divided by what they share and exchanged as
integers, offsets are added, and steps are left out or put side by side. That does no harm. Integers
that pass the check for terms make terms that pass it, in lowest terms where they were multiplied or
raised, and a ratio of one is always noticed. So the converters that can be built are just those of
which each part would pass its check.
-/
namespace Metrology

namespace Ratio

/-- A dividend and a divisor, any two integers. -/
structure Terms where
  dividend : Int
  divisor : Int
  deriving DecidableEq, Repr

def terms (r : Ratio) : Terms := ⟨r.dividend, r.divisor⟩

namespace Terms

/-- Whether a scaling has these terms: it can be undone and does something. -/
structure IsValid (t : Terms) : Prop where
  divisor_pos : 0 < t.divisor
  dividend_ne_zero : t.dividend ≠ 0
  dividend_ne_divisor : t.dividend ≠ t.divisor

def IsReduced (t : Terms) : Prop := t.dividend.gcd t.divisor = 1

/-- Whether an outcome stands for the ratio of the terms: there is none just if that is one, and else
valid terms that have the ratio and no common divisor. -/
structure IsReduction (t : Terms) (outcome : Option Terms) : Prop where
  none_iff : outcome = none ↔ t.dividend = t.divisor
  of_some : ∀ u, outcome = some u →
    u.IsValid ∧ u.IsReduced ∧ u.dividend * t.divisor = t.dividend * u.divisor

/-- The terms without what they share; `none` for a ratio of one. -/
def reduce? (t : Terms) : Option Terms :=
  let shared : Int := t.dividend.gcd t.divisor
  let dividend := t.dividend / shared
  let divisor := t.divisor / shared
  if dividend = 1 ∧ divisor = 1 then none else some ⟨dividend, divisor⟩

def mul? (s t : Terms) : Option Terms :=
  reduce? ⟨s.dividend * t.dividend, s.divisor * t.divisor⟩

def pow? (t : Terms) (n : Nat) : Option Terms :=
  reduce? ⟨t.dividend ^ n, t.divisor ^ n⟩

/-- The terms exchanged, both with the other sign if the dividend is negative. -/
def inverse (t : Terms) : Terms :=
  if t.dividend < 0 then ⟨-t.divisor, -t.dividend⟩ else ⟨t.divisor, t.dividend⟩

/-! ### Arithmetic that is not checked -/

variable {s t : Terms}

/-- Terms come apart into what they share and what is left of them, and just the latter is kept. -/
theorem exists_reduce?_eq (nonzero : t.dividend ≠ 0) : ∃ shared a b : Int, 0 < shared ∧
    t = ⟨a * shared, b * shared⟩ ∧ a.gcd b = 1 ∧
    t.reduce? = if a = 1 ∧ b = 1 then none else some ⟨a, b⟩ := by
  obtain ⟨dividend, divisor⟩ := t
  have shared : 0 < dividend.gcd divisor := Int.gcd_pos_of_ne_zero_left divisor nonzero
  refine ⟨dividend.gcd divisor, dividend / dividend.gcd divisor, divisor / dividend.gcd divisor,
    by omega, ?_, Int.gcd_ediv_gcd_ediv_gcd shared, rfl⟩
  rw [Int.ediv_mul_cancel (Int.gcd_dvd_left ..), Int.ediv_mul_cancel (Int.gcd_dvd_right ..)]

/-- What is left without the shared part is a reduction of the terms. -/
theorem isReduction_reduce? (positive : 0 < t.divisor) (nonzero : t.dividend ≠ 0) :
    t.IsReduction t.reduce? := by
  obtain ⟨shared, a, b, sharedPos, rfl, lowest, eq⟩ := exists_reduce?_eq nonzero
  have divisor : 0 < b := Int.pos_of_mul_pos_left positive sharedPos
  have dividend : a ≠ 0 := left_ne_zero_of_mul nonzero
  -- Equal terms that share nothing are one and one.
  have one : a = b ↔ a = 1 ∧ b = 1 := by
    constructor
    · rintro rfl
      rw [Int.gcd_self] at lowest
      omega
    · omega
  rw [eq]
  constructor
  · dsimp only
    rw [Int.mul_eq_mul_right_iff (by omega), one]
    simp only [ite_eq_left_iff, reduceCtorEq, imp_false, not_not]
  · intro u reduced
    split at reduced <;> cases reduced
    rename_i other
    refine ⟨⟨divisor, dividend, mt one.1 other⟩, lowest, ?_⟩
    dsimp only
    ring

/-- The inverse of valid terms is valid, as the sign goes to the dividend. -/
theorem IsValid.inverse (valid : t.IsValid) : t.inverse.IsValid := by
  have positive := valid.divisor_pos
  have nonzero := valid.dividend_ne_zero
  have unequal := valid.dividend_ne_divisor
  unfold Terms.inverse
  split
  · constructor <;> dsimp only <;> omega
  · constructor <;> dsimp only <;> omega

/-- The unchecked product of valid terms is valid and reduced. -/
theorem IsValid.isReduction_mul? (left : s.IsValid) (right : t.IsValid) :
    IsReduction ⟨s.dividend * t.dividend, s.divisor * t.divisor⟩ (s.mul? t) :=
  isReduction_reduce? (Int.mul_pos left.divisor_pos right.divisor_pos)
    (Int.mul_ne_zero left.dividend_ne_zero right.dividend_ne_zero)

/-- The unchecked power of valid terms is valid and reduced. -/
theorem IsValid.isReduction_pow? (valid : t.IsValid) (n : Nat) :
    IsReduction ⟨t.dividend ^ n, t.divisor ^ n⟩ (t.pow? n) :=
  isReduction_reduce? (Int.pow_pos valid.divisor_pos) (pow_ne_zero n valid.dividend_ne_zero)

end Terms

/-! ### The terms of ratios -/

/-- The terms of a ratio are valid. -/
theorem isValid_terms (r : Ratio) : r.terms.IsValid where
  divisor_pos := Int.natCast_pos.2 r.divisor_pos
  dividend_ne_zero := r.dividend_ne_zero
  dividend_ne_divisor := r.dividend_ne_divisor

theorem ofTerms_terms (r : Ratio) : ofTerms r.dividend r.divisor = .ok r := by
  rw [ofTerms, dif_pos (Int.natCast_pos.2 r.divisor_pos), dif_neg r.dividend_ne_divisor,
    dif_neg r.dividend_ne_zero]
  rfl

/-- The checked constructor takes just the valid terms, and leaves them as they are. -/
theorem exists_ofTerms_iff {t : Terms} :
    (∃ r, ofTerms t.dividend t.divisor = .ok r ∧ r.terms = t) ↔ t.IsValid := by
  constructor
  · rintro ⟨r, -, rfl⟩
    exact r.isValid_terms
  · intro valid
    obtain ⟨dividend, divisor⟩ := t
    obtain ⟨divisor, rfl⟩ := Int.eq_ofNat_of_zero_le (Int.le_of_lt valid.divisor_pos)
    have positive : 0 < divisor := Int.natCast_pos.1 valid.divisor_pos
    exact ⟨_, ofTerms_terms
      ⟨dividend, divisor, positive, valid.dividend_ne_zero, valid.dividend_ne_divisor⟩, rfl⟩

/-- The scaling by a number has the terms of the number as any fraction, without what they share. -/
theorem map_terms_ofRat? {dividend : Int} {divisor : Nat} {q : Rat} (nonzero : q ≠ 0)
    (positive : 0 < divisor) (value : q = mkRat dividend divisor) :
    (ofRat? q nonzero).map terms = Terms.reduce? ⟨dividend, divisor⟩ := by
  have shared : divisor.gcd dividend.natAbs = dividend.gcd divisor := Nat.gcd_comm ..
  have num : q.num = dividend / (dividend.gcd divisor : Int) := by
    rw [value, Rat.num_mkRat, if_neg (Nat.ne_of_gt positive), shared]
  have den : (q.den : Int) = divisor / (dividend.gcd divisor : Int) := by
    rw [value, Rat.den_mkRat, if_neg (Nat.ne_of_gt positive), shared, Int.natCast_ediv]
  have one : q = 1 ↔ q.num = 1 ∧ (q.den : Int) = 1 := by
    constructor
    · rintro rfl
      exact ⟨rfl, rfl⟩
    · rintro ⟨first, second⟩
      apply Rat.ext first
      exact_mod_cast second
  unfold ofRat? Terms.reduce?
  dsimp only
  rw [← num, ← den]
  by_cases none : q = 1
  · rw [dif_pos none, if_pos (one.1 none), Option.map_none]
  · rw [dif_neg none, if_neg (mt one.2 none), Option.map_some]
    rfl

/-- Ratios are multiplied by the arithmetic on their terms. -/
theorem map_terms_mul? (r s : Ratio) : (r.mul? s).map terms = r.terms.mul? s.terms := by
  have product : r.toRat * s.toRat = mkRat (r.dividend * s.dividend) (r.divisor * s.divisor) :=
    Rat.mkRat_mul_mkRat ..
  rw [mul?, map_terms_ofRat? _ (Nat.mul_pos r.divisor_pos s.divisor_pos) product, Int.natCast_mul]
  rfl

/-- Ratios are raised by the arithmetic on their terms. -/
theorem map_terms_pow? (r : Ratio) (n : Nat) : (r.pow? n).map terms = r.terms.pow? n := by
  have power : r.toRat ^ n = mkRat (r.dividend ^ n) (r.divisor ^ n) := by
    simp only [toRat, Rat.mkRat_eq_div]
    push_cast
    exact div_pow ..
  rw [pow?, map_terms_ofRat? _ (Nat.pow_pos r.divisor_pos) power, Int.natCast_pow]
  rfl

/-- Ratios are inverted by the arithmetic on their terms. -/
theorem terms_inverse (r : Ratio) : r.inverse.terms = r.terms.inverse := by
  have nonzero := r.dividend_ne_zero
  unfold terms inverse Terms.inverse
  dsimp only
  split
  · rename_i negative
    rw [Int.sign_eq_neg_one_of_neg negative, Int.neg_one_mul, Int.ofNat_natAbs_of_nonpos (by omega)]
  · have positive : 0 < r.dividend := by omega
    rw [Int.sign_eq_one_of_pos positive, Int.one_mul, Int.natAbs_of_nonneg (by omega)]

end Ratio

namespace Converter

/-- What a converter is made of: offsets other than zero, scalings with valid terms, and logarithms and
exponentials to a finite positive base other than one. -/
def IsValid : Converter → Prop
  | identity => True
  | add offset => offset ≠ 0
  | multiply _ => False
  | ratio r => r.terms.IsValid
  | log base | exp base => base.isFinite = true ∧ 0 < base ∧ (base == 1) = false
  | pair outer inner => outer.IsValid ∧ inner.IsValid

/-- The converters that the checked constructors give, and what the operations make of them. -/
inductive IsBuilt : Converter → Prop where
  | identity : IsBuilt identity
  | ratio {dividend divisor : Int} {c : Converter} (ok : ofTerms dividend divisor = .ok c) : IsBuilt c
  | scaling {factor : Rat} {c : Converter} (ok : scaling factor = .ok c) : IsBuilt c
  | add {offset : Rat} {c : Converter} (ok : offsetBy offset = .ok c) : IsBuilt c
  | log {base : Float} {c : Converter} (ok : logTo base = .ok c) : IsBuilt c
  | exp {base : Float} {c : Converter} (ok : expOf base = .ok c) : IsBuilt c
  | compose {a b : Converter} (outer : IsBuilt a) (inner : IsBuilt b) : IsBuilt (a.compose b)
  | inverse {c : Converter} (built : IsBuilt c) : IsBuilt c.inverse
  | normalize {c : Converter} (built : IsBuilt c) : IsBuilt c.normalize
  | pow {c d : Converter} (n : Int) (built : IsBuilt c) (ok : c.pow n = .ok d) : IsBuilt d
  | ofSteps {l : List Converter} (built : ∀ c ∈ l, IsBuilt c) : IsBuilt (ofSteps l)

variable {c : Converter}

/-! ### The checks -/

/-- Validity, stated by the terms, is what checked converters have. -/
theorem isValid_iff_isChecked : c.IsValid ↔ c.IsChecked := by
  induction c with
  | ratio r => exact iff_of_true r.isValid_terms trivial
  | log base | exp base => exact isBase_iff.symm
  | pair outer inner ho hi => exact and_congr ho hi
  | _ => exact Iff.rfl

theorem isChecked_of_ofTerms {dividend divisor : Int} (ok : ofTerms dividend divisor = .ok c) :
    c.IsChecked := by
  unfold ofTerms at ok
  split at ok <;> cases ok
  trivial

theorem isChecked_of_scaling {factor : Rat} (ok : scaling factor = .ok c) : c.IsChecked := by
  unfold scaling at ok
  split at ok
  · cases ok
    trivial
  · exact isChecked_of_ofTerms ok

/-- An offset is refused just if it is zero. -/
theorem offsetBy_eq_ok_iff {offset : Rat} : offsetBy offset = .ok c ↔ offset ≠ 0 ∧ c = add offset := by
  simp only [offsetBy, ite_eq_iff, Except.ok.injEq, @eq_comm _ c, reduceCtorEq, and_false, false_or,
    ne_eq]

/-! ### Building -/

/-- Nothing that a check refuses comes of what the checks let pass. -/
theorem IsBuilt.isChecked (built : c.IsBuilt) : c.IsChecked := by
  induction built with
  | identity => trivial
  | ratio ok => exact isChecked_of_ofTerms ok
  | scaling ok => exact isChecked_of_scaling ok
  | add ok =>
    obtain ⟨nonzero, rfl⟩ := offsetBy_eq_ok_iff.1 ok
    exact nonzero
  | log ok =>
    obtain ⟨valid, rfl⟩ := logTo_eq_ok_iff.1 ok
    exact valid
  | exp ok =>
    obtain ⟨valid, rfl⟩ := expOf_eq_ok_iff.1 ok
    exact valid
  | compose _ _ outer inner => exact isStable_isChecked.compose outer inner
  | inverse _ checked => exact isStable_isChecked.inverse checked
  | normalize _ checked => exact isStable_isChecked.compose isStable_isChecked.identity checked
  | pow n _ ok checked => exact isStable_isChecked.pow checked ok
  | ofSteps _ checked => exact ofSteps_induction trivial (fun outer inner => ⟨outer, inner⟩) checked

/-- Whatever would pass all checks can be built, a pair being the chain of its two parts. -/
theorem isBuilt_of_isChecked (checked : c.IsChecked) : c.IsBuilt := by
  induction c with
  | identity => exact .identity
  | add offset => exact .add (offsetBy_eq_ok_iff.2 ⟨checked, rfl⟩)
  | multiply factor => exact checked.elim
  | ratio r =>
    apply IsBuilt.ratio
    rw [ofTerms, Ratio.ofTerms_terms]
  | log base => exact .log (logTo_eq_ok_iff.2 ⟨checked, rfl⟩)
  | exp base => exact .exp (expOf_eq_ok_iff.2 ⟨checked, rfl⟩)
  | pair outer inner ho hi =>
    have chain : (ofSteps [outer, inner]).IsBuilt := by
      apply IsBuilt.ofSteps
      rw [List.forall_mem_cons, List.forall_mem_singleton]
      exact ⟨ho checked.1, hi checked.2⟩
    exact chain

/-- The converters that can be built are those that are valid throughout. Their scalings are composed,
repeated and undone by integer arithmetic on their terms, which keeps terms valid without a check and
reduces what it multiplies: two scalings cancel just if their ratios make one, and are otherwise one
scaling in lowest terms. -/
theorem building_keeps_validity (c : Converter) (r s : Ratio) (t u : Ratio.Terms) (n : Nat) :
    (c.IsBuilt ↔ c.IsValid) ∧
    ((∃ q, Ratio.ofTerms t.dividend t.divisor = .ok q ∧ q.terms = t) ↔ t.IsValid) ∧
    ((r.mul? s).map Ratio.terms = r.terms.mul? s.terms ∧
      (r.pow? n).map Ratio.terms = r.terms.pow? n ∧ r.inverse.terms = r.terms.inverse) ∧
    (t.IsValid → u.IsValid → t.inverse.IsValid ∧
      Ratio.Terms.IsReduction ⟨t.dividend * u.dividend, t.divisor * u.divisor⟩ (t.mul? u) ∧
      Ratio.Terms.IsReduction ⟨t.dividend ^ n, t.divisor ^ n⟩ (t.pow? n)) ∧
    ((ratio r).compose (ratio s) = identity ↔ r.toRat * s.toRat = 1) ∧
    (r.toRat * s.toRat ≠ 1 → ∃ q : Ratio, (ratio r).compose (ratio s) = ratio q ∧ q.IsReduced ∧
      q.toRat = r.toRat * s.toRat) := by
  refine ⟨?_, Ratio.exists_ofTerms_iff, ⟨r.map_terms_mul? s, r.map_terms_pow? n, r.terms_inverse⟩,
    fun ht hu => ⟨ht.inverse, ht.isReduction_mul? hu, ht.isReduction_pow? n⟩, ?_⟩
  · rw [isValid_iff_isChecked]
    exact ⟨IsBuilt.isChecked, isBuilt_of_isChecked⟩
  · rw [ratio_compose_ratio]
    rcases scaleBy_kinds (mul_ne_zero r.toRat_ne_zero s.toRat_ne_zero) with
      ⟨eq, one⟩ | ⟨q, eq, reduced, value, other⟩
    · exact ⟨iff_of_true eq one, fun other => absurd one other⟩
    · refine ⟨iff_of_false ?_ other, fun _ => ⟨q, eq, reduced, value⟩⟩
      rw [eq]
      exact nofun

/-- A negative scaling is undone, cubed, and composed with another, which leaves one in lowest terms;
what is built from it with a logarithm and an offset is valid. -/
theorem building_keeps_validity_level :
    let r : Ratio := ⟨-3, 7, by decide, by decide, by decide⟩
    let s : Ratio := ⟨14, 9, by decide, by decide, by decide⟩
    let level := (ofSteps [log 10, add (1 / 2), ratio r]).inverse
    (level.IsBuilt ∧ level.IsValid) ∧
    (r.terms.IsValid ∧ s.terms.IsValid) ∧
    (r.terms.inverse.IsValid ∧ Ratio.Terms.IsReduction ⟨-3 * 14, 7 * 9⟩ (r.terms.mul? s.terms) ∧
      Ratio.Terms.IsReduction ⟨(-3) ^ 3, 7 ^ 3⟩ (r.terms.pow? 3)) ∧
    r.toRat * s.toRat ≠ 1 ∧ ∃ q : Ratio, (ratio r).compose (ratio s) = ratio q ∧ q.IsReduced ∧
      q.toRat = r.toRat * s.toRat := by
  intro r s level
  have built : level.IsBuilt := by
    apply IsBuilt.inverse
    apply IsBuilt.ofSteps
    rw [List.forall_mem_cons, List.forall_mem_cons, List.forall_mem_singleton]
    exact ⟨.log (if_pos (by decide +kernel)), .add (if_neg (by decide +kernel)),
      .ratio (rfl : ofTerms (-3) 7 = _)⟩
  have validR : r.terms.IsValid := ⟨by decide, by decide, by decide⟩
  have validS : s.terms.IsValid := ⟨by decide, by decide, by decide⟩
  have other : r.toRat * s.toRat ≠ 1 := by decide +kernel
  obtain ⟨valid, -, -, kept, -, composed⟩ := building_keeps_validity level r s r.terms s.terms 3
  exact ⟨⟨built, valid.1 built⟩, ⟨validR, validS⟩, kept validR validS, other, composed other⟩

end Converter

end Metrology
