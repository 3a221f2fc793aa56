import Mathlib.Data.List.Chain
import Mathlib.Tactic.Ring
import Metrology.Proofs.Converter.Chain
import Metrology.Proofs.Double.Fields

/-!
# The group law of converters

Offsets form a group, scalings in lowest terms form another, and the logarithm and the
exponential to one base undo each other. Composition is multiplication in the free product
of these groups, on words of steps in which no neighbours merge. All laws follow from one
fact about the stack: pushing two steps that merge is pushing what they merge into.
-/
namespace Metrology

def Ratio.IsReduced (r : Ratio) : Prop := r.dividend.natAbs.Coprime r.divisor

instance (r : Ratio) : Decidable r.IsReduced := inferInstanceAs (Decidable (_ = 1))

namespace Converter

/-- Converters out of offsets other than zero, scalings in lowest terms, and logarithms and
exponentials to a finite positive base other than one, paired in any way. -/
def IsProper : Converter → Prop
  | identity => True
  | add offset => offset ≠ 0
  | multiply _ => False
  | ratio r => r.IsReduced
  | log base | exp base => isBase base = true
  | pair outer inner => outer.IsProper ∧ inner.IsProper

instance decidableIsProper : (c : Converter) → Decidable c.IsProper
  | identity => inferInstanceAs (Decidable True)
  | add offset => inferInstanceAs (Decidable (offset ≠ 0))
  | multiply _ => inferInstanceAs (Decidable False)
  | ratio r => inferInstanceAs (Decidable r.IsReduced)
  | log base | exp base => inferInstanceAs (Decidable (isBase base = true))
  | pair outer inner =>
    have := decidableIsProper outer
    have := decidableIsProper inner
    inferInstanceAs (Decidable (outer.IsProper ∧ inner.IsProper))

theorem isProper_of_mem_steps {c s : Converter} (proper : c.IsProper) (h : s ∈ c.steps) :
    s.IsProper := by
  induction c with
  | identity => cases h
  | pair outer inner ho hi =>
    rcases List.mem_append.1 h with h | h
    · exact ho proper.1 h
    · exact hi proper.2 h
  | _ =>
    cases List.mem_singleton.1 h
    exact proper

theorem isProper_ofSteps {l : List Converter} (h : ∀ s ∈ l, s.IsProper) : (ofSteps l).IsProper :=
  ofSteps_induction trivial (fun outer inner => ⟨outer, inner⟩) h

/-! ### Bases -/

/-- The bases that logarithms and exponentials take: finite, positive and not one. -/
theorem isBase_iff {x : Float} :
    isBase x = true ↔ x.isFinite = true ∧ 0 < x ∧ (x == 1) = false := by
  simp only [isBase, Bool.and_eq_true, decide_eq_true_eq, Bool.not_eq_true', and_assoc]

theorem pos_of_isBase {x : Float} (h : isBase x = true) : 0 < x :=
  (isBase_iff.1 h).2.1

theorem isFinite_of_isBase {x : Float} (h : isBase x = true) : x.isFinite = true :=
  (isBase_iff.1 h).1

/-- Bases that are equal are the same double. -/
theorem beq_base_iff {x y : Float} (h : isBase x = true) : (x == y) = true ↔ x = y := by
  constructor
  · exact Double.eq_of_beq_of_pos (pos_of_isBase h) (isFinite_of_isBase h)
  · rintro rfl
    exact Double.beq_self_of_pos (pos_of_isBase h) (isFinite_of_isBase h)

/-- A logarithm is made exactly to a base that is taken. -/
theorem logTo_eq_ok_iff {x : Float} {c : Converter} :
    logTo x = .ok c ↔ isBase x = true ∧ c = log x := by
  simp only [logTo, ite_eq_iff, Except.ok.injEq, @eq_comm _ c, reduceCtorEq, and_false, or_false]

theorem expOf_eq_ok_iff {x : Float} {c : Converter} :
    expOf x = .ok c ↔ isBase x = true ∧ c = exp x := by
  simp only [expOf, ite_eq_iff, Except.ok.injEq, @eq_comm _ c, reduceCtorEq, and_false, or_false]

/-! ### Elements of the factors of the product -/

def shiftBy (x : Rat) : Converter := if x = 0 then identity else add x

/-- The scaling by any number other than zero, one included. -/
def scaleBy (q : Rat) : Converter := if h : q ≠ 0 then ofRatio? (Ratio.ofRat? q h) else identity

/-- Terms without a common divisor are those of the number that they stand for. -/
theorem ofRat?_toRat {r : Ratio} (h : r.IsReduced) :
    Ratio.ofRat? r.toRat r.toRat_ne_zero = some r := by
  have value : r.toRat = ⟨r.dividend, r.divisor, Nat.ne_of_gt r.divisor_pos, h⟩ :=
    (Rat.mk_eq_mkRat _ _ _ _).symm
  have one : r.toRat ≠ 1 := by
    rw [value]
    intro eq
    have num := congrArg Rat.num eq
    have den := congrArg Rat.den eq
    exact r.dividend_ne_divisor (by simpa using num.trans (congrArg Int.ofNat den).symm)
  unfold Ratio.ofRat?
  rw [dif_neg one]
  cases r
  simp [value]

theorem scaleBy_toRat {r : Ratio} (h : r.IsReduced) : scaleBy r.toRat = ratio r := by
  rw [scaleBy, dif_pos r.toRat_ne_zero, ofRat?_toRat h]
  rfl

theorem scaleBy_one : scaleBy 1 = identity := by
  rw [scaleBy, dif_pos (by decide), Ratio.ofRat?, dif_pos rfl]
  rfl

/-- The terms of a number have no common divisor and give the number back. -/
theorem ofRat?_isReduced {q : Rat} {h : q ≠ 0} {r : Ratio} (eq : Ratio.ofRat? q h = some r) :
    r.IsReduced ∧ r.toRat = q := by
  unfold Ratio.ofRat? at eq
  split at eq
  · cases eq
  · cases eq
    exact ⟨q.reduced, Rat.mkRat_self q⟩

/-- Two scalings merge into the scaling by the product. -/
theorem merge_ratio (a b : Ratio) : (ratio a).merge (ratio b) = some (scaleBy (a.toRat * b.toRat)) := by
  have nonzero : a.toRat * b.toRat ≠ 0 := fun h =>
    (Rat.mul_eq_zero.1 h).elim a.toRat_ne_zero b.toRat_ne_zero
  simp only [merge, Ratio.mul?, scaleBy, dif_pos nonzero]

/-- Two offsets merge into the offset by the sum. -/
theorem merge_add (a b : Rat) : (add a).merge (add b) = some (shiftBy (a + b)) := rfl

/-- The scaling by zero or one is left out, and any other has reduced terms. -/
theorem scaleBy_cases (q : Rat) :
    (scaleBy q = identity ∧ (q = 0 ∨ q = 1)) ∨
      ∃ r : Ratio, scaleBy q = ratio r ∧ r.IsReduced ∧ r.toRat = q := by
  unfold scaleBy
  split
  · rename_i h
    cases eq : Ratio.ofRat? q h with
    | none =>
      unfold Ratio.ofRat? at eq
      split at eq
      · exact Or.inl ⟨rfl, Or.inr (by assumption)⟩
      · cases eq
    | some r => exact Or.inr ⟨r, rfl, ofRat?_isReduced eq⟩
  · rename_i h
    exact Or.inl ⟨rfl, Or.inl (by simpa using h)⟩

/-- A logarithm merges with the exponential to its base alone, and cancels it. -/
theorem merge_log {x y : Float} (h : isBase x = true) :
    (log x).merge (exp y) = if x = y then some identity else none := by
  simp only [merge, beq_base_iff h]

theorem merge_exp {x y : Float} (h : isBase x = true) :
    (exp x).merge (log y) = if x = y then some identity else none := by
  simp only [merge, beq_base_iff h]

/-- The kinds of steps that merge. -/
theorem merge_kinds {a b m : Converter} (h : a.merge b = some m) :
    (∃ x y, a = add x ∧ b = add y ∧ m = shiftBy (x + y)) ∨
    (∃ r s, a = ratio r ∧ b = ratio s ∧ m = scaleBy (r.toRat * s.toRat)) ∨
    (∃ x y, a = multiply x ∧ b = multiply y ∧ (m = identity ∨ ∃ z, m = multiply z)) ∨
    (∃ x y, a = log x ∧ b = exp y ∧ m = identity) ∨
    (∃ x y, a = exp x ∧ b = log y ∧ m = identity) := by
  cases a <;> cases b <;> try (cases h; done)
  case add.add x y => exact Or.inl ⟨x, y, rfl, rfl, (Option.some.inj h).symm⟩
  case ratio.ratio r s =>
    rw [merge_ratio] at h
    exact Or.inr (Or.inl ⟨r, s, rfl, rfl, (Option.some.inj h).symm⟩)
  case multiply.multiply x y =>
    simp only [merge] at h
    split at h <;> cases h
    refine Or.inr (Or.inr (Or.inl ⟨x, y, rfl, rfl, ?_⟩))
    split
    · exact Or.inl rfl
    · exact Or.inr ⟨_, rfl⟩
  case log.exp x y =>
    simp only [merge] at h
    split at h <;> cases h
    exact Or.inr (Or.inr (Or.inr (Or.inl ⟨x, y, rfl, rfl, rfl⟩)))
  case exp.log x y =>
    simp only [merge] at h
    split at h <;> cases h
    exact Or.inr (Or.inr (Or.inr (Or.inr ⟨x, y, rfl, rfl, rfl⟩)))

/-- The ways in which proper steps merge. -/
theorem merge_cases {a b m : Converter} (proper : a.IsProper) (h : a.merge b = some m) :
    (∃ x y, a = add x ∧ b = add y ∧ m = shiftBy (x + y)) ∨
    (∃ r s, a = ratio r ∧ b = ratio s ∧ m = scaleBy (r.toRat * s.toRat)) ∨
    (∃ x, a = log x ∧ b = exp x ∧ m = identity) ∨
    (∃ x, a = exp x ∧ b = log x ∧ m = identity) := by
  cases a <;> cases b <;> try (cases h; done)
  case add.add x y => exact Or.inl ⟨x, y, rfl, rfl, (Option.some.inj h).symm⟩
  case multiply.multiply => exact proper.elim
  case ratio.ratio r s =>
    rw [merge_ratio] at h
    cases h
    exact Or.inr (Or.inl ⟨r, s, rfl, rfl, rfl⟩)
  case log.exp x y =>
    rw [merge_log proper] at h
    split at h <;> cases h
    rename_i eq
    exact Or.inr (Or.inr (Or.inl ⟨x, rfl, by rw [eq], rfl⟩))
  case exp.log x y =>
    rw [merge_exp proper] at h
    split at h <;> cases h
    rename_i eq
    exact Or.inr (Or.inr (Or.inr ⟨x, rfl, by rw [eq], rfl⟩))

theorem isProper_shiftBy (x : Rat) : (shiftBy x).IsProper := by
  unfold shiftBy
  split
  · trivial
  · assumption

theorem isProper_scaleBy (q : Rat) : (scaleBy q).IsProper := by
  rcases scaleBy_cases q with ⟨h, -⟩ | ⟨r, h, reduced, -⟩
  · rw [h]
    trivial
  · rw [h]
    exact reduced

/-- What proper steps merge into is proper again. -/
theorem isProper_of_merge {a b m : Converter} (proper : a.IsProper) (h : a.merge b = some m) :
    m.IsProper := by
  rcases merge_cases proper h with ⟨x, y, -, -, rfl⟩ | ⟨r, s, -, -, rfl⟩ | ⟨x, -, -, rfl⟩ | ⟨x, -, -, rfl⟩
  · exact isProper_shiftBy _
  · exact isProper_scaleBy _
  · trivial
  · trivial

/-! ### Joining three steps -/

/-- Merging with the identity as a neutral element. -/
def join : Converter → Converter → Option Converter
  | identity, b => some b
  | a, identity => some a
  | a, b => a.merge b

theorem join_shiftBy_left {x y : Rat} (h : y ≠ 0) :
    (shiftBy x).join (add y) = some (shiftBy (x + y)) := by
  unfold shiftBy
  split
  · rename_i zero
    rw [zero, Rat.zero_add, if_neg h]
    rfl
  · rfl

theorem join_shiftBy_right {x y : Rat} (h : x ≠ 0) :
    (add x).join (shiftBy y) = some (shiftBy (x + y)) := by
  unfold shiftBy
  split
  · rename_i zero
    rw [zero, Rat.add_zero, if_neg h]
    rfl
  · rfl

theorem join_scaleBy_left {p : Rat} {s : Ratio} (hp : p ≠ 0) (hs : s.IsReduced) :
    (scaleBy p).join (ratio s) = some (scaleBy (p * s.toRat)) := by
  rcases scaleBy_cases p with ⟨h, zero | one⟩ | ⟨r, h, -, rfl⟩
  · exact absurd zero hp
  · rw [h, one, Rat.one_mul, scaleBy_toRat hs]
    rfl
  · rw [h, ← merge_ratio]
    rfl

theorem join_scaleBy_right {p : Rat} {r : Ratio} (hp : p ≠ 0) (hr : r.IsReduced) :
    (ratio r).join (scaleBy p) = some (scaleBy (r.toRat * p)) := by
  rcases scaleBy_cases p with ⟨h, zero | one⟩ | ⟨s, h, -, rfl⟩
  · exact absurd zero hp
  · rw [h, one, Rat.mul_one, scaleBy_toRat hr]
    rfl
  · rw [h, ← merge_ratio]
    rfl

/-- Of three steps that merge pairwise it does not matter which two merge first. -/
theorem join_assoc {t a b k m : Converter} (ht : t.IsProper) (ha : a.IsProper) (hb : b.IsProper)
    (hk : t.merge a = some k) (hm : a.merge b = some m) :
    ∃ n, k.join b = some n ∧ t.join m = some n := by
  rcases merge_cases ht hk with ⟨x, y, rfl, rfl, rfl⟩ | ⟨r, s, rfl, rfl, rfl⟩ |
      ⟨x, rfl, rfl, rfl⟩ | ⟨x, rfl, rfl, rfl⟩ <;>
    rcases merge_cases ha hm with ⟨x', y', eq, rfl, rfl⟩ | ⟨r', s', eq, rfl, rfl⟩ |
      ⟨x', eq, rfl, rfl⟩ | ⟨x', eq, rfl, rfl⟩ <;> cases eq
  · exact ⟨_, join_shiftBy_left hb, by rw [join_shiftBy_right ht, Rat.add_assoc]⟩
  · have left : r.toRat * s.toRat ≠ 0 := fun h =>
      (Rat.mul_eq_zero.1 h).elim r.toRat_ne_zero s.toRat_ne_zero
    have right : s.toRat * s'.toRat ≠ 0 := fun h =>
      (Rat.mul_eq_zero.1 h).elim s.toRat_ne_zero s'.toRat_ne_zero
    exact ⟨_, join_scaleBy_left left hb, by rw [join_scaleBy_right right ht, Rat.mul_assoc]⟩
  · exact ⟨_, rfl, rfl⟩
  · exact ⟨_, rfl, rfl⟩

/-- A step that does not merge with another does not merge with what the other becomes. -/
theorem merge_eq_none_of_merge {q t a k : Converter} (ht : t.IsProper) (hk : t.merge a = some k)
    (keeps : k.isIdentity = false) (apart : q.merge t = none) : q.merge k = none := by
  rcases merge_cases ht hk with ⟨x, y, rfl, rfl, rfl⟩ | ⟨r, s, rfl, rfl, rfl⟩ |
    ⟨x, rfl, rfl, rfl⟩ | ⟨x, rfl, rfl, rfl⟩
  · unfold shiftBy at keeps ⊢
    split at keeps
    · cases keeps
    · rw [if_neg (by assumption)]
      cases q <;> first | rfl | cases apart
  · rcases scaleBy_cases (r.toRat * s.toRat) with ⟨h, -⟩ | ⟨p, h, -, -⟩
    · rw [h] at keeps
      cases keeps
    · rw [h]
      cases q <;> first | rfl | cases apart
  · cases keeps
  · cases keeps

/-! ### Pushing steps that merge -/

/-- Puts what a merge leaves on a stack: nothing, if the steps cancelled. -/
def place (stack : List Converter) (c : Converter) : List Converter :=
  if c.isIdentity then stack else push stack c

@[simp] theorem place_identity (stack : List Converter) : place stack identity = stack := rfl

theorem place_of_isStep {c : Converter} (stack : List Converter) (h : c.IsStep) :
    place stack c = push stack c := by
  rw [place, not_isIdentity_of_isStep h]
  rfl

/-- A step that merges with the top takes its place, or takes it away. -/
theorem push_cons_of_merge {top s k : Converter} {below : List Converter}
    (h : top.merge s = some k) : push (top :: below) s = place below k := by
  rw [push, h]
  rfl

/-- A step that does not merge with the top goes on it. -/
theorem push_cons_of_no_merge {top s : Converter} {below : List Converter}
    (h : top.merge s = none) : push (top :: below) s = s :: top :: below := by
  rw [push, h]

theorem push_of_normal {t : Converter} {below : List Converter} (normal : IsNormal (t :: below)) :
    push below t = t :: below := by
  cases below with
  | nil => rfl
  | cons q r => exact push_cons_of_no_merge (List.isChain_cons_cons.1 normal).1

/-- Placing on a top that joins in is placing what the two join to below it. -/
theorem place_cons {t m n : Converter} {below : List Converter} (normal : IsNormal (t :: below))
    (step : t.IsStep) (h : t.join m = some n) : place (t :: below) m = place below n := by
  by_cases identical : m = identity
  · subst identical
    have : t = n := by
      cases t <;> exact Option.some.inj h
    subst this
    rw [place_identity, place_of_isStep below step]
    exact (push_of_normal normal).symm
  · have merges : t.merge m = some n := by
      cases t <;> cases m <;> first | exact h | exact step.elim | exact absurd rfl identical
    rw [place, if_neg (by rwa [isIdentity_iff]), push_cons_of_merge merges]

/-- Pushing two steps that merge is pushing what they merge into. Steps on the stack that do not meet
the first of the two may be improper. -/
theorem push_push {stack : List Converter} {a b m : Converter} (normal : IsNormal stack)
    (stacked : ∀ t ∈ stack, t.IsStep ∧ ∀ k, t.merge a = some k → t.IsProper) (ha : a.IsProper)
    (hb : b.IsStep ∧ b.IsProper) (hm : a.merge b = some m) :
    push (push stack a) b = place stack m := by
  cases stack with
  | nil => exact push_cons_of_merge hm
  | cons t below =>
    obtain ⟨step, meets⟩ := stacked t (by simp)
    cases hk : t.merge a with
    | none => rw [push_cons_of_no_merge hk, push_cons_of_merge hm]
    | some k =>
      have proper := meets k hk
      obtain ⟨n, left, right⟩ := join_assoc proper ha hb.2 hk hm
      rw [push_cons_of_merge hk, place_cons normal step right]
      by_cases identical : k = identity
      · subst identical
        cases Option.some.inj left
        rw [place_identity, place_of_isStep below hb.1]
      · have keeps : k.isIdentity = false := by
          rw [← Bool.not_eq_true, isIdentity_iff]
          exact identical
        have merges : k.merge b = some n := by
          obtain ⟨hb, -⟩ := hb
          cases k <;> cases b <;> first | exact left | exact hb.elim | exact absurd rfl identical
        have stays : push below k = k :: below := by
          cases below with
          | nil => rfl
          | cons q r =>
            exact push_cons_of_no_merge
              (merge_eq_none_of_merge proper hk keeps (List.isChain_cons_cons.1 normal).1)
        rw [place, keeps, if_neg (by decide), stays, push_cons_of_merge merges]

/-! ### Words and what they do to a stack -/

def IsWord (l : List Converter) : Prop := ∀ s ∈ l, s.IsStep ∧ s.IsProper

theorem IsWord.meets {l : List Converter} {a : Converter} (h : IsWord l) :
    ∀ t ∈ l, t.IsStep ∧ ∀ k, t.merge a = some k → t.IsProper :=
  fun t ht => ⟨(h t ht).1, fun _ _ => (h t ht).2⟩

/-- Words in which no neighbours merge, the innermost step first. -/
def IsReducedWord (stack : List Converter) : Prop := IsNormal stack ∧ IsWord stack

theorem isReducedWord_nil : IsReducedWord [] := ⟨List.isChain_nil, by simp [IsWord]⟩

theorem push_isProper {stack : List Converter} {s : Converter} (stacked : ∀ t ∈ stack, t.IsProper)
    (hs : s.IsProper) : ∀ t ∈ push stack s, t.IsProper :=
  forall_push (fun proper _ h _ => isProper_of_merge proper h) stacked hs

/-- A push keeps a reduced word reduced. -/
theorem IsReducedWord.push {stack : List Converter} {s : Converter} (h : IsReducedWord stack)
    (hs : s.IsStep ∧ s.IsProper) : IsReducedWord (Converter.push stack s) := by
  refine ⟨push_isNormal h.1, fun t ht => ⟨?_, ?_⟩⟩
  · exact push_isStep (fun t ht => (h.2 t ht).1) hs.1 t ht
  · exact push_isProper (fun t ht => (h.2 t ht).2) hs.2 t ht

theorem IsReducedWord.foldl_push {stack l : List Converter} (h : IsReducedWord stack)
    (hl : IsWord l) : IsReducedWord (l.foldl Converter.push stack) := by
  induction l generalizing stack with
  | nil => exact h
  | cons s l ih => exact ih (h.push (hl s (by simp))) fun t ht => hl t (by simp [ht])

theorem IsWord.append {l l' : List Converter} (h : IsWord l) (h' : IsWord l') : IsWord (l ++ l') := by
  intro s hs
  rcases List.mem_append.1 hs with hs | hs
  · exact h s hs
  · exact h' s hs

/-- The steps of a proper converter are a word. -/
theorem isWord_steps {c : Converter} (proper : c.IsProper) : IsWord c.steps :=
  fun _ hs => ⟨isStep_of_mem_steps hs, isProper_of_mem_steps proper hs⟩

theorem isWord_mergeSteps {l : List Converter} (h : IsWord l) : IsWord (mergeSteps l) :=
  fun s hs => (isReducedWord_nil.foldl_push h).2 s (List.mem_reverse.1 hs)

/-- A stack pushed on another does what its last step does after the rest of it. -/
theorem foldl_reverse_push {st stack : List Converter} {x : Converter} (hst : IsReducedWord st)
    (h : IsReducedWord stack) (hx : x.IsStep ∧ x.IsProper) :
    (push st x).reverse.foldl push stack = push (st.reverse.foldl push stack) x := by
  induction st generalizing x with
  | nil => rfl
  | cons t below ih =>
    have word : IsWord below := fun s hs => hst.2 s (by simp [hs])
    have lower : IsReducedWord (below.reverse.foldl push stack) :=
      h.foldl_push fun s hs => word s (List.mem_reverse.1 hs)
    obtain ⟨step, proper⟩ := hst.2 t (by simp)
    cases hk : t.merge x with
    | none =>
      rw [push_cons_of_no_merge hk, List.reverse_cons, List.foldl_append]
      rfl
    | some k =>
      rw [push_cons_of_merge hk, List.reverse_cons, List.foldl_append]
      change _ = push (push _ t) x
      rw [push_push lower.1 lower.2.meets proper hx hk]
      by_cases identical : k = identity
      · rw [identical, place_identity, place_identity]
      · have keeps : k.IsStep := isStep_of_merge hk (by
          rw [← Bool.not_eq_true, isIdentity_iff]
          exact identical)
        rw [place_of_isStep _ keeps, place_of_isStep _ keeps]
        exact ih ⟨hst.1.tail, word⟩ ⟨keeps, isProper_of_merge proper hk⟩

/-- Merging the steps of a word does not change what it does to a stack. -/
theorem foldl_mergeSteps {l stack : List Converter} (hl : IsWord l) (h : IsReducedWord stack) :
    (mergeSteps l).foldl push stack = l.foldl push stack := by
  have general : ∀ (l st : List Converter), IsWord l → IsReducedWord st →
      (l.foldl push st).reverse.foldl push stack = l.foldl push (st.reverse.foldl push stack) := by
    intro l
    induction l with
    | nil => exact fun st _ _ => rfl
    | cons x l ih =>
      intro st hl hst
      have hx := hl x (by simp)
      rw [List.foldl_cons, List.foldl_cons,
        ih (push st x) (fun s hs => hl s (by simp [hs])) (hst.push hx), foldl_reverse_push hst h hx]
  exact general l [] hl isReducedWord_nil

/-- The front of a word may be merged first. -/
theorem mergeSteps_mergeSteps_append {l l' : List Converter} (hl : IsWord l) :
    mergeSteps (mergeSteps l ++ l') = mergeSteps (l ++ l') := by
  rw [mergeSteps, List.foldl_append, foldl_mergeSteps hl isReducedWord_nil, ← List.foldl_append]
  rfl

/-- The back of a word may be merged first. -/
theorem mergeSteps_append_mergeSteps {l l' : List Converter} (hl : IsWord l) (hl' : IsWord l') :
    mergeSteps (l ++ mergeSteps l') = mergeSteps (l ++ l') := by
  rw [mergeSteps, List.foldl_append, foldl_mergeSteps hl' (isReducedWord_nil.foldl_push hl),
    ← List.foldl_append]
  rfl

/-! ### Inverses -/

theorem toRat_mul_inverse (r : Ratio) : r.toRat * r.inverse.toRat = 1 := by
  have dividend := r.dividend_ne_zero
  have divisor := r.divisor_pos
  have one : (1 : Rat) = mkRat 1 1 := rfl
  rw [Ratio.toRat, Ratio.toRat, Rat.mkRat_mul_mkRat, one, Rat.mkRat_eq_iff ?_ (by decide)]
  · simp only [Ratio.inverse, ← Int.mul_assoc, Int.mul_sign_self]
    push_cast
    ring
  · exact Nat.mul_ne_zero (by omega) (Int.natAbs_ne_zero.2 dividend)

theorem natAbs_inverse_dividend (r : Ratio) : r.inverse.dividend.natAbs = r.divisor := by
  have sign : r.dividend.sign.natAbs = 1 := Int.natAbs_sign_of_ne_zero r.dividend_ne_zero
  simp [Ratio.inverse, Int.natAbs_mul, sign]

theorem isReduced_inverse {r : Ratio} (h : r.IsReduced) : r.inverse.IsReduced := by
  rw [Ratio.IsReduced, natAbs_inverse_dividend]
  exact Nat.Coprime.symm h

theorem inverse_inverse_ratio (r : Ratio) : r.inverse.inverse = r := by
  have divisor : r.inverse.inverse.divisor = r.divisor := natAbs_inverse_dividend r
  have dividend : r.inverse.inverse.dividend = r.dividend := by
    have positive : (r.divisor : Int).sign = 1 := Int.sign_eq_one_of_pos (by
      have := r.divisor_pos
      omega)
    simp only [Ratio.inverse, Int.sign_mul, Int.sign_sign, positive, Int.mul_one]
    exact Int.sign_mul_natAbs r.dividend
  generalize r.inverse.inverse = s at divisor dividend
  cases r
  cases s
  cases divisor
  cases dividend
  rfl

theorem isStep_inverse {s : Converter} (h : s.IsStep) : s.inverse.IsStep := by
  cases s <;> trivial

theorem isProper_inverse_step {s : Converter} (step : s.IsStep) (h : s.IsProper) :
    s.inverse.IsProper := by
  cases s with
  | identity | pair => exact step.elim
  | add x => exact neg_ne_zero.2 h
  | multiply => exact h.elim
  | ratio r => exact isReduced_inverse h
  | log | exp => exact h

/-- A proper step is the inverse of its inverse. -/
theorem inverse_inverse_step {s : Converter} (step : s.IsStep) (h : s.IsProper) :
    s.inverse.inverse = s := by
  cases s with
  | identity | pair => exact step.elim
  | add x => simp [inverse]
  | multiply => exact h.elim
  | ratio r => simp [inverse, inverse_inverse_ratio]
  | log | exp => rfl

/-- A proper step is cancelled by its inverse. -/
theorem merge_inverse {s : Converter} (step : s.IsStep) (h : s.IsProper) :
    s.merge s.inverse = some identity := by
  cases s with
  | identity | pair => exact step.elim
  | add x => simp [inverse, merge]
  | multiply => exact h.elim
  | ratio r => rw [inverse, merge_ratio, toRat_mul_inverse, scaleBy_one]
  | log x => rw [inverse, merge_log h, if_pos rfl]
  | exp x => rw [inverse, merge_exp h, if_pos rfl]

def undo (l : List Converter) : List Converter := (l.map inverse).reverse

theorem undo_append (l l' : List Converter) : undo (l ++ l') = undo l' ++ undo l := by
  simp [undo]

theorem isWord_undo {l : List Converter} (h : IsWord l) : IsWord (undo l) := by
  intro s hs
  simp only [undo, List.mem_reverse, List.mem_map] at hs
  obtain ⟨t, ht, rfl⟩ := hs
  obtain ⟨step, proper⟩ := h t ht
  exact ⟨isStep_inverse step, isProper_inverse_step step proper⟩

theorem undo_undo {l : List Converter} (h : IsWord l) : undo (undo l) = l := by
  simp only [undo, List.map_reverse, List.reverse_reverse, List.map_map]
  conv_rhs => rw [← List.map_id l]
  apply List.map_congr_left
  intro s hs
  exact inverse_inverse_step (h s hs).1 (h s hs).2

/-- A word and then the word that undoes it leave a stack alone. -/
theorem foldl_undo {l stack : List Converter} (hl : IsWord l) (h : IsReducedWord stack) :
    (undo l).foldl push (l.foldl push stack) = stack := by
  induction l generalizing stack with
  | nil => rfl
  | cons s l ih =>
    obtain ⟨step, proper⟩ := hl s (by simp)
    have word : IsWord l := fun t ht => hl t (by simp [ht])
    have undone : undo (s :: l) = undo l ++ [s.inverse] := by simp [undo]
    rw [undone, List.foldl_append]
    change push ((undo l).foldl push (l.foldl push (push stack s))) s.inverse = stack
    rw [ih word (h.push ⟨step, proper⟩)]
    exact push_push h.1 h.2.meets proper ⟨isStep_inverse step, isProper_inverse_step step proper⟩
      (merge_inverse step proper)

/-- A word and the word that undoes it cancel. -/
theorem mergeSteps_append_undo {l : List Converter} (hl : IsWord l) :
    mergeSteps (l ++ undo l) = [] := by
  rw [mergeSteps, List.foldl_append, foldl_undo hl isReducedWord_nil, List.reverse_nil]

theorem mergeSteps_undo_append {l : List Converter} (hl : IsWord l) :
    mergeSteps (undo l ++ l) = [] := by
  have undone := mergeSteps_append_undo (isWord_undo hl)
  rwa [undo_undo hl] at undone

/-- Undoing a merged word does the same as undoing the word. -/
theorem mergeSteps_undo_mergeSteps {l : List Converter} (hl : IsWord l) :
    mergeSteps (undo (mergeSteps l)) = mergeSteps (undo l) := by
  have after : IsReducedWord ((undo l).foldl push []) := isReducedWord_nil.foldl_push (isWord_undo hl)
  have back : (mergeSteps l).foldl push ((undo l).foldl push []) = [] := by
    have := foldl_undo (isWord_undo hl) isReducedWord_nil
    rwa [undo_undo hl, ← foldl_mergeSteps hl after] at this
  have := foldl_undo (isWord_mergeSteps hl) after
  rw [back] at this
  rw [mergeSteps, this, mergeSteps]

/-! ### Converters -/

/-- The inverse of a proper converter is the chain of the word that undoes its steps, merged. -/
theorem inverse_eq_ofSteps {c : Converter} (h : c.IsProper) :
    c.inverse = ofSteps (mergeSteps (undo c.steps)) := by
  induction c with
  | identity => rfl
  | pair outer inner ho hi =>
    have wo := isWord_undo (isWord_steps h.1)
    have wi := isWord_undo (isWord_steps h.2)
    have steps {l : List Converter} (hl : IsWord l) : (ofSteps (mergeSteps l)).steps = mergeSteps l :=
      steps_ofSteps fun s hs => (isWord_mergeSteps hl s hs).1
    rw [inverse, compose, hi h.2, ho h.1, steps wo, steps wi, Converter.steps, undo_append,
      mergeSteps_mergeSteps_append wi, mergeSteps_append_mergeSteps wi wo]
  | _ => rfl

theorem isProper_compose {a b : Converter} (ha : a.IsProper) (hb : b.IsProper) :
    (a.compose b).IsProper :=
  isProper_ofSteps fun s hs => (isWord_mergeSteps ((isWord_steps ha).append (isWord_steps hb)) s hs).2

theorem isProper_inverse {c : Converter} (h : c.IsProper) : c.inverse.IsProper := by
  rw [inverse_eq_ofSteps h]
  exact isProper_ofSteps fun s hs => (isWord_mergeSteps (isWord_undo (isWord_steps h)) s hs).2

/-- The steps of the inverse are the merged word that undoes those of the converter. -/
theorem steps_inverse {c : Converter} (h : c.IsProper) :
    c.inverse.steps = mergeSteps (undo c.steps) := by
  rw [inverse_eq_ofSteps h]
  exact steps_ofSteps fun s hs => (isWord_mergeSteps (isWord_undo (isWord_steps h)) s hs).1

/-- Composition is associative. -/
theorem compose_compose {a b c : Converter} (ha : a.IsProper) (hb : b.IsProper) (hc : c.IsProper) :
    (a.compose b).compose c = a.compose (b.compose c) := by
  have wa := isWord_steps ha
  have wb := isWord_steps hb
  have wc := isWord_steps hc
  rw [compose, steps_compose, mergeSteps_mergeSteps_append (wa.append wb), List.append_assoc,
    ← mergeSteps_append_mergeSteps wa (wb.append wc), ← steps_compose]
  rfl

/-- To compose with the identity is to normalize. -/
theorem compose_identity (a : Converter) : a.compose identity = a.normalize := by
  rw [compose, normalize, compose, steps, List.append_nil, List.nil_append]

/-- A proper converter after its inverse does nothing, and leaves no step. -/
theorem compose_inverse {a : Converter} (ha : a.IsProper) : a.compose a.inverse = identity := by
  have wa := isWord_steps ha
  rw [compose, steps_inverse ha, mergeSteps_append_mergeSteps wa (isWord_undo wa),
    mergeSteps_append_undo wa]
  rfl

theorem inverse_compose {a : Converter} (ha : a.IsProper) : a.inverse.compose a = identity := by
  have wa := isWord_steps ha
  rw [compose, steps_inverse ha, mergeSteps_mergeSteps_append (isWord_undo wa),
    mergeSteps_undo_append wa]
  rfl

/-- The inverse of a composition composes the inverses the other way round. -/
theorem inverse_of_compose {a b : Converter} (ha : a.IsProper) (hb : b.IsProper) :
    (a.compose b).inverse = b.inverse.compose a.inverse := by
  have wa := isWord_steps ha
  have wb := isWord_steps hb
  rw [inverse_eq_ofSteps (isProper_compose ha hb), steps_compose,
    mergeSteps_undo_mergeSteps (wa.append wb), undo_append, compose, steps_inverse ha,
    steps_inverse hb, mergeSteps_mergeSteps_append (isWord_undo wb),
    mergeSteps_append_mergeSteps (isWord_undo wb) (isWord_undo wa)]

/-- The inverse of the inverse is the normal form. -/
theorem inverse_inverse {a : Converter} (ha : a.IsProper) : a.inverse.inverse = a.normalize := by
  have wa := isWord_steps ha
  rw [inverse_eq_ofSteps (isProper_inverse ha), steps_inverse ha,
    mergeSteps_undo_mergeSteps (isWord_undo wa), undo_undo wa]
  rfl

theorem compose_normalize_right {a b : Converter} (ha : a.IsProper) (hb : b.IsProper) :
    a.compose b.normalize = a.compose b := by
  have neutral : identity.IsProper := trivial
  rw [← compose_identity b, ← compose_compose ha hb neutral, compose_identity, normalize_compose]

theorem inverse_inverse_compose {a b : Converter} (ha : a.IsProper) (hb : b.IsProper) :
    (b.inverse.compose a).inverse = a.inverse.compose b := by
  rw [inverse_of_compose (isProper_inverse hb) ha, inverse_inverse hb,
    compose_normalize_right (isProper_inverse ha) hb]

/-- What is in between cancels. -/
theorem compose_inverse_compose {a b c : Converter} (ha : a.IsProper) (hb : b.IsProper)
    (hc : c.IsProper) : (a.compose b).compose (b.inverse.compose c) = a.compose c := by
  have hb' := isProper_inverse hb
  rw [compose_compose ha hb (isProper_compose hb' hc), ← compose_compose hb hb' hc,
    compose_inverse hb]
  exact compose_normalize_right ha hc

/-- The order in which converters that can be exchanged are composed does not matter. -/
theorem foldl_compose_perm {l l' : List Converter} (perm : l.Perm l')
    (proper : ∀ c ∈ l, c.IsProper) (commute : ∀ c ∈ l, ∀ d ∈ l, c.compose d = d.compose c)
    {acc : Converter} (hacc : acc.IsProper) : l.foldl compose acc = l'.foldl compose acc := by
  induction perm generalizing acc with
  | nil => rfl
  | cons c _ ih =>
    exact ih (fun d hd => proper d (by simp [hd])) (fun d hd e he => commute d (by simp [hd]) e (by simp [he]))
      (isProper_compose hacc (proper c (by simp)))
  | swap c d l =>
    have hc := proper c (by simp)
    have hd := proper d (by simp)
    rw [List.foldl_cons, List.foldl_cons, List.foldl_cons, List.foldl_cons, compose_compose hacc hd hc,
      compose_compose hacc hc hd, commute c (by simp) d (by simp)]
  | trans first second ih ih' =>
    rw [ih proper commute hacc]
    exact ih' (fun c hc => proper c (first.mem_iff.2 hc))
      (fun c hc d hd => commute c (first.mem_iff.2 hc) d (first.mem_iff.2 hd)) hacc

/-- The laws of a group, up to the normal form. -/
theorem compose_group_laws (a b c : Converter) (ha : a.IsProper) (hb : b.IsProper)
    (hc : c.IsProper) :
    (a.compose b).compose c = a.compose (b.compose c) ∧
    identity.compose a = a.normalize ∧ a.compose identity = a.normalize ∧
    a.compose a.inverse = identity ∧ a.inverse.compose a = identity ∧
    (a.compose b).inverse = b.inverse.compose a.inverse ∧
    a.inverse.inverse = a.normalize :=
  ⟨compose_compose ha hb hc, rfl, compose_identity a, compose_inverse ha, inverse_compose ha,
    inverse_of_compose ha hb, inverse_inverse ha⟩

/-- The laws for a chain of which most is undone by the next: what a level of sound and a
gain leave is a scaling. -/
theorem compose_group_laws_level :
    let level := pair (log 10) (add 1)
    let gain := pair (add (-1)) (exp 10)
    let share := ratio ⟨3, 7, by decide, by decide, by decide⟩
    (level.IsProper ∧ gain.IsProper ∧ share.IsProper) ∧
    (level.compose gain).compose share = level.compose (gain.compose share) ∧
    identity.compose level = level.normalize ∧ level.compose identity = level.normalize ∧
    level.compose level.inverse = identity ∧ level.inverse.compose level = identity ∧
    (level.compose gain).inverse = gain.inverse.compose level.inverse ∧
    level.inverse.inverse = level.normalize := by
  intro level gain share
  have hl : level.IsProper := by decide +kernel
  have hg : gain.IsProper := by decide +kernel
  have hs : share.IsProper := by decide +kernel
  exact ⟨⟨hl, hg, hs⟩, compose_group_laws level gain share hl hg hs⟩

end Converter

end Metrology
