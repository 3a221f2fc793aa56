/-!
# Powers of units

The integer power of a factor, stored in 32 bits. Sums, products and negations
are checked: one that leaves the range has no result.
-/
namespace Metrology

/-- An integer from `-2 ^ 31` to `2 ^ 31 - 1`. -/
structure Power where
  val : Int
  lower : -2147483648 ≤ val
  upper : val ≤ 2147483647
  deriving DecidableEq, Repr

namespace Power

def ofInt? (n : Int) : Option Power :=
  if h : -2147483648 ≤ n ∧ n ≤ 2147483647 then some ⟨n, h.1, h.2⟩ else none

def one : Power := ⟨1, by decide, by decide⟩

def negOne : Power := ⟨-1, by decide, by decide⟩

def add? (a b : Power) : Option Power := ofInt? (a.val + b.val)

def mul? (a b : Power) : Option Power := ofInt? (a.val * b.val)

def neg? (a : Power) : Option Power := ofInt? (-a.val)

@[ext] theorem ext {a b : Power} (h : a.val = b.val) : a = b := by
  cases a
  cases b
  simpa using h

theorem ofInt?_eq_some_iff {n : Int} {p : Power} : ofInt? n = some p ↔ p.val = n := by
  unfold ofInt?
  constructor
  · intro h
    split at h
    · simp only [Option.some.injEq] at h
      exact (congrArg val h).symm
    · cases h
  · rintro rfl
    rw [dif_pos ⟨p.lower, p.upper⟩]

end Power

end Metrology
