import Mathlib.Data.List.Basic
import Metrology.SymbolMap

/-!
# Looking up a symbol

A symbol that is not known as a whole is cut in two, and the cuts are tried from the back, starting
behind the longest multiple that there is. No multiple reaches further, so the unit that is found is
that of the last cut at all with a multiple in front and a symbol behind.
-/
namespace Metrology.SymbolMap

theorem mem_of_lookup_eq_some {β : Type} {entries : List (String × β)} {key : String} {value : β}
    (h : entries.lookup key = some value) : (key, value) ∈ entries := by
  obtain ⟨before, after, rfl, -⟩ := List.lookup_eq_some_iff.1 h
  simp

/-- A search from the top finds what is found highest. -/
theorem findSome?_reverse_range' {α : Type} {f : Nat → Option α} {k : Nat} {u : α} :
    (List.range' 1 k).reverse.findSome? f = some u ↔
      ∃ n, 1 ≤ n ∧ n ≤ k ∧ f n = some u ∧ ∀ i, n < i → i ≤ k → f i = none := by
  induction k with
  | zero =>
    refine iff_of_false (Option.some_ne_none u).symm ?_
    rintro ⟨n, positive, bound, -⟩
    omega
  | succ k ih =>
    rw [List.range'_concat, List.reverse_append, List.reverse_singleton, List.singleton_append,
      List.findSome?_cons, Nat.one_mul, Nat.add_comm 1 k]
    cases top : f (k + 1) with
    | some v =>
      constructor
      · intro found
        exact ⟨k + 1, by omega, Nat.le_refl _, top.trans found, fun i above bound => by omega⟩
      · rintro ⟨n, -, bound, found, nothing⟩
        rcases Nat.lt_or_eq_of_le bound with below | rfl
        · rw [nothing (k + 1) below (Nat.le_refl _)] at top
          cases top
        · exact top.symm.trans found
    | none =>
      refine ih.trans (exists_congr fun n => and_congr_right fun _ => ?_)
      constructor
      · rintro ⟨bound, found, nothing⟩
        refine ⟨by omega, found, fun i above limit => ?_⟩
        rcases Nat.lt_or_eq_of_le limit with below | rfl
        · exact nothing i above (by omega)
        · exact top
      · rintro ⟨bound, found, nothing⟩
        refine ⟨?_, found, fun i above limit => nothing i above (by omega)⟩
        rcases Nat.lt_or_eq_of_le bound with below | rfl
        · omega
        · rw [top] at found
          cases found

/-- No multiple is longer than the length that the map keeps. -/
def IsBounded (m : SymbolMap) : Prop :=
  ∀ entry ∈ m.multiples, entry.1.length ≤ m.longestMultiple

/-- A cut behind the longest multiple finds no unit. -/
theorem IsBounded.unitCutAt?_eq_none {m : SymbolMap} (bounded : m.IsBounded) {symbol : List Char}
    {n : Nat} (within : n ≤ symbol.length) (beyond : m.longestMultiple < n) :
    m.unitCutAt? symbol n = none := by
  have unknown : m.multiples.lookup (String.ofList (symbol.take n)) = none := by
    rw [Option.eq_none_iff_forall_ne_some]
    intro converter known
    have short := bounded _ (mem_of_lookup_eq_some known)
    rw [String.length_ofList, List.length_take, Nat.min_eq_left within] at short
    omega
  rw [unitCutAt?, unknown]
  rfl

theorem exists_unitCutAt?_of_unitWithMultiple? {m : SymbolMap} {symbol : List Char}
    {u : MeasureUnit} (h : m.unitWithMultiple? symbol = some u) :
    ∃ n, m.unitCutAt? symbol n = some u := by
  obtain ⟨n, -, found⟩ := List.exists_of_findSome?_eq_some h
  exact ⟨n, found⟩

/-- The search sees all cuts: those behind the longest multiple find nothing. -/
theorem IsBounded.unitWithMultiple?_eq_some_iff {m : SymbolMap} (bounded : m.IsBounded)
    {symbol : List Char} {u : MeasureUnit} : m.unitWithMultiple? symbol = some u ↔
      ∃ n, 1 ≤ n ∧ n < symbol.length ∧ m.unitCutAt? symbol n = some u ∧
        ∀ i, n < i → i < symbol.length → m.unitCutAt? symbol i = none := by
  rw [unitWithMultiple?, findSome?_reverse_range']
  refine exists_congr fun n => and_congr_right fun positive => ?_
  constructor
  · rintro ⟨bound, found, nothing⟩
    refine ⟨by omega, found, fun i above within => ?_⟩
    by_cases known : i ≤ m.longestMultiple
    · exact nothing i above (by omega)
    · exact bounded.unitCutAt?_eq_none (by omega) (by omega)
  · rintro ⟨within, found, nothing⟩
    refine ⟨?_, found, fun i above bound => nothing i above (by omega)⟩
    by_contra beyond
    rw [bounded.unitCutAt?_eq_none (by omega) (by omega)] at found
    cases found

/-- A symbol is taken as a whole before it is cut. -/
theorem unit?_eq_some_iff {m : SymbolMap} {symbol : String} {u : MeasureUnit} :
    m.unit? symbol = some u ↔ m.units.lookup symbol = some u ∨
      (m.units.lookup symbol = none ∧ m.unitWithMultiple? symbol.toList = some u) := by
  rw [unit?]
  cases m.units.lookup symbol <;> simp

/-- A symbol is that of an entry, or a multiple in front of one. -/
theorem unit?_eq_some {m : SymbolMap} {symbol : String} {v : MeasureUnit}
    (h : m.unit? symbol = some v) :
    (symbol, v) ∈ m.units ∨ ∃ multiple ∈ m.multiples, ∃ entry ∈ m.units,
      symbol.toList = multiple.1.toList ++ entry.1.toList ∧ v = entry.2.transform multiple.2 := by
  rcases unit?_eq_some_iff.1 h with whole | ⟨-, behind⟩
  · exact Or.inl (mem_of_lookup_eq_some whole)
  · obtain ⟨n, cut⟩ := exists_unitCutAt?_of_unitWithMultiple? behind
    simp only [unitCutAt?, Option.bind_eq_bind, Option.bind_eq_some_iff] at cut
    obtain ⟨converter, front, unit, back, eq⟩ := cut
    cases eq
    refine Or.inr ⟨_, mem_of_lookup_eq_some front, _, mem_of_lookup_eq_some back, ?_, rfl⟩
    simp

end Metrology.SymbolMap
