import Mathlib.Data.List.Dedup
import Mathlib.Data.List.Find
import Metrology.Proofs.MeasureUnit.Building
import Metrology.Proofs.SymbolMap.Lookup

/-!
# What a symbol map answers

A symbol map is filled by operations one after the other, and every question that it answers has an
answer in terms of these: what was given last counts. A symbol that was never given as a whole is taken
apart into a multiple and a symbol, the longest multiple that leaves a known symbol first.

A label is written for its unit until the unit gets another one, while a symbol is read as the unit
that it was given last. So a label is read as its unit exactly if no other unit was given the symbol
last.
-/
namespace Metrology.SymbolMap

inductive Operation where
  | addLabel (unit : MeasureUnit) (symbol : String)
  | addAlias (unit : MeasureUnit) (symbol : String)
  | addMultiple (converter : Converter) (symbol : String)
  | addMultipleAlias (converter : Converter) (symbol : String)

namespace Operation

def apply (m : SymbolMap) : Operation → SymbolMap
  | addLabel unit symbol => m.addLabel unit symbol
  | addAlias unit symbol => m.addAlias unit symbol
  | addMultiple converter symbol => m.addMultiple converter symbol
  | addMultipleAlias converter symbol => m.addMultipleAlias converter symbol

def unitSymbol? : Operation → Option (String × MeasureUnit)
  | addLabel unit symbol | addAlias unit symbol => some (symbol, unit)
  | _ => none

def label? : Operation → Option (MeasureUnit × String)
  | addLabel unit symbol => some (unit, symbol)
  | _ => none

def multipleSymbol? : Operation → Option (String × Converter)
  | addMultiple converter symbol | addMultipleAlias converter symbol => some (symbol, converter)
  | _ => none

def multipleLabel? : Operation → Option (Converter × String)
  | addMultiple converter symbol => some (converter, symbol)
  | _ => none

end Operation

def ofOperations (ops : List Operation) : SymbolMap := ops.foldl Operation.apply empty

/-- What was given last for a key. -/
def last? {α β : Type} [BEq α] (given : List (α × β)) (key : α) : Option β :=
  (given.filter fun entry => entry.1 == key).getLast?.map (·.2)

def lastUnit? (ops : List Operation) : String → Option MeasureUnit :=
  last? (ops.filterMap Operation.unitSymbol?)

def lastLabel? (ops : List Operation) : MeasureUnit → Option String :=
  last? (ops.filterMap Operation.label?)

def lastConverter? (ops : List Operation) : String → Option Converter :=
  last? (ops.filterMap Operation.multipleSymbol?)

def lastMultiple? (ops : List Operation) : Converter → Option String :=
  last? (ops.filterMap Operation.multipleLabel?)

/-- A symbol taken apart into a multiple and a symbol that were both given. -/
structure IsCut (ops : List Operation) (symbol front back : String) (converter : Converter)
    (unit : MeasureUnit) : Prop where
  parts : front ++ back = symbol
  front_ne : front ≠ ""
  back_ne : back ≠ ""
  multiple : lastConverter? ops front = some converter
  rest : lastUnit? ops back = some unit

/-- What a symbol stands for: the unit that it was given to last, or, if it was given to none, the unit
behind the longest multiple in front of it. -/
inductive StandsFor (ops : List Operation) (symbol : String) : MeasureUnit → Prop where
  | whole {unit : MeasureUnit} (given : lastUnit? ops symbol = some unit) : StandsFor ops symbol unit
  | cut {front back : String} {converter : Converter} {unit : MeasureUnit}
      (unknown : lastUnit? ops symbol = none) (cut : IsCut ops symbol front back converter unit)
      (longest : ∀ front' back' converter' unit', IsCut ops symbol front' back' converter' unit' →
        front'.length ≤ front.length) :
      StandsFor ops symbol (unit.transform converter)

/-! ### Entries under keys -/

section Entries

variable {α β : Type}

/-- What is given behind everything else replaces what was given for its key. -/
theorem last?_concat [BEq α] (given : List (α × β)) (entry : α × β) (key : α) :
    last? (given ++ [entry]) key = if entry.1 == key then some entry.2 else last? given key := by
  rw [last?, List.filter_append, List.filter_singleton]
  cases entry.1 == key with
  | true =>
    rw [cond_true, List.getLast?_concat]
    rfl
  | false =>
    rw [cond_false, List.append_nil]
    rfl

theorem mem_of_last?_eq_some [BEq α] {given : List (α × β)} {key : α} {value : β}
    (h : last? given key = some value) : ∃ k, (k, value) ∈ given ∧ (k == key) = true := by
  obtain ⟨entry, last, rfl⟩ := Option.map_eq_some_iff.1 h
  obtain ⟨member, same⟩ := List.mem_filter.1 (List.mem_of_getLast? last)
  exact ⟨entry.1, member, same⟩

/-- Something was given last for any key that something was given for. -/
theorem exists_last?_of_mem [BEq α] {given : List (α × β)} {entry : α × β} {key : α}
    (member : entry ∈ given) (same : (entry.1 == key) = true) :
    ∃ value, last? given key = some value := by
  have kept : entry ∈ given.filter fun entry => entry.1 == key := List.mem_filter.2 ⟨member, same⟩
  rw [last?, List.getLast?_eq_some_getLast (List.ne_nil_of_mem kept)]
  exact ⟨_, rfl⟩

/-- Taking the entries of a key out leaves those of other keys. -/
theorem lookup_filter_ne {key other : String} (different : key ≠ other)
    (entries : List (String × α)) :
    (entries.filter fun entry => entry.1 != key).lookup other = entries.lookup other := by
  induction entries with
  | nil => rfl
  | cons entry entries ih =>
    obtain ⟨k, value⟩ := entry
    by_cases same : k = key
    · have apart : (other == k) = false := by
        rw [beq_eq_false_iff_ne, same]
        exact different.symm
      rw [List.filter_cons_of_neg (by simpa using same), ih, List.lookup_cons, apart]
    · rw [List.filter_cons_of_pos (by simpa using same), List.lookup_cons, List.lookup_cons, ih]

/-- An insertion answers for its own key and leaves the others. -/
theorem lookup_insert (key other : String) (value : α) (entries : List (String × α)) :
    (insert key value entries).lookup other =
      if key == other then some value else entries.lookup other := by
  rw [insert, List.lookup_cons]
  by_cases same : key = other
  · rw [same, beq_self_eq_true, if_pos rfl]
  · rw [beq_false_of_ne same, beq_false_of_ne (Ne.symm same), lookup_filter_ne same]
    rfl

def insertAll (given : List (String × α)) : List (String × α) :=
  given.foldl (fun entries entry => insert entry.1 entry.2 entries) []

theorem insertAll_concat (given : List (String × α)) (entry : String × α) :
    insertAll (given ++ [entry]) = insert entry.1 entry.2 (insertAll given) :=
  List.foldl_concat _ _ _ _

/-- What was inserted last is found. -/
theorem lookup_insertAll (given : List (String × α)) (key : String) :
    (insertAll given).lookup key = last? given key := by
  induction given using List.reverseRecOn with
  | nil => rfl
  | append_singleton given entry ih => rw [insertAll_concat, lookup_insert, last?_concat, ih]

/-- The inserted key stands in front, and nowhere behind. -/
theorem keys_insert (key : String) (value : α) (entries : List (String × α)) :
    (insert key value entries).map (·.1) = key :: (entries.map (·.1)).filter (· != key) := by
  rw [insert, List.map_cons, List.filter_map]
  rfl

/-- Each key that was ever inserted is there once. -/
theorem keys_insertAll (given : List (String × α)) : ((insertAll given).map (·.1)).Nodup ∧
    ∀ key, key ∈ (insertAll given).map (·.1) ↔ key ∈ given.map (·.1) := by
  induction given using List.reverseRecOn with
  | nil => exact ⟨List.nodup_nil, fun _ => Iff.rfl⟩
  | append_singleton given entry ih =>
    obtain ⟨nodup, keys⟩ := ih
    rw [insertAll_concat, keys_insert]
    refine ⟨List.nodup_cons.2 ⟨by simp, nodup.filter _⟩, fun key => ?_⟩
    rw [List.mem_cons, List.mem_filter, keys, List.map_append, List.mem_append, bne_iff_ne]
    by_cases same : key = entry.1 <;> simp [same]

/-! ### Labels -/

/-- Whether equality is transitive, and symmetric from the items of a kind on. -/
structure IsComparable [BEq α] (P : α → Prop) : Prop where
  symm {a b : α} : P a → (a == b) = true → (b == a) = true
  trans {a b c : α} : (a == b) = true → (b == c) = true → (a == c) = true

variable [BEq α] {P : α → Prop}

/-- A new label answers for all that equals its item, and leaves other labels. -/
theorem IsComparable.symbolOf?_relabel (hP : IsComparable P) {item : α} {symbol : String}
    {entries : List (α × String)} (hitem : P item) (hentries : ∀ entry ∈ entries, P entry.1)
    (x : α) : symbolOf? (relabel item symbol entries) x =
      if item == x then some symbol else symbolOf? entries x := by
  rw [symbolOf?, relabel, List.find?_append, List.find?_filter]
  by_cases same : (item == x) = true
  · -- What equals `x` equals the item, and was taken out.
    have gone : entries.find?
        (fun entry => decide ((entry.1 != item) = true ∧ (entry.1 == x) = true)) = none := by
      rw [List.find?_eq_none]
      intro entry _ kept
      simp only [decide_eq_true_eq, bne, Bool.not_eq_true'] at kept
      rw [hP.trans kept.2 (hP.symm hitem same)] at kept
      cases kept.1
    rw [gone, if_pos same, Option.none_or, List.find?_singleton, if_pos same]
    rfl
  · -- What equals `x` does not equal the item, and was kept.
    have kept : entries.find?
        (fun entry => decide ((entry.1 != item) = true ∧ (entry.1 == x) = true)) =
          entries.find? fun entry => entry.1 == x := by
      refine List.find?_congr fun entry member => ?_
      by_cases found : (entry.1 == x) = true
      · have apart : (entry.1 == item) = false := by
          rw [← Bool.not_eq_true]
          exact fun equal => same (hP.trans (hP.symm (hentries entry member) equal) found)
        simp [found, bne, apart]
      · simp [found]
    rw [kept, if_neg same, List.find?_singleton, if_neg same, Option.or_none]
    rfl

def relabelAll (given : List (α × String)) : List (α × String) :=
  given.foldl (fun entries entry => relabel entry.1 entry.2 entries) []

theorem relabelAll_concat (given : List (α × String)) (entry : α × String) :
    relabelAll (given ++ [entry]) = relabel entry.1 entry.2 (relabelAll given) :=
  List.foldl_concat _ _ _ _

/-- All labels that are left were given. -/
theorem mem_of_mem_relabelAll {given : List (α × String)} {entry : α × String}
    (h : entry ∈ relabelAll given) : entry ∈ given := by
  induction given using List.reverseRecOn with
  | nil => exact h
  | append_singleton given last ih =>
    rw [relabelAll_concat, relabel] at h
    rcases List.mem_append.1 h with h | h
    · exact List.mem_append_left _ (ih (List.mem_of_mem_filter h))
    · exact List.mem_append_right _ h

/-- The label that an item was given last is found. -/
theorem IsComparable.symbolOf?_relabelAll (hP : IsComparable P) {given : List (α × String)}
    (hgiven : ∀ entry ∈ given, P entry.1) (x : α) :
    symbolOf? (relabelAll given) x = last? given x := by
  induction given using List.reverseRecOn with
  | nil => rfl
  | append_singleton given entry ih =>
    have before : ∀ e ∈ given, P e.1 := fun e he => hgiven e (List.mem_append_left _ he)
    have labelled : ∀ e ∈ relabelAll given, P e.1 := fun e he => before e (mem_of_mem_relabelAll he)
    rw [relabelAll_concat, hP.symbolOf?_relabel (hgiven entry (by simp)) labelled, last?_concat,
      ih before]

end Entries

/-- Units that are built can be compared. -/
theorem isComparable_isBuilt : IsComparable MeasureUnit.IsBuilt :=
  ⟨fun built => built.isDistinct.beq_symm, MeasureUnit.beq_trans⟩

/-- All converters can be compared. -/
theorem isComparable_converter : IsComparable fun _ : Converter => True :=
  ⟨fun _ => Converter.beq_symm, Converter.beq_trans⟩

/-! ### The map after the operations -/

section Operations

variable (ops : List Operation)

/-- A part of the map that takes up one kind of what operations give depends on that alone. -/
theorem part_ofOperations {σ γ : Type} (part : SymbolMap → σ) (given? : Operation → Option γ)
    (put : σ → γ → σ)
    (step : ∀ m op, part (Operation.apply m op) = (given? op).elim (part m) (put (part m))) :
    part (ofOperations ops) = (ops.filterMap given?).foldl put (part empty) := by
  rw [List.foldl_filterMap]
  refine (List.foldl_hom part fun m op => ?_).symm
  rw [step]
  cases given? op <;> rfl

theorem units_ofOperations :
    (ofOperations ops).units = insertAll (ops.filterMap Operation.unitSymbol?) :=
  part_ofOperations ops units Operation.unitSymbol? _ fun m op => by cases op <;> rfl

theorem labels_ofOperations :
    (ofOperations ops).labels = relabelAll (ops.filterMap Operation.label?) :=
  part_ofOperations ops labels Operation.label? _ fun m op => by cases op <;> rfl

/-- The multiples are the last that each symbol was given. -/
theorem multiples_ofOperations :
    (ofOperations ops).multiples = insertAll (ops.filterMap Operation.multipleSymbol?) :=
  part_ofOperations ops multiples Operation.multipleSymbol? _ fun m op => by cases op <;> rfl

/-- The length that is kept is that of the longest multiple that was given. -/
theorem longestMultiple_ofOperations : (ofOperations ops).longestMultiple =
    ((ops.filterMap Operation.multipleSymbol?).map (·.1.length)).max?.getD 0 := by
  have raised : (ofOperations ops).longestMultiple =
      (ops.filterMap Operation.multipleSymbol?).foldl (fun n entry => max n entry.1.length) 0 :=
    part_ofOperations ops longestMultiple Operation.multipleSymbol? _ fun m op => by cases op <;> rfl
  rw [raised, ← List.foldl_map (f := fun entry : String × Converter => entry.1.length),
    List.foldl_max, Nat.zero_max]

/-- No multiple was ever longer than the length that is kept. -/
theorem isBounded_ofOperations : (ofOperations ops).IsBounded := by
  intro entry member
  rw [multiples_ofOperations] at member
  have given := ((keys_insertAll _).2 entry.1).1 (List.mem_map_of_mem member)
  obtain ⟨first, given, same⟩ := List.mem_map.1 given
  rw [longestMultiple_ofOperations, ← same]
  exact List.le_max?_getD_of_mem (List.mem_map_of_mem given)

theorem multipleLabels_ofOperations :
    (ofOperations ops).multipleLabels = relabelAll (ops.filterMap Operation.multipleLabel?) :=
  part_ofOperations ops multipleLabels Operation.multipleLabel? _ fun m op => by cases op <;> rfl

/-- A symbol is looked up as the unit that it was given last. -/
theorem lookup_units (symbol : String) :
    (ofOperations ops).units.lookup symbol = lastUnit? ops symbol := by
  rw [units_ofOperations, lookup_insertAll, lastUnit?]

theorem lookup_multiples (symbol : String) :
    (ofOperations ops).multiples.lookup symbol = lastConverter? ops symbol := by
  rw [multiples_ofOperations, lookup_insertAll, lastConverter?]

variable {ops}

/-- A unit is written with its last label. -/
theorem symbol?_ofOperations (built : ∀ label ∈ ops.filterMap Operation.label?, label.1.IsBuilt)
    (u : MeasureUnit) : (ofOperations ops).symbol? u = lastLabel? ops u := by
  rw [symbol?, labels_ofOperations, isComparable_isBuilt.symbolOf?_relabelAll built, lastLabel?]

theorem multiple?_ofOperations (c : Converter) :
    (ofOperations ops).multiple? c = lastMultiple? ops c := by
  rw [multiple?, multipleLabels_ofOperations,
    isComparable_converter.symbolOf?_relabelAll fun _ _ => trivial, lastMultiple?]

/-- Each symbol counts once, however often it was given. -/
theorem size_ofOperations : (ofOperations ops).size =
    ((ops.filterMap Operation.unitSymbol?).map (·.1)).dedup.length := by
  obtain ⟨nodup, keys⟩ := keys_insertAll (ops.filterMap Operation.unitSymbol?)
  have same := (List.perm_ext_iff_of_nodup nodup (List.nodup_dedup _)).2 fun key =>
    (keys key).trans List.mem_dedup.symm
  rw [size, units_ofOperations, ← same.length_eq, List.length_map]

/-- The front of a symbol that is taken apart is neither empty nor all of it. -/
theorem IsCut.length_front {symbol front back : String} {converter : Converter} {unit : MeasureUnit}
    (cut : IsCut ops symbol front back converter unit) :
    1 ≤ front.length ∧ front.length < symbol.toList.length := by
  have front_length := mt String.length_eq_zero_iff.1 cut.front_ne
  have back_length := mt String.length_eq_zero_iff.1 cut.back_ne
  rw [String.length_toList, ← cut.parts, String.length_append]
  omega

/-- A cut that finds a unit is a way to take the symbol apart. -/
theorem unitCutAt?_eq_some_iff {symbol : String} {n : Nat} {u : MeasureUnit} (positive : 1 ≤ n)
    (within : n < symbol.toList.length) :
    (ofOperations ops).unitCutAt? symbol.toList n = some u ↔ ∃ front back converter unit,
      IsCut ops symbol front back converter unit ∧ front.length = n ∧ u = unit.transform converter := by
  simp only [unitCutAt?, Option.bind_eq_bind, Option.bind_eq_some_iff, lookup_multiples, lookup_units]
  constructor
  · rintro ⟨converter, front, unit, back, eq⟩
    have front_length : (String.ofList (symbol.toList.take n)).length = n := by
      rw [String.length_ofList, List.length_take, Nat.min_eq_left (by omega)]
    have back_length :
        (String.ofList (symbol.toList.drop n)).length = symbol.toList.length - n := by
      rw [String.length_ofList, List.length_drop]
    refine ⟨_, _, converter, unit, ⟨?_, ?_, ?_, front, back⟩, front_length,
      (Option.some.inj eq).symm⟩
    · rw [← String.ofList_append, List.take_append_drop, String.ofList_toList]
    · exact mt String.length_eq_zero_iff.2 (by omega)
    · exact mt String.length_eq_zero_iff.2 (by omega)
  · rintro ⟨front, back, converter, unit, cut, rfl, rfl⟩
    refine ⟨converter, ?_, unit, ?_, rfl⟩
    · rw [← cut.parts, String.toList_append, List.take_left' String.length_toList,
        String.ofList_toList, cut.multiple]
    · rw [← cut.parts, String.toList_append, List.drop_left' String.length_toList,
        String.ofList_toList, cut.rest]

/-- An identifier is read as what it stands for. -/
theorem unit?_ofOperations {symbol : String} {u : MeasureUnit} :
    (ofOperations ops).unit? symbol = some u ↔ StandsFor ops symbol u := by
  rw [unit?_eq_some_iff, lookup_units, (isBounded_ofOperations ops).unitWithMultiple?_eq_some_iff]
  constructor
  · rintro (given | ⟨unknown, n, positive, within, found, nothing⟩)
    · exact .whole given
    · obtain ⟨front, back, converter, unit, cut, rfl, rfl⟩ :=
        (unitCutAt?_eq_some_iff positive within).1 found
      refine .cut unknown cut fun front' back' converter' unit' cut' => ?_
      by_contra longer
      have proper := cut'.length_front
      have found' := (unitCutAt?_eq_some_iff proper.1 proper.2).2 ⟨_, _, _, _, cut', rfl, rfl⟩
      rw [nothing front'.length (by omega) proper.2] at found'
      cases found'
  · rintro (given | ⟨unknown, cut, longest⟩)
    · exact Or.inl given
    · have proper := cut.length_front
      refine Or.inr ⟨unknown, _, proper.1, proper.2,
        (unitCutAt?_eq_some_iff proper.1 proper.2).2 ⟨_, _, _, _, cut, rfl, rfl⟩, ?_⟩
      intro i above within
      rw [Option.eq_none_iff_forall_ne_some]
      intro v found
      obtain ⟨front', back', converter', unit', cut', rfl, -⟩ :=
        (unitCutAt?_eq_some_iff (by omega) within).1 found
      have limit := longest front' back' converter' unit' cut'
      omega

/-- A symbol map answers with what was given last: the symbol of a unit, the symbol of a converter, how
many symbols have been given to units, and the unit that a symbol stands for. -/
theorem ofOperations_answers (ops : List Operation)
    (built : ∀ label ∈ ops.filterMap Operation.label?, label.1.IsBuilt) :
    (∀ u, (ofOperations ops).symbol? u = lastLabel? ops u) ∧
    (∀ c, (ofOperations ops).multiple? c = lastMultiple? ops c) ∧
    (ofOperations ops).size = ((ops.filterMap Operation.unitSymbol?).map (·.1)).dedup.length ∧
    ∀ symbol u, (ofOperations ops).unit? symbol = some u ↔ StandsFor ops symbol u :=
  ⟨symbol?_ofOperations built, multiple?_ofOperations, size_ofOperations,
    fun _ _ => unit?_ofOperations⟩

/-- A second label for the metre, and `dam` as ten metres and not as a tenth of an `am`. -/
theorem ofOperations_answers_dekametre :
    let metre := MeasureUnit.base "m"
    let ten := Converter.ratio ⟨10, 1, by decide, by decide, by decide⟩
    let tenth := Converter.ratio ⟨1, 10, by decide, by decide, by decide⟩
    let ops : List Operation := [.addLabel metre "metre", .addLabel metre "m",
      .addLabel (.base "am") "am", .addMultiple ten "da", .addMultiple tenth "d"]
    (∀ label ∈ ops.filterMap Operation.label?, label.1.IsBuilt) ∧
    (ofOperations ops).symbol? metre = some "m" ∧ (ofOperations ops).multiple? tenth = some "d" ∧
    (ofOperations ops).size = 3 ∧ (ofOperations ops).unit? "dam" = some (metre.transform ten) := by
  intro metre ten tenth ops
  have built : ∀ label ∈ ops.filterMap Operation.label?, label.1.IsBuilt := by
    have labels : ops.filterMap Operation.label? =
      [(metre, "metre"), (metre, "m"), (.base "am", "am")] := rfl
    rw [labels]
    simp [metre, MeasureUnit.IsBuilt.base]
  obtain ⟨symbols, multiples, size, units⟩ := ofOperations_answers ops built
  refine ⟨built, (symbols metre).trans rfl, (multiples tenth).trans rfl, size.trans rfl, ?_⟩
  have cut : IsCut ops "dam" "da" "m" ten metre := ⟨rfl, by decide, by decide, rfl, rfl⟩
  refine (units _ _).2 (.cut rfl cut fun front back converter unit cut' => ?_)
  have proper : front.length < 3 := cut'.length_front.2
  exact Nat.le_of_lt_succ proper

/-- A label is also a symbol that was given to its unit. -/
theorem exists_lastUnit?_of_lastLabel? {u : MeasureUnit} {symbol : String}
    (label : lastLabel? ops u = some symbol) : ∃ v, lastUnit? ops symbol = some v := by
  obtain ⟨w, member, -⟩ := mem_of_last?_eq_some label
  obtain ⟨op, given, eq⟩ := List.mem_filterMap.1 member
  have unitSymbol : op.unitSymbol? = some (symbol, w) := by
    cases op <;> cases eq
    rfl
  exact exists_last?_of_mem (List.mem_filterMap.2 ⟨op, given, unitSymbol⟩) (beq_self_eq_true symbol)

/-- A label is always read, and as its unit exactly if no other unit was given the symbol last. -/
theorem exists_unit?_of_symbol? {u : MeasureUnit} {symbol : String}
    (built : ∀ label ∈ ops.filterMap Operation.label?, label.1.IsBuilt)
    (written : (ofOperations ops).symbol? u = some symbol) :
    ∃ v, (ofOperations ops).unit? symbol = some v ∧
      ((v == u) = true ↔ ∀ w, lastUnit? ops symbol = some w → (w == u) = true) := by
  rw [symbol?_ofOperations built] at written
  obtain ⟨v, given⟩ := exists_lastUnit?_of_lastLabel? written
  refine ⟨v, unit?_ofOperations.2 (.whole given), fun same w given' => ?_, fun kept => kept v given⟩
  cases given.symm.trans given'
  exact same

/-- An alias takes the label of the metre away, and another one gives it back. -/
theorem exists_unit?_of_symbol?_metre :
    let metre := MeasureUnit.base "m"
    let minute := (MeasureUnit.base "s").transform (.ratio ⟨60, 1, by decide, by decide, by decide⟩)
    let ops : List Operation := [.addLabel metre "m", .addAlias minute "m", .addAlias metre "m"]
    (∀ label ∈ ops.filterMap Operation.label?, label.1.IsBuilt) ∧
    (ofOperations ops).symbol? metre = some "m" ∧
    ∃ v, (ofOperations ops).unit? "m" = some v ∧ (v == metre) = true := by
  intro metre minute ops
  have built : ∀ label ∈ ops.filterMap Operation.label?, label.1.IsBuilt := by
    have labels : ops.filterMap Operation.label? = [(metre, "m")] := rfl
    rw [labels]
    simp [metre, MeasureUnit.IsBuilt.base]
  have written : (ofOperations ops).symbol? metre = some "m" := rfl
  obtain ⟨v, read, same⟩ := exists_unit?_of_symbol? built written
  refine ⟨built, written, v, read, same.2 fun w given => ?_⟩
  cases (show lastUnit? ops "m" = some metre from rfl).symm.trans given
  rfl

/-- The label of the metre, given to the second as well, is still written for the metre. -/
theorem exists_symbol?_read_as_other :
    ∃ (ops : List Operation) (u v : MeasureUnit) (symbol : String),
      (∀ label ∈ ops.filterMap Operation.label?, label.1.IsBuilt) ∧
      (ofOperations ops).symbol? u = some symbol ∧ (ofOperations ops).unit? symbol = some v ∧
      (v == u) = false := by
  let ops : List Operation := [.addLabel (.base "m") "x", .addLabel (.base "s") "x"]
  have labels : ops.filterMap Operation.label? = [(.base "m", "x"), (.base "s", "x")] := rfl
  refine ⟨ops, .base "m", .base "s", "x", ?_, rfl, rfl, rfl⟩
  rw [labels]
  simp [MeasureUnit.IsBuilt.base]

end Operations

end Metrology.SymbolMap
