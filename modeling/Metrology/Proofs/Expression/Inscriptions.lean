import Metrology.Proofs.Expression.Characters
import Metrology.Proofs.Expression.Factors

/-!
# Pieces in print

The texts that are printed for one thing in all styles are one text in glyphs. So are the texts of
products of such things, of powers, and of what the single steps of converters make of them. What is
looked at in a text that is there already is its strength and whether it is empty, which is the same
in all styles, and behind an exponent there is always something that ends it.
-/
namespace Metrology.Expression

open Glyph
open Lexeme (endsNumber)

/-! ### Texts in glyphs -/

/-- Whether texts, one in each style, are one text in glyphs. -/
structure Inscribes (t : Style → String) (m : List Glyph) : Prop where
  legible : IsLegible m
  text : ∀ s, (t s).toList = spell s m

/-- Whether anything may stand behind glyphs. -/
def IsFirm (m : List Glyph) : Prop := ∀ digits, m.getLast? ≠ some (.exponent digits)

/-- Whether glyphs may stand behind anything. -/
def IsClosing (m : List Glyph) : Prop := ∀ y ∈ m.head?, ∀ x : Glyph, x.CanPrecede y

variable {t t' : Style → String} {m m' : List Glyph}

theorem isFirm_plain (l : List Char) : IsFirm (l.map plain) := by
  intro digits eq
  have mem := List.mem_of_getLast? eq
  obtain ⟨c, -, eq⟩ := List.mem_map.1 mem
  cases eq

/-- What stands last decides what may stand behind. -/
theorem isFirm_append (h : IsFirm m') (some : m' ≠ []) : IsFirm (m ++ m') := by
  intro digits
  rw [List.getLast?_append_of_ne_nil m some]
  exact h digits

theorem isClosing_plain {text : String} (ends : text.toList.head?.any endsNumber = true) :
    IsClosing (text.toList.map plain) := by
  intro y hy x
  obtain ⟨c, hc, rfl⟩ : ∃ c, text.toList.head? = some c ∧ plain c = y := by
    simpa using hy
  rw [hc] at ends
  cases x with
  | exponent digits => exact ends
  | _ => trivial

theorem isClosing_times (m : List Glyph) : IsClosing (times :: m) := by
  intro y hy x
  cases hy
  cases x <;> trivial

theorem isClosing_note (text : List Char) (m : List Glyph) : IsClosing (note text :: m) := by
  intro y hy x
  cases hy
  cases x <;> trivial

/-- Glyphs side by side are legible if they are so apart and nothing runs over the join. -/
theorem isLegible_append (h : IsLegible m) (h' : IsLegible m') (join : IsFirm m ∨ IsClosing m') :
    IsLegible (m ++ m') := by
  refine ⟨fun x hx => (List.mem_append.1 hx).elim (h.written x) (h'.written x),
    h.apart.append h'.apart fun x hx y hy => ?_⟩
  rcases join with firm | closing
  · have last := Option.mem_def.1 hx
    cases x with
    | exponent digits => exact absurd last (firm digits)
    | _ => trivial
  · exact closing y hy x

theorem isLegible_plain {l : List Char} (h : ∀ c ∈ l, isOrdinary c = true) : IsLegible (l.map plain) := by
  refine ⟨fun x hx => ?_, ?_⟩
  · obtain ⟨c, hc, rfl⟩ := List.mem_map.1 hx
    exact h c hc
  · refine List.Pairwise.isChain (List.pairwise_map.2 ?_)
    exact List.pairwise_of_forall fun _ _ => trivial

namespace Inscribes

theorem congr (h : Inscribes t m) (eq : ∀ s, t' s = t s) : Inscribes t' m :=
  ⟨h.legible, fun s => (congrArg String.toList (eq s)).trans (h.text s)⟩

theorem append (h : Inscribes t m) (h' : Inscribes t' m') (join : IsFirm m ∨ IsClosing m') :
    Inscribes (fun s => t s ++ t' s) (m ++ m') := by
  refine ⟨isLegible_append h.legible h'.legible join, fun s => ?_⟩
  rw [String.toList_append, spell_append, h.text, h'.text]

theorem plain (text : String) (h : IsOrdinary text) :
    Inscribes (fun _ => text) (text.toList.map Glyph.plain) :=
  ⟨isLegible_plain h, fun s => (spell_plain s _).symm⟩

theorem empty : Inscribes (fun _ => "") [] := ⟨isLegible_nil, fun _ => rfl⟩

/-- Something fixed that ends an exponent. -/
theorem append_plain (h : Inscribes t m) (text : String) (ordinary : IsOrdinary text)
    (ends : text.toList.head?.any endsNumber = true) :
    ∃ m', Inscribes (fun s => t s ++ text) m' ∧ IsFirm m' := by
  refine ⟨_, h.append (.plain text ordinary) (Or.inr (isClosing_plain ends)),
    isFirm_append (isFirm_plain _) fun none => ?_⟩
  rw [List.map_eq_nil_iff.1 none] at ends
  cases ends

/-- A text with a note behind it. -/
theorem noted (h : Inscribes t m) {text : String} (closed : '\x7d' ∉ text.toList) :
    Inscribes (fun s => t s ++ "\x7b" ++ text ++ "\x7d") (m ++ [.note text.toList]) := by
  refine ⟨isLegible_append h.legible ⟨List.forall_mem_singleton.2 closed, List.isChain_singleton _⟩
    (Or.inr (isClosing_note _ _)), fun s => ?_⟩
  rw [spell_concat, ← h.text s]
  simp [Glyph.text]

theorem separator : Inscribes (fun s => s.separator.text) [times] := by
  refine ⟨⟨?_, List.isChain_singleton _⟩, fun s => s.separator.toList_text⟩
  exact List.forall_mem_singleton.2 trivial

/-- Texts with a factor sign between them. -/
theorem times (h : Inscribes t m) (h' : Inscribes t' m') :
    Inscribes (fun s => t s ++ s.separator.text ++ t' s) (m ++ [.times] ++ m') := by
  have sign := h.append separator (Or.inr (isClosing_times []))
  refine sign.append h' (Or.inl (isFirm_append ?_ (List.cons_ne_nil _ _)))
  intro digits eq
  cases eq

theorem isEmpty (h : Inscribes t m) (s : Style) : (t s).isEmpty = m.isEmpty := by
  have chars : (t s).isEmpty = (t s).toList.isEmpty := by
    rw [Bool.eq_iff_iff, String.isEmpty_iff, List.isEmpty_iff, String.toList_eq_nil_iff]
  rw [chars, h.text]
  cases m with
  | nil => rfl
  | cons x m =>
    have some : x.text s ≠ [] := by
      have written := h.legible.written x (by simp)
      by_cases single : ∃ c, x = .plain c
      · obtain ⟨c, rfl⟩ := single
        exact List.cons_ne_nil _ _
      · obtain ⟨c, tail, eq, -⟩ := exists_head written (fun c eq => single ⟨c, eq⟩) s
        rw [eq]
        exact List.cons_ne_nil _ _
    simp [spell_cons, some]

end Inscribes

/-- A text in parentheses. -/
theorem exists_enclosed (h : Inscribes t m) :
    ∃ m', Inscribes (fun s => Rendered.enclosed (t s)) m' ∧ IsFirm m' := by
  have opened := (Inscribes.plain "(" (isOrdinary_of_all (by decide))).append h
    (Or.inl (isFirm_plain _))
  exact opened.append_plain ")" (isOrdinary_of_all (by decide)) (by decide)

/-! ### Printed pieces -/

/-- Whether what is printed, in one style each, is one text in glyphs of one strength. Behind an
operand anything may stand. -/
structure Prints (r : Style → Rendered) (m : List Glyph) (p : Precedence) : Prop where
  text : Inscribes (fun s => (r s).text) m
  precedence : ∀ s, (r s).precedence = p
  firm : p = .atom → IsFirm m

/-- Whether what is printed in all styles differs in spelling alone. -/
def IsUniform (r : Style → Rendered) : Prop := ∃ m p, Prints r m p

variable {r r' : Style → Rendered} {p : Precedence}

theorem IsUniform.congr (h : IsUniform r) (eq : ∀ s, r' s = r s) : IsUniform r' := by
  rwa [show r' = r from funext eq]

/-- A text that anything may stand behind differs in spelling alone, whatever its strength. -/
theorem isUniform_of_firm (h : Inscribes t m) (firm : IsFirm m) (p : Precedence) :
    IsUniform fun s => ⟨t s, p⟩ :=
  ⟨m, p, h, fun _ => rfl, fun _ => firm⟩

/-- A text that is put in parentheses where it matters may end in an exponent. -/
theorem isUniform_of_weak (h : Inscribes t m) (weak : p ≠ .atom) : IsUniform fun s => ⟨t s, p⟩ :=
  ⟨m, p, h, fun _ => rfl, fun atom => absurd atom weak⟩

theorem isUniform_atom {text : String} (h : IsOrdinary text) : IsUniform fun _ => .atom text :=
  isUniform_of_firm (.plain text h) (isFirm_plain _) .atom

/-- With parentheses or without, it stays one text in glyphs. -/
theorem Prints.textFor (h : Prints r m p) (needed : Precedence) :
    ∃ m', Inscribes (fun s => (r s).textFor needed) m' ∧ (needed = .atom → IsFirm m') := by
  by_cases weak : p.strength < needed.strength
  · obtain ⟨m', enclosed, firm⟩ := exists_enclosed h.text
    refine ⟨m', enclosed.congr fun s => ?_, fun _ => firm⟩
    rw [Rendered.textFor, h.precedence s, if_pos weak]
  · refine ⟨m, h.text.congr fun s => ?_, ?_⟩
    · rw [Rendered.textFor, h.precedence s, if_neg weak]
    · rintro rfl
      refine h.firm ?_
      cases p <;> first | rfl | exact absurd (by decide) weak

theorem Prints.textOrOne (h : Prints r m p) : ∃ m', Inscribes (fun s => (r s).textOrOne) m' := by
  cases empty : m.isEmpty with
  | true =>
    refine ⟨_, (Inscribes.plain "1" (isOrdinary_of_all (by decide))).congr fun s => ?_⟩
    rw [Rendered.textOrOne, h.text.isEmpty s, if_pos empty]
  | false =>
    refine ⟨m, h.text.congr fun s => ?_⟩
    rw [Rendered.textOrOne, h.text.isEmpty s, if_neg (by rw [empty]; exact Bool.false_ne_true)]

/-! ### Products -/

variable {table : SymbolTable}

/-- An exponent is one glyph, in each style in its own spelling. -/
theorem inscribes_exponentText (table : SymbolTable) (n : Nat) :
    Inscribes (fun s => Printer.exponentText ⟨table, s⟩ n) [exponent (Nat.toDigits 10 n)] := by
  have digits : IsDigits (Nat.toDigits 10 n) :=
    ⟨Nat.toDigits_ne_nil, fun c hc => Nat.isDigit_of_mem_toDigits (by decide) (by decide) hc⟩
  refine ⟨⟨List.forall_mem_singleton.2 digits, List.isChain_singleton _⟩, fun s => ?_⟩
  obtain ⟨separator, exponents⟩ := s
  cases exponents <;> simp [Printer.exponentText, spell, Glyph.text]

theorem Prints.factorText (h : Prints r m p) (table : SymbolTable) (n : Nat) :
    ∃ m', Inscribes (fun s => Printer.factorText ⟨table, s⟩ (r s) n) m' := by
  by_cases one : n = 1
  · obtain ⟨m', operand, -⟩ := h.textFor .exponent
    exact ⟨m', operand.congr fun s => by rw [Printer.factorText, if_pos one]⟩
  · obtain ⟨m', operand, firm⟩ := h.textFor .atom
    refine ⟨_, (operand.append (inscribes_exponentText table n) (Or.inl (firm rfl))).congr fun s => ?_⟩
    rw [Printer.factorText, if_neg one]

/-- Factors with their sign between them are one text in glyphs if each of them is. -/
theorem exists_separated_glyphs {ι : Type} (table : SymbolTable) (text : Style → ι → String) (l : List ι)
    (each : ∀ i ∈ l, ∃ m, Inscribes (fun s => text s i) m) :
    ∃ m, Inscribes (fun s => Printer.separated ⟨table, s⟩ (l.map (text s))) m := by
  induction l using List.reverseRecOn with
  | nil => exact ⟨[], .empty⟩
  | append_singleton l i ih =>
    obtain ⟨m, last⟩ := each i (by simp)
    cases eq : l with
    | nil => exact ⟨m, last.congr fun s => by simp [Printer.separated]⟩
    | cons j l' =>
      rw [← eq]
      obtain ⟨m', front⟩ := ih fun j hj => each j (by simp [hj])
      refine ⟨_, (front.times last).congr fun s => ?_⟩
      rw [Printer.separated, List.map_append, String.intercalate_append_of_ne_nil (by simp [eq])
        (by simp), List.map_singleton, String.intercalate_singleton]
      rfl

/-- A product differs in spelling alone if the units of its factors do. -/
theorem isUniform_productText (table : SymbolTable) (rendered : Style → MeasureUnit → Rendered)
    (fs : List (Factor MeasureUnit)) (units : ∀ f ∈ fs, IsUniform fun s => rendered s f.unit) :
    IsUniform fun s => ⟨Printer.productText ⟨table, s⟩
      (fs.map fun f => ⟨rendered s f.unit, f.power⟩), .product⟩ := by
  suffices one : ∃ m, Inscribes (fun s => Printer.productText ⟨table, s⟩
      (fs.map fun f => ⟨rendered s f.unit, f.power⟩)) m by
    obtain ⟨m, one⟩ := one
    exact isUniform_of_weak one nofun
  let text (s : Style) (f : Factor MeasureUnit) : String :=
    Printer.factorText ⟨table, s⟩ (rendered s f.unit) f.power.val.natAbs
  have factor : ∀ f ∈ fs, ∃ m, Inscribes (fun s => text s f) m := by
    intro f hf
    obtain ⟨m, p, prints⟩ := units f hf
    exact prints.factorText table _
  have several (q : Factor MeasureUnit → Bool) :
      ∃ m, Inscribes (fun s => Printer.separated ⟨table, s⟩ ((fs.filter q).map (text s))) m :=
    exists_separated_glyphs table text _ fun f hf => factor f (List.mem_of_mem_filter hf)
  obtain ⟨m, positive⟩ := several fun f => 0 < f.power.val
  obtain ⟨m', negative⟩ := several fun f => !(0 < f.power.val)
  have eq (s : Style) := productText_map ⟨table, s⟩ (rendered s) fs
  by_cases none : (fs.filter fun f => !(0 < f.power.val)) = []
  · refine ⟨m, positive.congr fun s => ?_⟩
    rw [eq, if_pos none]
  · obtain ⟨numerator, front⟩ : ∃ m, Inscribes (fun s =>
        if (fs.filter fun f => 0 < f.power.val).isEmpty then "1"
        else Printer.separated ⟨table, s⟩ ((fs.filter fun f => 0 < f.power.val).map (text s))) m := by
      split
      · exact ⟨_, .plain "1" (isOrdinary_of_all (by decide))⟩
      · exact ⟨m, positive⟩
    obtain ⟨denominator, back⟩ : ∃ m, Inscribes (fun s =>
        if (fs.filter fun f => !(0 < f.power.val)).length > 1 then
          Rendered.enclosed (Printer.separated ⟨table, s⟩
            ((fs.filter fun f => !(0 < f.power.val)).map (text s)))
        else Printer.separated ⟨table, s⟩ ((fs.filter fun f => !(0 < f.power.val)).map (text s))) m := by
      split
      · obtain ⟨m, enclosed, -⟩ := exists_enclosed negative
        exact ⟨m, enclosed⟩
      · exact ⟨m', negative⟩
    obtain ⟨_, solidus, firm⟩ :=
      front.append_plain "/" (isOrdinary_of_all (by decide)) (by decide)
    refine ⟨_, (solidus.append back (Or.inl firm)).congr fun s => ?_⟩
    rw [eq, if_neg none]

/-! ### Converters -/

theorem Prints.unspoken (h : Prints r m p) (c : Converter) :
    IsUniform fun s => Printer.unspoken c (r s) := by
  have name : IsOrdinary ("[" ++ c.text ++ "]") :=
    ((isOrdinary_of_all (by decide)).append (isOrdinary_converter c)).append
      (isOrdinary_of_all (by decide))
  obtain ⟨m', text, firm⟩ := h.text.append_plain _ name (by simp [String.toList_append]; decide)
  refine isUniform_of_firm (text.congr fun s => ?_) firm .atom
  rw [String.append_assoc, String.append_assoc, String.append_assoc]

theorem Prints.addOffset (h : Prints r m p) (offset : Rat) (parent : MeasureUnit) :
    IsUniform fun s => Printer.addOffset offset parent (r s) := by
  obtain ⟨_, operand⟩ : ∃ m', Inscribes (fun s => if Printer.isNumeric parent then
      Rendered.enclosed (r s).textOrOne else (r s).text) m' := by
    split
    · obtain ⟨_, text⟩ := h.textOrOne
      obtain ⟨m', enclosed, -⟩ := exists_enclosed text
      exact ⟨m', enclosed⟩
    · exact ⟨m, h.text⟩
  obtain ⟨_, signed, firm⟩ := operand.append_plain (if offset.num < 0 then "-" else "+")
    (by split <;> exact isOrdinary_of_all (by decide)) (by split <;> decide)
  exact isUniform_of_weak (signed.append (.plain _ (isOrdinary_offsetText offset.abs)) (Or.inl firm)) nofun

theorem Prints.addFactor (h : Prints r m p) (table : SymbolTable) (factor : Float) :
    IsUniform fun s => Printer.addFactor ⟨table, s⟩ factor (r s) := by
  obtain ⟨m', operand, -⟩ := h.textFor .product
  have number := Inscribes.plain _ (isOrdinary_double factor)
  cases m' with
  | nil =>
    refine isUniform_of_weak ((operand.append number (Or.inl (isFirm_plain []))).congr fun s => ?_) nofun
    rw [operand.isEmpty s, List.isEmpty_nil, if_pos rfl, String.append_empty]
  | cons x m' =>
    refine isUniform_of_weak ((operand.times number).congr fun s => ?_) nofun
    rw [operand.isEmpty s, List.isEmpty_cons, if_neg Bool.false_ne_true]

theorem Prints.addRatio (h : Prints r m p) (table : SymbolTable) (ratio : Ratio) :
    IsUniform fun s => Printer.addRatio ⟨table, s⟩ ratio (r s) := by
  obtain ⟨m', operand, -⟩ := h.textFor .product
  have number := Inscribes.plain _ (isOrdinary_int ratio.dividend)
  -- What is multiplied by the dividend.
  obtain ⟨_, multiple⟩ : ∃ m, Inscribes (fun s => (r s).textFor .product ++
      if ((r s).textFor .product).isEmpty then toString ratio.dividend
      else if ratio.dividend = 1 then "" else s.separator.text ++ toString ratio.dividend) m := by
    cases m' with
    | nil =>
      refine ⟨_, (operand.append number (Or.inl (isFirm_plain []))).congr fun s => ?_⟩
      rw [operand.isEmpty s, List.isEmpty_nil, if_pos rfl]
    | cons x m' =>
      by_cases one : ratio.dividend = 1
      · refine ⟨_, operand.congr fun s => ?_⟩
        rw [operand.isEmpty s, List.isEmpty_cons, if_neg Bool.false_ne_true, if_pos one,
          String.append_empty]
      · refine ⟨_, (operand.times number).congr fun s => ?_⟩
        rw [operand.isEmpty s, List.isEmpty_cons, if_neg Bool.false_ne_true, if_neg one,
          String.append_assoc]
  by_cases one : ratio.divisor = 1
  · refine isUniform_of_weak (multiple.congr fun s => ?_) nofun
    rw [if_pos one, String.append_empty]
  · obtain ⟨_, quotient, -⟩ := multiple.append_plain ("/" ++ toString ratio.divisor)
      ((isOrdinary_of_all (by decide)).append (isOrdinary_nat _)) (by simp [String.toList_append]; decide)
    refine isUniform_of_weak (quotient.congr fun s => ?_) nofun
    rw [if_neg one]

theorem Prints.addLogarithm (h : Prints r m p) (base : Float) :
    IsUniform fun s => Printer.addLogarithm base (r s) := by
  unfold Printer.addLogarithm
  cases named : Printer.logarithmName? base with
  | none => exact h.unspoken _
  | some name =>
    obtain ⟨_, text⟩ := h.textOrOne
    obtain ⟨_, enclosed, -⟩ := exists_enclosed text
    exact isUniform_of_weak ((Inscribes.plain name (isOrdinary_logarithmName named)).append enclosed
      (Or.inl (isFirm_plain _))) nofun

theorem Prints.addExponential (h : Prints r m p) (base : Float) (parent : MeasureUnit) :
    IsUniform fun s => Printer.addExponential base parent (r s) := by
  unfold Printer.addExponential
  cases named : Printer.exponentialName? base with
  | none => exact h.unspoken _
  | some name =>
    obtain ⟨_, operand⟩ : ∃ m', Inscribes (fun s => if Printer.isNumeric parent then
        Rendered.enclosed (Rendered.enclosed (r s).textOrOne) else (r s).textFor .atom) m' := by
      split
      · obtain ⟨_, text⟩ := h.textOrOne
        obtain ⟨_, once, -⟩ := exists_enclosed text
        obtain ⟨m', twice, -⟩ := exists_enclosed once
        exact ⟨m', twice⟩
      · obtain ⟨m', text, -⟩ := h.textFor .atom
        exact ⟨m', text⟩
    have base : IsOrdinary (name ++ "^") :=
      (isOrdinary_exponentialName named).append (isOrdinary_of_all (by decide))
    exact isUniform_of_weak ((Inscribes.plain _ base).append operand (Or.inl (isFirm_plain _))) nofun

end Metrology.Expression
