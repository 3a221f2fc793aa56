import Metrology.Expression.Style
import Metrology.Proofs.Expression.Lockstep
import Metrology.Proofs.Token.Spelling

/-!
# Texts whose spelling is open

A text in glyphs leaves open how its factor signs and its exponents are spelled, which is decided by
a style. Where no exponent runs into what follows it, the tokens of such a text mean the same in all
styles: what is scanned is a run of characters that no sign and no exponent starts with, or it is a
sign or an exponent as a whole.
-/
namespace Metrology.Expression

open Lexeme (isSuperscript continuesIdentifier startsIdentifier endsNumber EndsNumber)

def Separator.char : Separator → Char
  | middleDot => '·'
  | asterisk => '*'

theorem Separator.toList_text (s : Separator) : s.text.toList = [s.char] := by
  cases s <;> simp [Separator.text, Separator.char]

inductive Glyph where
  | plain (c : Char)
  /-- A text in braces. -/
  | note (text : List Char)
  /-- The sign between factors. -/
  | times
  | exponent (digits : List Char)
  deriving DecidableEq, Repr

namespace Glyph

def text (s : Style) : Glyph → List Char
  | plain c => [c]
  | note text => '\x7b' :: (text ++ ['\x7d'])
  | times => [s.separator.char]
  | exponent digits =>
    match s.exponents with
    | .caret => '^' :: digits
    | .superscript => digits.map Text.toSuperscript

def spell (s : Style) (m : List Glyph) : List Char := m.flatMap (text s)

/-- Whether a character has nothing to do with notes and exponents. -/
def isOrdinary (c : Char) : Bool := c != '\x7b' && c != '\x7d' && !isSuperscript c

/-- Whether a glyph is what it seems to be. -/
def IsWritten : Glyph → Prop
  | plain c => isOrdinary c = true
  | note text => '\x7d' ∉ text
  | times => True
  | exponent digits => IsDigits digits

/-- Whether an exponent ends where the next glyph starts, in all styles. -/
def CanPrecede : Glyph → Glyph → Prop
  | exponent _, plain c => endsNumber c = true
  | exponent _, exponent _ => False
  | _, _ => True

/-- Whether the glyphs of a text stay apart in all styles. -/
structure IsLegible (m : List Glyph) : Prop where
  written : ∀ x ∈ m, x.IsWritten
  apart : m.IsChain CanPrecede

variable {m rest : List Glyph} {x : Glyph} {c : Char} {p : Char → Bool}

theorem spell_cons (s : Style) (x : Glyph) (m : List Glyph) : spell s (x :: m) = x.text s ++ spell s m :=
  List.flatMap_cons

theorem spell_append (s : Style) (m m' : List Glyph) : spell s (m ++ m') = spell s m ++ spell s m' :=
  List.flatMap_append

theorem spell_concat (s : Style) (m : List Glyph) (x : Glyph) :
    spell s (m ++ [x]) = spell s m ++ x.text s := by
  rw [spell_append]
  exact congrArg (spell s m ++ ·) (List.append_nil _)

theorem spell_plain (s : Style) (l : List Char) : spell s (l.map plain) = l := by
  rw [spell, List.flatMap_map]
  exact List.flatMap_singleton' l

theorem isLegible_nil : IsLegible [] := ⟨nofun, .nil⟩

theorem IsLegible.suffix (h : IsLegible m) (suffix : rest <:+ m) : IsLegible rest := by
  obtain ⟨front, rfl⟩ := suffix
  exact ⟨fun x hx => h.written x (List.mem_append_right front hx), List.IsChain.right_of_append h.apart⟩

theorem IsLegible.tail (h : IsLegible (x :: m)) : IsLegible m := h.suffix (List.suffix_cons x m)

/-! ### How glyphs start -/

/-- The characters that factor signs, exponents and notes start with. -/
def heads : List Char :=
  ['*', '·', '^', '\x7b', '⁰', '¹', '²', '³', '⁴', '⁵', '⁶', '⁷', '⁸', '⁹']

theorem exists_head (written : x.IsWritten) (other : ∀ c, x ≠ plain c) (s : Style) :
    ∃ c tail, x.text s = c :: tail ∧ c ∈ heads := by
  cases x with
  | plain c => exact absurd rfl (other c)
  | note text => exact ⟨'\x7b', _, rfl, by decide⟩
  | times =>
    obtain ⟨separator, exponents⟩ := s
    cases separator with
    | middleDot => exact ⟨'·', _, rfl, by decide⟩
    | asterisk => exact ⟨'*', _, rfl, by decide⟩
  | exponent digits =>
    obtain ⟨d, tail, rfl⟩ := List.exists_cons_of_ne_nil written.1
    obtain ⟨separator, exponents⟩ := s
    cases exponents with
    | caret => exact ⟨'^', _, rfl, by decide⟩
    | superscript =>
      exact ⟨_, _, rfl, forall_isDigit (P := fun c => Text.toSuperscript c ∈ heads) (by decide)
        (written.2 d (by simp))⟩

theorem eq_false_of_mem_heads (stops : heads.any p = false) (head : c ∈ heads) : p c = false :=
  Bool.eq_false_iff.2 (List.any_eq_false.1 stops c head)

/-- Whether a glyph is a character of a kind. -/
def isPlain (p : Char → Bool) : Glyph → Bool
  | plain c => p c
  | _ => false

/-- The first character, if it is of a kind that signs, exponents and notes do not start with. -/
theorem any_head_spell (p : Char → Bool) (stops : heads.any p = false)
    (written : ∀ x ∈ m, x.IsWritten) (s : Style) :
    (spell s m).head?.any p = m.head?.any (isPlain p) := by
  cases m with
  | nil => rfl
  | cons x m =>
    by_cases single : ∃ c, x = plain c
    · obtain ⟨c, rfl⟩ := single
      rfl
    · obtain ⟨c, tail, eq, head⟩ :=
        exists_head (written x (by simp)) (fun c eq => single ⟨c, eq⟩) s
      have other : x.isPlain p = false := by
        cases x with
        | plain c => exact absurd ⟨c, rfl⟩ single
        | _ => rfl
      rw [spell_cons, eq, List.cons_append, List.head?_cons, List.head?_cons, Option.any_some,
        Option.any_some, eq_false_of_mem_heads stops head, other]

/-- Whether all characters are of such a kind. -/
theorem all_spell (p : Char → Bool) (stops : heads.any p = false)
    (written : ∀ x ∈ m, x.IsWritten) (s : Style) : (spell s m).all p = m.all (isPlain p) := by
  induction m with
  | nil => rfl
  | cons x m ih =>
    rw [spell_cons, List.all_append, List.all_cons, ih fun y hy => written y (by simp [hy])]
    congr 1
    by_cases single : ∃ c, x = plain c
    · obtain ⟨c, rfl⟩ := single
      simp [text, isPlain]
    · obtain ⟨c, tail, eq, head⟩ :=
        exists_head (written x (by simp)) (fun c eq => single ⟨c, eq⟩) s
      rw [eq, List.all_cons, eq_false_of_mem_heads stops head, Bool.false_and]
      cases x with
      | plain c => exact absurd ⟨c, rfl⟩ single
      | _ => rfl

/-- A text starts with a character of a kind as such, or in no style. -/
theorem head_cases (p : Char → Bool) (stops : heads.any p = false)
    (written : ∀ x ∈ m, x.IsWritten) :
    (∃ c rest, m = plain c :: rest ∧ p c = true) ∨ ∀ s, (spell s m).head?.any p = false := by
  have head := any_head_spell p stops written
  match m with
  | [] => exact Or.inr fun s => rfl
  | plain c :: rest =>
    cases kind : p c with
    | true => exact Or.inl ⟨c, rest, rfl, kind⟩
    | false => exact Or.inr fun s => (head s).trans kind
  | note _ :: _ | times :: _ | exponent _ :: _ => exact Or.inr head

/-! ### Runs of characters -/

theorem exists_run (p : Char → Bool) (m : List Glyph) :
    ∃ (run : List Char) (rest : List Glyph), m = run.map plain ++ rest ∧ (∀ c ∈ run, p c = true) ∧
      rest.head?.any (isPlain p) = false := by
  induction m with
  | nil => exact ⟨[], [], rfl, nofun, rfl⟩
  | cons x m ih =>
    cases kind : x.isPlain p with
    | false => exact ⟨[], x :: m, rfl, nofun, kind⟩
    | true =>
      cases x with
      | plain c =>
        obtain ⟨run, rest, rfl, all, stop⟩ := ih
        refine ⟨c :: run, rest, rfl, ?_, stop⟩
        exact List.forall_mem_cons.2 ⟨kind, all⟩
      | _ => cases kind

theorem exists_plain (all : m.all (isPlain p) = true) : ∃ l : List Char, m = l.map plain := by
  obtain ⟨run, rest, rfl, -, stop⟩ := exists_run p m
  cases rest with
  | nil => exact ⟨run, List.append_nil _⟩
  | cons x rest =>
    rw [List.all_append, List.all_cons] at all
    rw [List.head?_cons, Option.any_some] at stop
    rw [stop, Bool.false_and, Bool.and_false] at all
    cases all

/-- Whether what is taken off a text, and what is left of it, is the same in all styles. -/
def Ignores {α : Type} (f : List Char → α × List Char) (m : List Glyph) : Prop :=
  ∃ a rest, rest <:+ m ∧ ∀ s, f (spell s m) = (a, spell s rest)

theorem ignores_run (p : Char → Bool) (stops : heads.any p = false) (h : IsLegible m) :
    Ignores (fun text => (text.takeWhile p, text.dropWhile p)) m := by
  obtain ⟨run, rest, rfl, all, stop⟩ := exists_run p m
  have suffix : rest <:+ run.map plain ++ rest := List.suffix_append _ _
  refine ⟨run, rest, suffix, fun s => ?_⟩
  have stop : ∀ c ∈ (spell s rest).head?, p c = false := by
    intro c hc
    rw [← any_head_spell p stops (h.suffix suffix).written s, Option.mem_def.1 hc] at stop
    exact stop
  dsimp only
  rw [spell_append, spell_plain, takeWhile_append all stop, dropWhile_append all stop]

/-! ### Numbers -/

theorem startsWithDigit_spell (h : IsLegible m) (s : Style) :
    startsWithDigit (spell s m) = m.head?.any (isPlain Char.isDigit) :=
  any_head_spell Char.isDigit (by decide) h.written s

theorem ignores_sign (h : IsLegible m) : Ignores Sign.scan m := by
  rcases head_cases (fun c => (Sign.ofChar? c).isSome) (by decide) h.written with
    ⟨c, rest, rfl, sign⟩ | other
  · obtain ⟨sign, eq⟩ := Option.isSome_iff_exists.1 sign
    refine ⟨some sign, rest, List.suffix_cons _ _, fun s => ?_⟩
    change Sign.scan (c :: spell s rest) = _
    rw [Sign.scan, eq]
  · refine ⟨none, m, List.suffix_rfl, fun s => ?_⟩
    have other := other s
    generalize spell s m = text at other
    cases text with
    | nil => rfl
    | cons c text =>
      have none : Sign.ofChar? c = none := by simpa using other
      rw [Sign.scan, none]

theorem ignores_fraction (h : IsLegible m) : Ignores Numeral.scanFraction m := by
  rcases head_cases (fun c => c == '.') (by decide) h.written with ⟨c, rest, rfl, point⟩ | other
  · cases eq_of_beq point
    obtain ⟨digits, rest', suffix, scanned⟩ := ignores_run Char.isDigit (by decide) h.tail
    cases starts : rest.head?.any (isPlain Char.isDigit) with
    | true =>
      refine ⟨digits, rest', suffix.trans (List.suffix_cons _ _), fun s => ?_⟩
      change Numeral.scanFraction ('.' :: spell s rest) = _
      rw [Numeral.scanFraction, startsWithDigit_spell h.tail, starts]
      exact scanned s
    | false =>
      refine ⟨[], plain '.' :: rest, List.suffix_rfl, fun s => ?_⟩
      change Numeral.scanFraction ('.' :: spell s rest) = _
      rw [Numeral.scanFraction, startsWithDigit_spell h.tail, starts]
      rfl
  · refine ⟨[], m, List.suffix_rfl, fun s => ?_⟩
    have other := other s
    generalize spell s m = text at other
    unfold Numeral.scanFraction
    split
    · cases other
    · rfl

theorem ignores_exponent (h : IsLegible m) : Ignores Exponent.scan m := by
  rcases head_cases (fun c => c == 'e' || c == 'E') (by decide) h.written with
    ⟨c, rest, rfl, marker⟩ | other
  · obtain ⟨sign, rest', suffix, signed⟩ := ignores_sign h.tail
    have legible := h.tail.suffix suffix
    obtain ⟨digits, rest'', suffix', scanned⟩ := ignores_run Char.isDigit (by decide) legible
    have step (s : Style) : Exponent.scan (spell s (plain c :: rest)) =
        if startsWithDigit (spell s rest') then (some ⟨c, sign, digits⟩, spell s rest'')
        else (none, c :: spell s rest) := by
      have digits : scanDigits (spell s rest') = (digits, spell s rest'') := scanned s
      change Exponent.scan (c :: spell s rest) = _
      rw [Exponent.scan, marker, signed s]
      simp only [Bool.true_and, digits]
    cases starts : rest'.head?.any (isPlain Char.isDigit) with
    | true =>
      refine ⟨some ⟨c, sign, digits⟩, rest'', suffix'.trans (suffix.trans (List.suffix_cons _ _)),
        fun s => ?_⟩
      rw [step, startsWithDigit_spell legible, starts, if_pos rfl]
    | false =>
      refine ⟨none, plain c :: rest, List.suffix_rfl, fun s => ?_⟩
      rw [step, startsWithDigit_spell legible, starts, if_neg Bool.false_ne_true]
      rfl
  · refine ⟨none, m, List.suffix_rfl, fun s => ?_⟩
    have other := other s
    generalize spell s m = text at other
    cases text with
    | nil => rfl
    | cons c text =>
      have marker : (c == 'e' || c == 'E') = false := other
      rw [Exponent.scan, marker]
      rfl

theorem ignores_numeral (h : IsLegible m) : Ignores Numeral.scan m := by
  obtain ⟨whole, rest, suffix, wholes⟩ := ignores_run Char.isDigit (by decide) h
  have h := h.suffix suffix
  obtain ⟨fraction, rest', suffix', fractions⟩ := ignores_fraction h
  have h := h.suffix suffix'
  obtain ⟨exponent, rest'', suffix'', exponents⟩ := ignores_exponent h
  refine ⟨⟨whole, fraction, exponent⟩, rest'', suffix''.trans (suffix'.trans suffix), fun s => ?_⟩
  have digits : scanDigits (spell s m) = (whole, spell s rest) := wholes s
  simp only [Numeral.scan, digits, fractions s, exponents s]

theorem exists_starts (h : IsLegible m) : ∃ starts, ∀ s, Numeral.starts (spell s m) = starts := by
  rcases head_cases (fun c => c == '.') (by decide) h.written with ⟨c, rest, rfl, point⟩ | other
  · cases eq_of_beq point
    exact ⟨_, startsWithDigit_spell h.tail⟩
  · refine ⟨_, fun s => Eq.trans ?_ (startsWithDigit_spell h s)⟩
    have other := other s
    generalize spell s m = text at other
    unfold Numeral.starts
    split
    · cases other
    · rfl

/-! ### Words -/

theorem exists_opensParen (h : IsLegible m) :
    ∃ opens, ∀ s, Lexeme.opensParen (spell s m) = opens := by
  obtain ⟨blanks, rest, suffix, scanned⟩ := ignores_run Text.isBlank (by decide) h
  refine ⟨rest.head?.any (isPlain fun c => c == '('), fun s => ?_⟩
  have behind : (spell s m).dropWhile Text.isBlank = spell s rest := congrArg Prod.snd (scanned s)
  rw [Lexeme.opensParen, behind,
    ← any_head_spell (fun c => c == '(') (by decide) (h.suffix suffix).written s]
  cases (spell s rest).head? <;> rfl

theorem ignores_name (h : IsLegible m) : Ignores Lexeme.scanName m := by
  obtain ⟨name, rest, suffix, scanned⟩ := ignores_run continuesIdentifier (by decide) h
  obtain ⟨opens, eq⟩ := exists_opensParen (h.suffix suffix)
  have same (s : Style) : Lexeme.ofName name (spell s rest) = Lexeme.ofName name (spell {} rest) := by
    rw [Lexeme.ofName, Lexeme.ofName, eq s, eq {}]
  refine ⟨Lexeme.ofName name (spell {} rest), rest, suffix, fun s => ?_⟩
  have front : (spell s m).takeWhile continuesIdentifier = name := congrArg Prod.fst (scanned s)
  have behind : (spell s m).dropWhile continuesIdentifier = spell s rest :=
    congrArg Prod.snd (scanned s)
  rw [Lexeme.scanName, front, behind, same s]

/-- A word that starts with a character as such is the same in all styles. -/
theorem scan_plain (h : IsLegible (plain c :: m)) :
    (∃ fault, ∀ s, Lexeme.scan (spell s (plain c :: m)) = .error fault) ∨
      ∃ y rest, rest <:+ plain c :: m ∧
        ∀ s, Lexeme.scan (spell s (plain c :: m)) = .ok (y, spell s rest) := by
  have text (s : Style) : spell s (plain c :: m) = c :: spell s m := rfl
  have ordinary : isOrdinary c = true := h.written (plain c) (by simp)
  simp only [isOrdinary, Bool.and_eq_true, bne_iff_ne, Bool.not_eq_true'] at ordinary
  obtain ⟨⟨brace, -⟩, superscript⟩ := ordinary
  cases sign : Lexeme.ofChar? c with
  | some y =>
    refine Or.inr ⟨y, m, List.suffix_cons _ _, fun s => ?_⟩
    rw [text, Lexeme.scan, sign]
  | none =>
    obtain ⟨starts, number⟩ := exists_starts h
    have step (s : Style) : Lexeme.scan (c :: spell s m) =
        if starts then .ok (.number (Numeral.scan (c :: spell s m)).1, (Numeral.scan (c :: spell s m)).2)
        else if startsIdentifier c then .ok (Lexeme.scanName (c :: spell s m))
        else .error (.unexpectedCharacter c) := by
      rw [Lexeme.scan, sign, ← text, number s]
      simp [superscript, brace]
    cases starts with
    | true =>
      obtain ⟨literal, rest, suffix, scanned⟩ := ignores_numeral h
      refine Or.inr ⟨.number literal, rest, suffix, fun s => ?_⟩
      rw [text, step, if_pos rfl, ← text, scanned s]
    | false =>
      cases name : startsIdentifier c with
      | true =>
        obtain ⟨y, rest, suffix, scanned⟩ := ignores_name h
        refine Or.inr ⟨y, rest, suffix, fun s => ?_⟩
        rw [text, step, if_neg Bool.false_ne_true, if_pos name, ← text, scanned s]
      | false =>
        refine Or.inl ⟨.unexpectedCharacter c, fun s => ?_⟩
        rw [text, step, if_neg Bool.false_ne_true, if_neg (by rw [name]; exact Bool.false_ne_true)]

/-! ### Signs, exponents and notes -/

theorem scan_note {note : List Char} (closed : '\x7d' ∉ note) (s : Style) (m : List Glyph) :
    Lexeme.scan (spell s (.note note :: m)) = .ok (.note (String.ofList note), spell s m) :=
  Lexeme.scan_note closed (spell s m)

theorem scan_times (s : Style) (m : List Glyph) :
    Lexeme.scan (spell s (times :: m)) = .ok (s.separator.lexeme, spell s m) := by
  obtain ⟨separator, exponents⟩ := s
  cases separator <;> rfl

theorem behind_exponent {digits : List Char} (h : IsLegible (exponent digits :: m)) (s : Style) :
    EndsNumber (spell s m) ∧ ∀ c ∈ (spell s m).head?, isSuperscript c = false := by
  suffices both : ∀ c ∈ (spell s m).head?, endsNumber c = true ∧ isSuperscript c = false from
    ⟨fun c hc => (both c hc).1, fun c hc => (both c hc).2⟩
  cases m with
  | nil => nofun
  | cons x m =>
    have apart := (List.isChain_cons_cons.1 h.apart).1
    have written := h.tail.written x (by simp)
    intro c hc
    cases x with
    | plain d =>
      cases hc
      simp only [IsWritten, isOrdinary, Bool.and_eq_true, Bool.not_eq_true'] at written
      exact ⟨apart, written.2⟩
    | note text =>
      cases hc
      exact ⟨by decide, by decide⟩
    | times =>
      cases hc
      cases s.separator <;> exact ⟨by decide, by decide⟩
    | exponent digits' => exact apart.elim

theorem scan_superscript {digits : List Char} (h : IsLegible (exponent digits :: m))
    (separator : Separator) :
    Lexeme.scan (spell ⟨separator, .superscript⟩ (exponent digits :: m)) =
      .ok (.superscript digits, spell ⟨separator, .superscript⟩ m) :=
  Lexeme.scan_spelling (x := .superscript digits) (h.written (exponent digits) (by simp))
    (behind_exponent h _).2

/-- A caret is a word of its own, and the digits behind it are the next. -/
theorem scan_caret {digits : List Char} (h : IsLegible (exponent digits :: m)) (separator : Separator) :
    ∃ text, Lexeme.scan (spell ⟨separator, .caret⟩ (exponent digits :: m)) = .ok (.caret, text) ∧
      text.dropWhile Text.isBlank = text ∧
      Lexeme.scan text = .ok (.number ⟨digits, [], none⟩, spell ⟨separator, .caret⟩ m) := by
  have written : IsDigits digits := h.written (exponent digits) (by simp)
  refine ⟨digits ++ spell ⟨separator, .caret⟩ m, rfl, ?_, ?_⟩
  · obtain ⟨d, tail, rfl⟩ := List.exists_cons_of_ne_nil written.1
    have ink := (Lexeme.isDigit_facts (written.2 d (by simp))).2.1
    rw [List.cons_append, List.dropWhile_cons_of_neg (by simp [ink])]
  · have spelled : (Lexeme.number ⟨digits, [], none⟩).IsSpelled := ⟨written, nofun, rfl⟩
    have scanned := Lexeme.scan_spelling spelled (behind_exponent h ⟨separator, .caret⟩).1
    rw [Lexeme.spelling] at scanned
    simpa [Numeral.text] using scanned

end Glyph

/-! ### Tokens in lockstep -/

open Glyph

/-- Texts that differ in spelling alone, which moves their tokens. -/
def respelled : Latitude := ⟨fun _ _ => True, True, False⟩

/-- Whether two texts are both refused, or have tokens that mean the same. -/
inductive Agree : Except Error (List Token) → Except Error (List Token) → Prop
  | ok {l l' : List Token} (alike : respelled.Alike l l') : Agree (.ok l) (.ok l')
  | error (e e' : Error) : Agree (.error e) (.error e')

variable {s s' : Scanner} {t t' : List Char} {x : Lexeme}

theorem Agree.map {r r' : Except Error (List Token)} (h : Agree r r') {f f' : List Token → List Token}
    (step : ∀ {l l'}, respelled.Alike l l' → respelled.Alike (f l) (f' l')) :
    Agree (r.map f) (r'.map f') := by
  cases h with
  | ok alike => exact .ok (step alike)
  | error e e' => exact .error e e'

/-- The same word in front of texts that agree. -/
theorem Agree.same (h : Lexeme.scan s.skipBlanks.rest = .ok (x, t))
    (h' : Lexeme.scan s'.skipBlanks.rest = .ok (x, t'))
    (behind : x ≠ .endOfInput → ∀ p q, Agree (Scanner.mk t p).tokens (Scanner.mk t' q).tokens) :
    Agree s.tokens s'.tokens := by
  by_cases ended : x = .endOfInput
  · subst ended
    rw [Scanner.tokens_of_scan_end h, Scanner.tokens_of_scan_end h']
    exact .ok .nil
  · obtain ⟨p, q, eq⟩ := Scanner.tokens_of_scan h ended
    obtain ⟨p', q', eq'⟩ := Scanner.tokens_of_scan h' ended
    rw [eq, eq']
    exact (behind ended q q').map (.same x trivial)

/-- Factor signs in front of texts that agree. -/
theorem Agree.times {sign sign' : Separator} (h : Lexeme.scan s.skipBlanks.rest = .ok (sign.lexeme, t))
    (h' : Lexeme.scan s'.skipBlanks.rest = .ok (sign'.lexeme, t'))
    (behind : ∀ p q, Agree (Scanner.mk t p).tokens (Scanner.mk t' q).tokens) :
    Agree s.tokens s'.tokens := by
  have notEnd (sign : Separator) : sign.lexeme ≠ .endOfInput := by cases sign <;> nofun
  obtain ⟨p, q, eq⟩ := Scanner.tokens_of_scan h (notEnd sign)
  obtain ⟨p', q', eq'⟩ := Scanner.tokens_of_scan h' (notEnd sign')
  rw [eq, eq']
  exact (behind q q').map (.times sign sign' trivial trivial)

/-- An exponent behind a caret and one in superscripts in front of texts that agree. -/
theorem Agree.exponent {digits u : List Char} (h : Lexeme.scan s.skipBlanks.rest = .ok (.caret, u))
    (dense : u.dropWhile Text.isBlank = u) (number : Lexeme.scan u = .ok (.number ⟨digits, [], none⟩, t))
    (h' : Lexeme.scan s'.skipBlanks.rest = .ok (.superscript digits, t'))
    (behind : ∀ p q, Agree (Scanner.mk t p).tokens (Scanner.mk t' q).tokens) :
    Agree s.tokens s'.tokens := by
  obtain ⟨p, q, eq⟩ := Scanner.tokens_of_scan h (by simp)
  have next : Lexeme.scan (Scanner.mk u q).skipBlanks.rest = .ok (.number ⟨digits, [], none⟩, t) := by
    rw [Scanner.skipBlanks, dense, number]
  obtain ⟨p₁, q₁, eq₁⟩ := Scanner.tokens_of_scan next (by simp)
  obtain ⟨p', q', eq'⟩ := Scanner.tokens_of_scan h' (by simp)
  have joined (r : Except Error (List Token)) (a b : Token) :
      (r.map fun tokens => b :: tokens).map (fun tokens => a :: tokens) =
        r.map fun tokens => a :: b :: tokens := by
    cases r <;> rfl
  rw [eq, eq₁, eq', joined]
  exact (behind q₁ q').map (.exponent digits trivial trivial trivial)

/-- The style in which exponents are one word. -/
def raised : Style := ⟨.middleDot, .superscript⟩

/-- The tokens of a text in glyphs mean the same in any style as they do with raised exponents. -/
theorem agree_tokens {m : List Glyph} (legible : IsLegible m) (style : Style) (p q : Nat) :
    Agree (Scanner.mk (spell style m) p).tokens (Scanner.mk (spell raised m) q).tokens := by
  induction length : m.length using Nat.strongRecOn generalizing m p q with
  | ind n ih =>
    subst length
    obtain ⟨blanks, rest, suffix, skipped⟩ := ignores_run Text.isBlank (by decide) legible
    have start (style : Style) (p : Nat) :
        (Scanner.mk (spell style m) p).skipBlanks.rest = spell style rest :=
      congrArg Prod.snd (skipped style)
    have legible := legible.suffix suffix
    cases rest with
    | nil => exact .same (x := .endOfInput) (by rw [start]; rfl) (by rw [start]; rfl) fun h => absurd rfl h
    | cons x rest =>
      have shorter : rest.length < m.length := suffix.length_le
      have behind := ih rest.length shorter legible.tail
      cases x with
      | plain c =>
        rcases scan_plain legible with ⟨fault, failed⟩ | ⟨y, rest', suffix', scanned⟩
        · obtain ⟨e, eq⟩ := Scanner.tokens_of_scan_error (s := ⟨spell style m, p⟩) (by rw [start, failed])
          obtain ⟨e', eq'⟩ := Scanner.tokens_of_scan_error (s := ⟨spell raised m, q⟩) (by rw [start, failed])
          rw [eq, eq']
          exact .error e e'
        · refine .same (x := y) (by rw [start, scanned]) (by rw [start, scanned]) fun notEnd p q => ?_
          -- The word takes a character at least.
          have fewer : rest'.length < (plain c :: rest).length := by
            refine Nat.lt_of_le_of_ne suffix'.length_le fun same => ?_
            have progress := Lexeme.length_lt_of_scan (scanned raised) notEnd
            rw [suffix'.eq_of_length same] at progress
            exact Nat.lt_irrefl _ progress
          exact ih rest'.length (Nat.lt_of_lt_of_le fewer suffix.length_le) (legible.suffix suffix') p q rfl
      | note text =>
        have closed : '\x7d' ∉ text := legible.written (note text) (by simp)
        exact .same (by rw [start, scan_note closed]) (by rw [start, scan_note closed])
          fun _ p q => behind p q rfl
      | times =>
        exact .times (by rw [start, scan_times]) (by rw [start, scan_times]) fun p q => behind p q rfl
      | exponent digits =>
        have raisedOne := scan_superscript legible .middleDot
        obtain ⟨separator, exponents⟩ := style
        cases exponents with
        | caret =>
          obtain ⟨u, sign, dense, number⟩ := scan_caret legible separator
          exact .exponent (by rw [start, sign]) dense number (by rw [start]; exact raisedOne)
            fun p q => behind p q rfl
        | superscript =>
          exact .same (by rw [start, scan_superscript legible]) (by rw [start]; exact raisedOne)
            fun _ p q => behind p q rfl

end Metrology.Expression
