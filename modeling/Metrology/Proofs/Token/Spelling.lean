import Mathlib.Data.List.Basic
import Metrology.Proofs.Token.Scanning

/-!
# Spelling

The text of a list of words, without blanks. It is read back as these words, if each is spelled
as a word of its kind and none runs into the next: a number or a name must not stand before
another, superscripts not before superscripts, and a logarithm stands before a parenthesis.
-/
namespace Metrology

/-! ### Runs of characters -/

/-- A run ends where a character is not of its kind. -/
theorem takeWhile_append {α : Type} {p : α → Bool} {l rest : List α} (h : ∀ c ∈ l, p c = true)
    (stop : ∀ c ∈ rest.head?, p c = false) : (l ++ rest).takeWhile p = l := by
  rw [List.takeWhile_append_of_pos h]
  cases rest with
  | nil => simp
  | cons c rest => rw [List.takeWhile_cons_of_neg (by simp [stop c rfl]), List.append_nil]

theorem dropWhile_append {α : Type} {p : α → Bool} {l rest : List α} (h : ∀ c ∈ l, p c = true)
    (stop : ∀ c ∈ rest.head?, p c = false) : (l ++ rest).dropWhile p = rest := by
  rw [List.dropWhile_append_of_pos h]
  cases rest with
  | nil => rfl
  | cons c rest => rw [List.dropWhile_cons_of_neg (by simp [stop c rfl])]

def decimalDigits : List Char := ['0', '1', '2', '3', '4', '5', '6', '7', '8', '9']

theorem mem_decimalDigits {c : Char} (h : c.isDigit = true) : c ∈ decimalDigits := by
  have range : 48 ≤ c.toNat ∧ c.toNat ≤ 57 := Char.isDigit_iff_toNat.1 h
  have eq : c = Char.ofNat c.toNat := (Char.ofNat_toNat c).symm
  generalize c.toNat = n at *
  subst eq
  have cases : n = 48 ∨ n = 49 ∨ n = 50 ∨ n = 51 ∨ n = 52 ∨ n = 53 ∨ n = 54 ∨ n = 55 ∨ n = 56 ∨
      n = 57 := by omega
  rcases cases with rfl | rfl | rfl | rfl | rfl | rfl | rfl | rfl | rfl | rfl <;> decide

/-- What can be checked of the ten digits holds of all. -/
theorem forall_isDigit {P : Char → Prop} [DecidablePred P]
    (h : decimalDigits.all (fun c => decide (P c)) = true) {c : Char} (digit : c.isDigit = true) :
    P c :=
  of_decide_eq_true (List.all_eq_true.1 h c (mem_decimalDigits digit))

def IsDigits (l : List Char) : Prop := l ≠ [] ∧ ∀ c ∈ l, c.isDigit = true

namespace Lexeme

/-! ### Words -/

def spelling : Lexeme → List Char
  | number literal => literal.text
  | note text => '\x7b' :: (text.toList ++ ['\x7d'])
  | superscript digits => digits.map Text.toSuperscript
  | logarithm .natural => ['l', 'n']
  | logarithm (.decimal digits) => 'l' :: 'o' :: 'g' :: digits
  | lexeme => lexeme.value.toList

/-- Whether the characters make an identifier that cannot be taken for a logarithm. -/
def isName (name : List Char) : Bool :=
  name.head?.any startsIdentifier && name.all continuesIdentifier && (LogBase.ofName? name).isNone

/-- Whether a word is spelled as one of its kind. -/
def IsSpelled : Lexeme → Prop
  | number literal =>
    IsDigits literal.whole ∧ (∀ c ∈ literal.fraction, c.isDigit = true) ∧ literal.exponent = none
  | superscript digits => IsDigits digits
  | note text => '\x7d' ∉ text.toList
  | identifier name => isName name.toList = true
  | logarithm (.decimal digits) => ∀ c ∈ digits, c.isDigit = true
  | endOfInput => False
  | _ => True

def isAlphanumeric : Lexeme → Bool
  | number _ | identifier _ | logarithm _ => true
  | _ => false

/-- Whether a word and what follows it, if anything does, stay apart without a blank. -/
def canPrecede : Lexeme → Option Lexeme → Bool
  | logarithm _, next => next == some openParen
  | number _, some next | identifier _, some next => !next.isAlphanumeric
  | superscript _, some (superscript _) => false
  | _, _ => true

/-- Whether no word in a list runs into the next. -/
def AreApart : List Lexeme → Prop
  | [] => True
  | x :: l => x.canPrecede l.head? = true ∧ AreApart l

/-! ### Scanning a word -/

theorem not_isDigit_of_continues {c : Char} (h : continuesIdentifier c = false) :
    c.isDigit = false := by
  rw [continuesIdentifier, Bool.or_eq_false_iff] at h
  exact h.2

theorem isDigit_facts {c : Char} (h : c.isDigit = true) :
    ofChar? c = none ∧ Text.isBlank c = false ∧ c ≠ '.' ∧ isSuperscript c = false :=
  forall_isDigit
    (P := fun c => ofChar? c = none ∧ Text.isBlank c = false ∧ c ≠ '.' ∧ isSuperscript c = false)
    (by decide) h

def isInk (c : Char) : Bool := !Text.isBlank c && c != '\x7b' && c != '\x7d'

theorem ne_brace_of_isInk {c : Char} (ink : isInk c = true) : c ≠ '\x7b' ∧ c ≠ '\x7d' := by
  simp only [isInk, Bool.and_eq_true, bne_iff_ne] at ink
  exact ⟨ink.1.2, ink.2⟩

theorem isBlank_of_isInk {c : Char} (ink : isInk c = true) : Text.isBlank c = false := by
  simp only [isInk, Bool.and_eq_true, Bool.not_eq_true'] at ink
  exact ink.1.1

theorem isInk_of_isDigit {c : Char} (h : c.isDigit = true) : isInk c = true :=
  forall_isDigit (P := fun c => isInk c = true) (by decide) h

theorem isInk_of_isSuperscript {c : Char} (h : isSuperscript c = true) : isInk c = true := by
  unfold isSuperscript Text.ofSuperscript? at h
  split at h <;> first | decide | cases h

theorem isInk_of_ofChar? {c : Char} {x : Lexeme} (h : ofChar? c = some x) : isInk c = true := by
  unfold ofChar? at h
  split at h <;> first | decide | cases h

theorem isInk_of_continues {c : Char} (h : continuesIdentifier c = true) : isInk c = true := by
  rw [continuesIdentifier, Bool.or_eq_true] at h
  rcases h with starts | digit
  · simp only [startsIdentifier, isReserved, Bool.and_eq_true, Bool.not_eq_true',
      Bool.or_eq_false_iff] at starts
    obtain ⟨⟨⟨-, blank⟩, -⟩, ⟨⟨-, opened⟩, closed⟩, -⟩ := starts
    simp [isInk, blank, bne, opened, closed]
  · exact isInk_of_isDigit digit

theorem toSuperscript_facts {c : Char} (h : c.isDigit = true) :
    Text.ofSuperscript? (Text.toSuperscript c) = some c ∧
      ofChar? (Text.toSuperscript c) = none ∧ Text.isBlank (Text.toSuperscript c) = false ∧
      continuesIdentifier (Text.toSuperscript c) = false ∧ Text.toSuperscript c ≠ '.' :=
  forall_isDigit (P := fun c => Text.ofSuperscript? (Text.toSuperscript c) = some c ∧
        ofChar? (Text.toSuperscript c) = none ∧ Text.isBlank (Text.toSuperscript c) = false ∧
        continuesIdentifier (Text.toSuperscript c) = false ∧ Text.toSuperscript c ≠ '.') (by decide) h

theorem isSuperscript_toSuperscript {c : Char} (h : c.isDigit = true) :
    isSuperscript (Text.toSuperscript c) = true := by
  rw [isSuperscript, (toSuperscript_facts h).1]
  rfl

theorem startsIdentifier_facts {c : Char} (h : startsIdentifier c = true) :
    ofChar? c = none ∧ Text.isBlank c = false ∧ c ≠ '.' ∧ c ≠ '\x7b' ∧ c.isDigit = false ∧
      isSuperscript c = false := by
  simp only [startsIdentifier, isReserved, Bool.and_eq_true, Bool.not_eq_true', Bool.or_eq_false_iff,
    beq_eq_false_iff_ne, Option.isSome_eq_false_iff, Option.isNone_iff_eq_none] at h
  obtain ⟨⟨⟨-, blank⟩, digit⟩, ⟨⟨⟨sign, point⟩, brace⟩, -⟩, superscript⟩ := h
  exact ⟨sign, blank, point, brace, digit, superscript⟩

theorem starts_of_ne_point {c : Char} {rest : List Char} (point : c ≠ '.') :
    Numeral.starts (c :: rest) = c.isDigit := by
  unfold Numeral.starts
  split
  · rename_i eq
    cases eq
    exact absurd rfl point
  · rfl

theorem isSuperscript_facts {c : Char} (h : isSuperscript c = true) :
    ofChar? c = none ∧ c ≠ '.' ∧ c.isDigit = false := by
  unfold isSuperscript Text.ofSuperscript? at h
  split at h <;> first | decide | cases h

/-- What a digit starts is a number, whatever follows it. -/
theorem scan_of_isDigit {c : Char} (h : c.isDigit = true) (tail : List Char) :
    scan (c :: tail) = .ok (number (Numeral.scan (c :: tail)).1, (Numeral.scan (c :: tail)).2) := by
  obtain ⟨char, -, point, -⟩ := isDigit_facts h
  simp only [scan, char, starts_of_ne_point point, h, if_true]

theorem scan_of_isSuperscript {c : Char} (h : isSuperscript c = true) (tail : List Char) :
    scan (c :: tail) = .ok (scanSuperscript (c :: tail)) := by
  obtain ⟨char, point, digit⟩ := isSuperscript_facts h
  simp [scan, char, starts_of_ne_point point, digit, h]

theorem scan_of_startsIdentifier {c : Char} (h : startsIdentifier c = true) (tail : List Char) :
    scan (c :: tail) = .ok (scanName (c :: tail)) := by
  obtain ⟨char, -, point, brace, digit, superscript⟩ := startsIdentifier_facts h
  simp [scan, char, starts_of_ne_point point, digit, superscript, brace, h]

/-- What cannot go on with a number or a name. -/
def Stops (rest : List Char) : Prop := ∀ c ∈ rest.head?, continuesIdentifier c = false ∧ c ≠ '.'

def endsNumber (c : Char) : Bool := !c.isDigit && c != '.' && c != 'e' && c != 'E'

def EndsNumber (rest : List Char) : Prop := ∀ c ∈ rest.head?, endsNumber c = true

theorem Stops.endsNumber {rest : List Char} (stops : Stops rest) : EndsNumber rest := by
  intro c hc
  obtain ⟨stop, point⟩ := stops c hc
  have letter (d : Char) (continues : continuesIdentifier d = true) : c ≠ d := by
    rintro rfl
    rw [continues] at stop
    cases stop
  simp [Lexeme.endsNumber, not_isDigit_of_continues stop, point, letter 'e' (by decide),
    letter 'E' (by decide)]

theorem endsNumber_facts {c : Char} (h : endsNumber c = true) :
    c.isDigit = false ∧ c ≠ '.' ∧ (c == 'e' || c == 'E') = false := by
  simp only [endsNumber, Bool.and_eq_true, Bool.not_eq_true', bne_iff_ne] at h
  obtain ⟨⟨⟨digit, point⟩, small⟩, capital⟩ := h
  exact ⟨digit, point, by simp [small, capital]⟩

theorem scanExponent_of_ends {rest : List Char} (ends : EndsNumber rest) :
    Exponent.scan rest = (none, rest) := by
  cases rest with
  | nil => rfl
  | cons c rest =>
    obtain ⟨-, -, marker⟩ := endsNumber_facts (ends c rfl)
    rw [Exponent.scan, marker]
    rfl

/-- A numeral is scanned to its end. -/
theorem scan_numeral {literal : Numeral} {rest : List Char} (spelled : (number literal).IsSpelled)
    (ends : EndsNumber rest) : Numeral.scan (literal.text ++ rest) = (literal, rest) := by
  obtain ⟨whole, fraction, exponent⟩ := literal
  obtain ⟨⟨-, whole'⟩, fraction', rfl⟩ := spelled
  have digit : ∀ c ∈ rest.head?, c.isDigit = false := fun c hc => (endsNumber_facts (ends c hc)).1
  cases fraction with
  | nil =>
    have text : (⟨whole, [], none⟩ : Numeral).text ++ rest = whole ++ rest := by simp [Numeral.text]
    have point : Numeral.scanFraction rest = ([], rest) := by
      unfold Numeral.scanFraction
      split
      · exact absurd rfl (endsNumber_facts (ends '.' rfl)).2.1
      · rfl
    rw [text, Numeral.scan, scanDigits, takeWhile_append whole' digit, dropWhile_append whole' digit]
    simp only [point, scanExponent_of_ends ends]
  | cons d ds =>
    have text : (⟨whole, d :: ds, none⟩ : Numeral).text ++ rest =
        whole ++ '.' :: ((d :: ds) ++ rest) := by simp [Numeral.text]
    have point : ∀ c ∈ ('.' :: ((d :: ds) ++ rest)).head?, c.isDigit = false := by
      intro c hc
      cases hc
      rfl
    have scanned : Numeral.scanFraction ('.' :: ((d :: ds) ++ rest)) = (d :: ds, rest) := by
      have start : startsWithDigit ((d :: ds) ++ rest) = true := fraction' d (by simp)
      rw [Numeral.scanFraction, if_pos start, scanDigits, takeWhile_append fraction' digit,
        dropWhile_append fraction' digit]
    rw [text, Numeral.scan, scanDigits, takeWhile_append whole' point, dropWhile_append whole' point]
    simp only [scanned, scanExponent_of_ends ends]

theorem isName_iff {name : List Char} :
    isName name = true ↔ (∃ c rest, name = c :: rest ∧ startsIdentifier c = true) ∧
      (∀ c ∈ name, continuesIdentifier c = true) ∧ LogBase.ofName? name = none := by
  cases name <;> simp [isName, and_assoc]

theorem scan_name {name rest : List Char} (start : ∃ c tail, name = c :: tail ∧ startsIdentifier c = true)
    (all : ∀ c ∈ name, continuesIdentifier c = true)
    (stops : ∀ c ∈ rest.head?, continuesIdentifier c = false) :
    scan (name ++ rest) = .ok (ofName name rest, rest) := by
  obtain ⟨c, tail, rfl, starts⟩ := start
  rw [List.cons_append, scan_of_startsIdentifier starts, ← List.cons_append, scanName,
    takeWhile_append all stops, dropWhile_append all stops]

/-- What may stand behind a word. -/
def Ends (x : Lexeme) (rest : List Char) : Prop :=
  match x with
  | number _ => EndsNumber rest
  | identifier _ => Stops rest
  | superscript _ => ∀ c ∈ rest.head?, isSuperscript c = false
  | logarithm _ => rest.head? = some '('
  | _ => True

/-- The text of a number starts with a digit. -/
theorem exists_digit_text {literal : Numeral} (whole : IsDigits literal.whole) :
    ∃ c tail, literal.text = c :: tail ∧ c.isDigit = true := by
  obtain ⟨c, tail, eq⟩ := List.exists_cons_of_ne_nil whole.1
  have text : ∃ tail', literal.text = c :: tail' := by simp [Numeral.text, eq]
  obtain ⟨tail', text⟩ := text
  exact ⟨c, tail', text, whole.2 c (by simp [eq])⟩

theorem scan_number {literal : Numeral} {rest : List Char} (spelled : (number literal).IsSpelled)
    (ends : EndsNumber rest) : scan (literal.text ++ rest) = .ok (number literal, rest) := by
  obtain ⟨c, tail, text, digit⟩ := exists_digit_text spelled.1
  have scanned := scan_numeral spelled ends
  rw [text, List.cons_append] at scanned ⊢
  rw [scan_of_isDigit digit, scanned]

/-- Raised digits are scanned to their end. -/
theorem scan_superscript {digits rest : List Char} (spelled : IsDigits digits)
    (ends : ∀ c ∈ rest.head?, isSuperscript c = false) :
    scan (digits.map Text.toSuperscript ++ rest) = .ok (superscript digits, rest) := by
  obtain ⟨nonempty, all⟩ := spelled
  have allSuperscript : ∀ c ∈ digits.map Text.toSuperscript, isSuperscript c = true := by
    intro c hc
    obtain ⟨d, hd, rfl⟩ := List.mem_map.1 hc
    exact isSuperscript_toSuperscript (all d hd)
  have back : (digits.map Text.toSuperscript).filterMap Text.ofSuperscript? = digits := by
    rw [List.filterMap_map]
    refine (List.filterMap_congr fun d hd => ?_).trans List.filterMap_some
    exact (toSuperscript_facts (all d hd)).1
  have run : scanSuperscript (digits.map Text.toSuperscript ++ rest) = (superscript digits, rest) := by
    rw [scanSuperscript, takeWhile_append allSuperscript ends, dropWhile_append allSuperscript ends,
      back]
  obtain ⟨d, tail, rfl⟩ := List.exists_cons_of_ne_nil nonempty
  rw [List.map_cons, List.cons_append] at run ⊢
  rw [scan_of_isSuperscript (allSuperscript _ (by simp)), run]

theorem scan_note {inner : List Char} (closed : '\x7d' ∉ inner) (rest : List Char) :
    scan ('\x7b' :: (inner ++ ['\x7d']) ++ rest) = .ok (note (String.ofList inner), rest) := by
  have inside : ∀ c ∈ inner, (c != '\x7d') = true := by
    intro c hc
    simp only [bne_iff_ne]
    rintro rfl
    exact closed hc
  have stop : ∀ c ∈ ('\x7d' :: rest).head?, (c != '\x7d') = false := by
    intro c hc
    cases hc
    rfl
  have run : scanNote? (inner ++ '\x7d' :: rest) = some (inner, rest) := by
    rw [scanNote?, takeWhile_append inside stop, dropWhile_append inside stop]
  rw [List.cons_append, List.append_assoc, List.singleton_append, scan]
  simp only [run]
  rfl

/-- The name of a logarithm in front of a parenthesis is scanned as that logarithm. -/
theorem scan_logarithm {base : LogBase} {name : List Char} (tail : List Char)
    (start : ∃ c tail, name = c :: tail ∧ startsIdentifier c = true)
    (all : ∀ c ∈ name, continuesIdentifier c = true) (named : LogBase.ofName? name = some base) :
    scan (name ++ '(' :: tail) = .ok (logarithm base, '(' :: tail) := by
  have stops : ∀ c ∈ ('(' :: tail).head?, continuesIdentifier c = false := by
    intro c hc
    cases hc
    decide
  have opens : opensParen ('(' :: tail) = true := rfl
  have scanned := scan_name start all stops
  rw [ofName, named, opens] at scanned
  exact scanned

/-- The name of a logarithm is a run of letters and digits that gives back its base. -/
theorem logarithm_name {base : LogBase} (spelled : (logarithm base).IsSpelled) :
    (∃ c tail, (logarithm base).spelling = c :: tail ∧ startsIdentifier c = true) ∧
      (∀ c ∈ (logarithm base).spelling, continuesIdentifier c = true) ∧
      LogBase.ofName? (logarithm base).spelling = some base := by
  cases base with
  | natural => exact ⟨⟨'l', ['n'], rfl, by decide⟩, List.all_eq_true.1 (by decide), by decide⟩
  | decimal digits =>
    refine ⟨⟨'l', _, rfl, by decide⟩, fun c hc => ?_, ?_⟩
    · simp only [spelling, List.mem_cons] at hc
      rcases hc with rfl | rfl | rfl | hc
      · decide
      · decide
      · decide
      · simp [continuesIdentifier, spelled c hc]
    · have digit : digits.all Char.isDigit = true := List.all_eq_true.2 spelled
      simp [spelling, LogBase.ofName?, digit]

/-- A word is scanned off the text that it is in front of. -/
theorem scan_spelling {x : Lexeme} {rest : List Char} (spelled : x.IsSpelled) (ends : x.Ends rest) :
    scan (x.spelling ++ rest) = .ok (x, rest) := by
  cases x with
  | number literal => exact scan_number spelled ends
  | superscript digits => exact scan_superscript spelled ends
  | note text =>
    have scanned := scan_note spelled rest
    rwa [String.ofList_toList] at scanned
  | identifier name =>
    obtain ⟨start, all, plain⟩ := isName_iff.1 spelled
    have scanned := scan_name start all fun c hc => (ends c hc).1
    rw [ofName, plain] at scanned
    simp only [String.ofList_toList] at scanned
    exact scanned
  | logarithm base =>
    obtain ⟨tail, rfl⟩ := List.head?_eq_some_iff.1 ends
    obtain ⟨start, all, named⟩ := logarithm_name spelled
    exact scan_logarithm tail start all named
  | endOfInput => exact spelled.elim
  | _ => rfl

/-- The characters of a word that is no note. -/
theorem mem_spelling {x : Lexeme} {c : Char} (spelled : x.IsSpelled) (plain : ∀ s, x ≠ note s)
    (hc : c ∈ x.spelling) :
    continuesIdentifier c = true ∨ c = '.' ∨ isSuperscript c = true ∨ ofChar? c = some x := by
  have letter (digit : c.isDigit = true) : continuesIdentifier c = true := by
    simp [continuesIdentifier, digit]
  cases x with
  | number literal =>
    obtain ⟨⟨-, whole⟩, fraction, exponent⟩ := spelled
    simp only [spelling, Numeral.text, exponent, Option.map_none, Option.getD_none, List.append_nil,
      List.mem_append] at hc
    rcases hc with hc | hc
    · exact Or.inl (letter (whole c hc))
    · split at hc
      · cases hc
      · rcases List.mem_cons.1 hc with rfl | hc
        · exact Or.inr (Or.inl rfl)
        · exact Or.inl (letter (fraction c hc))
  | identifier name => exact Or.inl ((isName_iff.1 spelled).2.1 c hc)
  | logarithm base => exact Or.inl ((logarithm_name spelled).2.1 c hc)
  | superscript digits =>
    obtain ⟨d, hd, rfl⟩ := List.mem_map.1 hc
    exact Or.inr (Or.inr (Or.inl (isSuperscript_toSuperscript (spelled.2 d hd))))
  | note text => exact absurd rfl (plain text)
  | endOfInput => exact spelled.elim
  | _ =>
    cases List.mem_singleton.1 hc
    exact Or.inr (Or.inr (Or.inr rfl))

/-- A word that is no note has neither blanks nor braces in it. -/
theorem isInk_of_mem_spelling {x : Lexeme} (spelled : x.IsSpelled) (plain : ∀ s, x ≠ note s) :
    ∀ c ∈ x.spelling, isInk c = true := by
  intro c hc
  rcases mem_spelling spelled plain hc with continues | rfl | superscript | sign
  · exact isInk_of_continues continues
  · decide
  · exact isInk_of_isSuperscript superscript
  · exact isInk_of_ofChar? sign

/-! ### Scanning a list of words -/

def Spells (l : List Lexeme) (text : List Char) : Prop :=
  (∀ x ∈ l, x.IsSpelled) ∧ l.flatMap spelling = text

theorem spells_nil : Spells [] [] := ⟨nofun, rfl⟩

theorem Spells.cons {x : Lexeme} {l : List Lexeme} {text : List Char} (spelled : x.IsSpelled)
    (h : Spells l text) : Spells (x :: l) (x.spelling ++ text) := by
  refine ⟨fun y hy => ?_, ?_⟩
  · rcases List.mem_cons.1 hy with rfl | hy
    · exact spelled
    · exact h.1 y hy
  · rw [List.flatMap_cons, h.2]

/-- Texts side by side spell the words side by side. -/
theorem Spells.append {l l' : List Lexeme} {text text' : List Char} (h : Spells l text)
    (h' : Spells l' text') : Spells (l ++ l') (text ++ text') := by
  refine ⟨fun x hx => ?_, ?_⟩
  · exact (List.mem_append.1 hx).elim (h.1 x) (h'.1 x)
  · rw [List.flatMap_append, h.2, h'.2]

theorem spells_singleton {x : Lexeme} (spelled : x.IsSpelled) : Spells [x] x.spelling :=
  ⟨fun _ hy => List.mem_singleton.1 hy ▸ spelled, List.append_nil _⟩

/-- How a word starts. -/
theorem exists_cons_spelling {x : Lexeme} (spelled : x.IsSpelled) :
    ∃ c tail, x.spelling = c :: tail ∧ Text.isBlank c = false ∧
      (x.isAlphanumeric = false → continuesIdentifier c = false ∧ c ≠ '.') ∧
      ((∀ digits, x ≠ superscript digits) → isSuperscript c = false) := by
  cases x with
  | number literal =>
    obtain ⟨c, tail, text, digit⟩ := exists_digit_text spelled.1
    obtain ⟨-, blank, -, superscript⟩ := isDigit_facts digit
    exact ⟨c, tail, text, blank, nofun, fun _ => superscript⟩
  | identifier name =>
    obtain ⟨⟨c, tail, eq, starts⟩, -⟩ := isName_iff.1 spelled
    obtain ⟨-, blank, -, -, -, superscript⟩ := startsIdentifier_facts starts
    exact ⟨c, tail, eq, blank, nofun, fun _ => superscript⟩
  | superscript digits =>
    obtain ⟨d, tail, rfl⟩ := List.exists_cons_of_ne_nil spelled.1
    obtain ⟨-, -, blank, continues, point⟩ := toSuperscript_facts (spelled.2 d (by simp))
    exact ⟨_, _, rfl, blank, fun _ => ⟨continues, point⟩, fun h => absurd rfl (h _)⟩
  | logarithm base =>
    cases base with
    | natural => exact ⟨'l', _, rfl, by decide, nofun, fun _ => by decide⟩
    | decimal digits => exact ⟨'l', _, rfl, by decide, nofun, fun _ => by decide⟩
  | endOfInput => exact spelled.elim
  | _ => exact ⟨_, _, rfl, by decide, fun _ => by decide, fun _ => by decide⟩

/-- Words that stay apart end where they should. -/
theorem ends_of_areApart {x : Lexeme} {l : List Lexeme} (spelled : ∀ y ∈ l, y.IsSpelled)
    (apart : x.canPrecede l.head? = true) : x.Ends (l.flatMap spelling) := by
  cases l with
  | nil =>
    cases x <;> first | trivial | nofun
  | cons y l =>
    obtain ⟨c, tail, eq, -, stops, superscript⟩ := exists_cons_spelling (spelled y (by simp))
    have head : ((y :: l).flatMap spelling).head? = some c := by simp [eq]
    have alphanumeric (h : (!y.isAlphanumeric) = true) : Stops ((y :: l).flatMap spelling) := by
      intro d hd
      rw [head] at hd
      cases hd
      exact stops (by simpa using h)
    cases x with
    | number literal => exact (alphanumeric apart).endsNumber
    | identifier name => exact alphanumeric apart
    | superscript digits =>
      intro d hd
      rw [head] at hd
      cases hd
      refine superscript ?_
      rintro digits' rfl
      cases apart
    | logarithm base =>
      have opens : y = openParen := by simpa [canPrecede] using apart
      subst opens
      rfl
    | _ => trivial

/-- The spelling of a word is scanned as that word. -/
theorem next_spelling {x : Lexeme} {rest : List Char} (position : Nat) (spelled : x.IsSpelled)
    (ends : x.Ends rest) : (Scanner.mk (x.spelling ++ rest) position).next =
      (.ok ⟨x, position⟩, ⟨rest, position + x.width⟩) := by
  obtain ⟨c, tail, eq, blank, -⟩ := exists_cons_spelling spelled
  have start : (Scanner.mk (x.spelling ++ rest) position).skipBlanks = ⟨x.spelling ++ rest, position⟩ := by
    rw [Scanner.skipBlanks, eq, List.cons_append, List.dropWhile_cons_of_neg (by simp [blank]),
      List.takeWhile_cons_of_neg (by simp [blank])]
    rfl
  rw [Scanner.next, start, scan_spelling spelled ends]

/-- The tokens of a spelling are the words that were spelled. -/
theorem exists_tokens_of_spells {l : List Lexeme} {text : List Char} (spells : Spells l text)
    (apart : AreApart l) (position : Nat) :
    ∃ tokens, (Scanner.mk text position).tokens = .ok tokens ∧ tokens.map Token.lexeme = l := by
  obtain ⟨spelled, rfl⟩ := spells
  induction l generalizing position with
  | nil => exact ⟨[], Scanner.tokens_of_end ⟨[], position⟩ rfl rfl, rfl⟩
  | cons x l ih =>
    have others : ∀ y ∈ l, y.IsSpelled := fun y hy => spelled y (by simp [hy])
    obtain ⟨tokens, scanned, words⟩ := ih apart.2 (position + x.width) others
    have next := next_spelling position (spelled x (by simp))
      (ends_of_areApart others apart.1)
    refine ⟨⟨x, position⟩ :: tokens, Scanner.tokens_of_next _ next ?_ scanned, ?_⟩
    · rintro rfl
      exact spelled .endOfInput (by simp)
    · rw [List.map_cons, words]

end Lexeme

end Metrology
