import Mathlib.Data.List.TakeWhile
import Mathlib.Logic.Relation
import Metrology.Proofs.Token.Lossless

/-!
# Texts that are refused

A text has no tokens if some character outside its notes can be no part of a word: a brace that closes
nothing or is never closed, a point without a digit behind it, or a control character. Everything else
is a word, a part of one, or a blank. The first such character is where reading the text stops.

Which characters stand outside notes is told by reading the text from its start, one character or
one note at a time. This is not the way the words are read, but the end of each word is on it.
-/
namespace Metrology.Text

open Relation (ReflTransGen)

/-! ### Places outside notes -/

/-- What is left of a text behind its first note or character. A note runs from an opening brace to the
next closing one; a brace that is never closed is a character. -/
inductive Behind : List Char → List Char → Prop where
  | note {inner rest : List Char} (closed : '\x7d' ∉ inner) :
      Behind ('\x7b' :: (inner ++ '\x7d' :: rest)) rest
  | char {c : Char} {rest : List Char} (plain : c = '\x7b' → '\x7d' ∉ rest) : Behind (c :: rest) rest

/-- Whether a text goes on with `rest` at some place outside its notes. -/
def IsOutside (text rest : List Char) : Prop := ReflTransGen Behind text rest

/-- Whether a text starts with a character that can stand in notes only. -/
def IsRefused : List Char → Prop
  | [] => False
  | c :: rest =>
    c = '\x7d' ∨ (c = '\x7b' ∧ '\x7d' ∉ rest) ∨ (c = '.' ∧ ∀ d ∈ rest.head?, d.isDigit = false) ∨
      (isControl c = true ∧ isBlank c = false)

/-- Whether the character number `n` stands outside notes and cannot stand there. -/
def RefusesAt (text : List Char) (n : Nat) (c : Char) : Prop :=
  ∃ front rest, text = front ++ c :: rest ∧ front.length = n ∧ IsOutside text (c :: rest) ∧
    IsRefused (c :: rest)

variable {text rest t u w : List Char} {c : Char}

/-- A note is passed as a whole and anything else one character at a time. -/
theorem behind_cons_iff : Behind (c :: w) rest ↔
    (c = '\x7b' ∧ w.dropWhile (· != '\x7d') = '\x7d' :: rest) ∨
      ((c = '\x7b' → '\x7d' ∉ w) ∧ rest = w) := by
  constructor
  · intro h
    cases h with
    | @note inner _ closed =>
      refine Or.inl ⟨rfl, dropWhile_append (fun d hd => ?_) (by simp)⟩
      simpa using ne_of_mem_of_not_mem hd closed
    | char plain => exact Or.inr ⟨plain, rfl⟩
  · rintro (⟨rfl, note⟩ | ⟨plain, rfl⟩)
    · have split := List.takeWhile_append_dropWhile (p := (· != '\x7d')) (l := w)
      rw [← split, note]
      refine .note fun closed => ?_
      simpa using List.mem_takeWhile_imp closed
    · exact .char plain

/-- Texts are read in one way only. -/
theorem behind_unique (h : Behind text t) (h' : Behind text u) : t = u := by
  cases text with
  | nil => cases h
  | cons c w =>
    have closed {r : List Char} (note : w.dropWhile (· != '\x7d') = '\x7d' :: r) : '\x7d' ∈ w := by
      rw [← List.takeWhile_append_dropWhile (p := (· != '\x7d')) (l := w), note]
      simp
    rcases behind_cons_iff.1 h with ⟨brace, note⟩ | ⟨plain, rfl⟩ <;>
      rcases behind_cons_iff.1 h' with ⟨brace', note'⟩ | ⟨plain', rfl⟩
    · exact (List.cons.inj (note.symm.trans note')).2
    · exact absurd (closed note) (plain' brace)
    · exact absurd (closed note') (plain brace')
    · rfl

theorem RefusesAt.getElem? {n : Nat} (h : RefusesAt text n c) : text[n]? = some c := by
  obtain ⟨front, rest, rfl, rfl, -⟩ := h
  simp

/-! ### Reading up to a place -/

/-- Whether a text can be read up to `rest` with no character on the way that is refused. -/
def IsClean (text rest : List Char) : Prop :=
  ReflTransGen (fun t u => Behind t u ∧ ¬IsRefused t) text rest

/-- Whether a character can stand in any text and does not start a note. -/
def IsHarmless (c : Char) : Prop :=
  c ≠ '\x7b' ∧ c ≠ '\x7d' ∧ c ≠ '.' ∧ (isControl c = true → isBlank c = true)

instance : DecidablePred IsHarmless := fun _ => inferInstanceAs (Decidable (_ ∧ _))

theorem not_isRefused_of_isHarmless (h : IsHarmless c) : ¬IsRefused (c :: rest) := by
  obtain ⟨opening, closing, point, blank⟩ := h
  rintro (eq | ⟨eq, -⟩ | ⟨eq, -⟩ | ⟨control, visible⟩)
  · exact closing eq
  · exact opening eq
  · exact point eq
  · rw [blank control] at visible
    cases visible

theorem IsClean.trans (h : IsClean text t) (h' : IsClean t u) : IsClean text u :=
  ReflTransGen.trans h h'

theorem IsClean.harmless (h : IsHarmless c) : IsClean (c :: rest) rest :=
  .single ⟨.char fun brace => absurd brace h.1, not_isRefused_of_isHarmless h⟩

/-- A point with a digit behind it. -/
theorem IsClean.point (digit : startsWithDigit rest = true) : IsClean ('.' :: rest) rest := by
  refine .single ⟨.char (by simp), ?_⟩
  rintro (eq | ⟨eq, -⟩ | ⟨-, none⟩ | ⟨control, -⟩)
  · cases eq
  · cases eq
  · cases rest with
    | nil => cases digit
    | cons d rest => exact absurd (none d rfl) (by simpa [startsWithDigit] using digit)
  · cases control

theorem IsClean.note {inner : List Char} (closed : '\x7d' ∉ inner) :
    IsClean ('\x7b' :: (inner ++ '\x7d' :: rest)) rest := by
  refine .single ⟨.note closed, ?_⟩
  rintro (eq | ⟨-, open'⟩ | ⟨eq, -⟩ | ⟨control, -⟩)
  · cases eq
  · exact open' (by simp)
  · cases eq
  · cases control

/-- A run of harmless characters is passed without a refusal. -/
theorem IsClean.run {p : Char → Bool} (harmless : ∀ c, p c = true → IsHarmless c) (text : List Char) :
    IsClean text (text.dropWhile p) := by
  induction text with
  | nil => exact .refl
  | cons c text ih =>
    rw [List.dropWhile_cons]
    split
    · exact .trans (.harmless (harmless c (by assumption))) ih
    · exact .refl

/-- A place outside notes is behind every place up to which a text is clean, or nothing is refused
there. -/
theorem IsClean.total (h : IsClean text t) (outside : IsOutside text u) :
    IsOutside t u ∨ ¬IsRefused u := by
  induction h using ReflTransGen.head_induction_on with
  | refl => exact Or.inl outside
  | head step _ ih =>
    rcases ReflTransGen.cases_head outside with rfl | ⟨w, step', outside⟩
    · exact Or.inr step.2
    · rw [behind_unique step' step.1] at outside
      exact ih outside

/-- What can be read up to a place leads there outside the notes. -/
theorem IsClean.isOutside (h : IsClean text rest) : IsOutside text rest :=
  ReflTransGen.mono (fun _ _ step => step.1) _ _ h

theorem IsOutside.suffix (h : IsOutside text rest) : rest <:+ text := by
  induction h with
  | refl => exact List.suffix_refl _
  | tail _ step ih =>
    refine List.IsSuffix.trans ?_ ih
    cases step with
    | @note inner rest => exact ⟨'\x7b' :: inner ++ ['\x7d'], by simp⟩
    | char => exact List.suffix_cons _ _

/-- The first character that is refused stands where the clean part of a text ends. -/
theorem IsClean.refusesAt {n : Nat} (h : IsClean text (c :: rest)) (refused : IsRefused (c :: rest))
    (place : n + (c :: rest).length = text.length) :
    RefusesAt text n c ∧ ∀ m d, RefusesAt text m d → n ≤ m := by
  constructor
  · obtain ⟨front, eq⟩ := h.isOutside.suffix
    refine ⟨front, rest, eq.symm, ?_, h.isOutside, refused⟩
    rw [← eq, List.length_append] at place
    omega
  · rintro m d ⟨front, back, rfl, rfl, outside, refused'⟩
    rcases h.total outside with later | accepted
    · have shorter := later.suffix.length_le
      rw [List.length_append] at place
      omega
    · exact absurd refused' accepted

/-- A text that can be read to its end refuses nothing. -/
theorem IsClean.not_refusesAt (h : IsClean text []) (n : Nat) (c : Char) : ¬RefusesAt text n c := by
  rintro ⟨front, back, -, -, outside, refused⟩
  rcases h.total outside with later | accepted
  · exact absurd (List.suffix_nil.1 later.suffix) (List.cons_ne_nil c back)
  · exact accepted refused

end Metrology.Text

namespace Metrology

open Text

/-! ### Words -/

theorem isHarmless_of_isDigit {c : Char} (h : c.isDigit = true) : IsHarmless c := by
  obtain ⟨opening, closing⟩ := Lexeme.ne_brace_of_isInk (Lexeme.isInk_of_isDigit h)
  exact ⟨opening, closing, (Lexeme.isDigit_facts h).2.2.1,
    forall_isDigit (P := fun c => isControl c = true → isBlank c = true) (by decide) h⟩

theorem isHarmless_of_isBlank {c : Char} (h : isBlank c = true) : IsHarmless c := by
  refine ⟨?_, ?_, ?_, fun _ => h⟩ <;>
    · rintro rfl
      cases h

theorem clean_scanDigits (text : List Char) : IsClean text (scanDigits text).2 :=
  .run (fun _ => isHarmless_of_isDigit) text

theorem Sign.clean_scan (text : List Char) : IsClean text (scan text).2 := by
  unfold scan
  split
  · exact .refl
  · rename_i c rest
    split
    · rename_i sign eq
      refine .harmless ?_
      unfold ofChar? at eq
      split at eq <;> first | decide | cases eq
    · exact .refl

theorem Exponent.clean_scan (text : List Char) : IsClean text (scan text).2 := by
  unfold scan
  split
  · exact .refl
  · rename_i marker rest
    simp only
    split
    · rename_i starts
      simp only [Bool.and_eq_true, Bool.or_eq_true, beq_iff_eq] at starts
      have harmless : IsHarmless marker := by
        rcases starts.1 with rfl | rfl <;> decide
      exact (IsClean.harmless harmless).trans ((Sign.clean_scan rest).trans (clean_scanDigits _))
    · exact .refl

theorem Numeral.clean_scanFraction (text : List Char) : IsClean text (scanFraction text).2 := by
  unfold scanFraction
  split
  · split
    · rename_i digit
      exact (IsClean.point digit).trans (clean_scanDigits _)
    · exact .refl
  · exact .refl

theorem Numeral.clean_scan (text : List Char) : IsClean text (scan text).2 :=
  (clean_scanDigits text).trans ((clean_scanFraction _).trans (Exponent.clean_scan _))

namespace Lexeme

theorem isHarmless_of_ofChar? {c : Char} {x : Lexeme} (h : ofChar? c = some x) : IsHarmless c := by
  unfold ofChar? at h
  split at h <;> first | decide | cases h

theorem isHarmless_of_isSuperscript {c : Char} (h : isSuperscript c = true) : IsHarmless c := by
  unfold isSuperscript ofSuperscript? at h
  split at h <;> first | decide | cases h

theorem isHarmless_of_continues {c : Char} (h : continuesIdentifier c = true) : IsHarmless c := by
  rw [continuesIdentifier, Bool.or_eq_true] at h
  rcases h with starts | digit
  · obtain ⟨opening, closing⟩ := ne_brace_of_isInk
      (isInk_of_continues (by rw [continuesIdentifier, starts, Bool.true_or]))
    refine ⟨opening, closing, (startsIdentifier_facts starts).2.2.1, fun control => ?_⟩
    rw [startsIdentifier, control] at starts
    cases starts
  · exact isHarmless_of_isDigit digit

theorem not_mem_of_scanNote? {text inner rest : List Char} (h : scanNote? text = some (inner, rest)) :
    '\x7d' ∉ inner := by
  unfold scanNote? at h
  split at h
  · cases h
  · cases h
    intro closed
    simpa using List.mem_takeWhile_imp closed

/-- No character of a word is refused. -/
theorem clean_scan {text rest : List Char} {x : Lexeme} (h : scan text = .ok (x, rest)) :
    IsClean text rest := by
  cases text with
  | nil =>
    cases h
    exact .refl
  | cons c tail =>
    rw [scan] at h
    split at h
    · rename_i char
      cases h
      exact .harmless (isHarmless_of_ofChar? char)
    · split at h
      · cases h
        exact Numeral.clean_scan _
      · split at h
        · cases h
          exact .run (fun _ => isHarmless_of_isSuperscript) _
        · split at h
          · rename_i brace
            split at h
            · rename_i inner _ scanned
              cases h
              cases eq_of_beq brace
              rw [scanNote?_eq_some scanned]
              exact .note (not_mem_of_scanNote? scanned)
            · cases h
          · split at h
            · cases h
              exact .run (fun _ => isHarmless_of_continues) _
            · cases h

def refusal (c : Char) : Fault := if c = '\x7b' then .unterminatedNote else .unexpectedCharacter c

theorem not_mem_of_scanNote?_eq_none {text : List Char} (h : scanNote? text = none) :
    '\x7d' ∉ text := by
  unfold scanNote? at h
  split at h
  · rename_i none
    intro closed
    simpa using List.dropWhile_eq_nil_iff.1 none _ closed
  · cases h

/-- A character that is no blank and starts no word is refused, unless it opens a note. -/
theorem isRefused_of_starts_eq_false {c : Char} {rest : List Char} (visible : isBlank c = false)
    (char : ofChar? c = none) (number : Numeral.starts (c :: rest) = false)
    (superscript : isSuperscript c = false) (brace : c ≠ '\x7b') (name : startsIdentifier c = false) :
    IsRefused (c :: rest) := by
  by_cases closing : c = '\x7d'
  · exact Or.inl closing
  by_cases point : c = '.'
  · subst point
    refine Or.inr (Or.inr (Or.inl ⟨rfl, fun d hd => ?_⟩))
    cases rest with
    | nil => cases hd
    | cons d' rest =>
      cases hd
      exact number
  · have digit : c.isDigit = false := by
      unfold Numeral.starts at number
      split at number
      · rename_i eq
        exact absurd (List.cons.inj eq).1 point
      · exact number
    have control : isControl c = true := by
      simpa [startsIdentifier, isReserved, visible, char, superscript, brace, closing, point, digit]
        using name
    exact Or.inr (Or.inr (Or.inr ⟨control, visible⟩))

/-- What stops the reading of words is refused. -/
theorem isRefused_of_scan_error {text : List Char} {fault : Fault}
    (visible : ∀ c ∈ text.head?, isBlank c = false) (h : scan text = .error fault) :
    ∃ c rest, text = c :: rest ∧ IsRefused (c :: rest) ∧ fault = refusal c := by
  cases text with
  | nil => cases h
  | cons c tail =>
    refine ⟨c, tail, rfl, ?_⟩
    rw [scan] at h
    split at h
    · cases h
    · rename_i char
      split at h
      · cases h
      · rename_i number
        split at h
        · cases h
        · rename_i superscript
          split at h
          · rename_i brace
            cases eq_of_beq brace
            split at h
            · cases h
            · rename_i scanned
              cases h
              exact ⟨Or.inr (Or.inl ⟨rfl, not_mem_of_scanNote?_eq_none scanned⟩), rfl⟩
          · rename_i brace
            have brace : c ≠ '\x7b' := by simpa using brace
            split at h
            · cases h
            · rename_i name
              cases h
              refine ⟨isRefused_of_starts_eq_false (visible c rfl) char (by simpa using number)
                (by simpa using superscript) brace (by simpa using name), ?_⟩
              rw [refusal, if_neg brace]

end Lexeme

namespace Scanner

/-- Blanks are passed without a refusal. -/
theorem clean_skipBlanks (s : Scanner) : IsClean s.rest s.skipBlanks.rest :=
  .run (fun _ => isHarmless_of_isBlank) s.rest

/-- Skipping blanks does not move the end of the text. -/
theorem skipBlanks_stop (s : Scanner) :
    s.skipBlanks.position + s.skipBlanks.rest.length = s.position + s.rest.length := by
  have split := congrArg List.length (List.takeWhile_append_dropWhile (p := isBlank) (l := s.rest))
  rw [List.length_append] at split
  simp only [skipBlanks]
  omega

/-- A step that fails has come to a character that starts no word. -/
theorem next_eq_error {s after : Scanner} {e : Error} (h : s.next = (.error e, after)) :
    ∃ fault, Lexeme.scan s.skipBlanks.rest = .error fault ∧
      e = .malformed s.skipBlanks.position fault := by
  unfold next at h
  simp only at h
  split at h
  · cases h
  · rename_i scanned
    cases h
    exact ⟨_, scanned, rfl⟩
  · rename_i scanned
    cases h
    exact ⟨_, scanned, rfl⟩

/-- A step that yields a token passes nothing that is refused. -/
theorem clean_of_next {s after : Scanner} {t : Token} (h : s.next = (.ok t, after)) :
    IsClean s.rest after.rest := by
  obtain ⟨x, rest, scanned, -, rfl⟩ := next_eq_ok h
  exact (clean_skipBlanks s).trans (Lexeme.clean_scan scanned)

/-- A text that is read through is clean. -/
theorem clean_of_tokens {s : Scanner} {tokens : List Token} (h : s.tokens = .ok tokens) :
    IsClean s.rest [] := by
  refine tokens_induction (P := fun s _ => IsClean s.rest []) ?_ ?_ h
  · intro s after t next ended
    obtain ⟨x, rest, scanned, rfl, -⟩ := next_eq_ok next
    cases ended
    have blanks := clean_skipBlanks s
    rwa [Lexeme.eq_nil_of_scan_endOfInput scanned] at blanks
  · intro s after t tokens next notEnd ih
    exact (clean_of_next next).trans ih

/-- A text that is not read through is clean up to a character that is refused. -/
theorem refused_of_tokens {s : Scanner} {e : Error} (h : s.tokens = .error e) :
    ∃ c rest n, IsClean s.rest (c :: rest) ∧ IsRefused (c :: rest) ∧
      n + (c :: rest).length = s.position + s.rest.length ∧ e = .malformed n (Lexeme.refusal c) := by
  induction length : s.rest.length using Nat.strongRecOn generalizing s with
  | ind k ih =>
    subst length
    rw [Scanner.tokens] at h
    split at h
    · rename_i e' after failed
      cases h
      obtain ⟨fault, scanned, rfl⟩ := next_eq_error failed
      have visible : ∀ c ∈ s.skipBlanks.rest.head?, isBlank c = false := by
        intro c hc
        have stop := List.head?_dropWhile_not isBlank s.rest
        rw [show (s.rest.dropWhile isBlank).head? = some c from hc] at stop
        exact stop
      obtain ⟨c, rest, eq, refused, rfl⟩ := Lexeme.isRefused_of_scan_error visible scanned
      refine ⟨c, rest, _, eq ▸ clean_skipBlanks s, refused, ?_, rfl⟩
      rw [← eq]
      exact skipBlanks_stop s
    · rename_i t after next
      split at h
      · cases h
      · rename_i notEnd
        have later : after.tokens = .error e := by
          cases tokens : after.tokens with
          | error e' =>
            rw [tokens] at h
            cases h
            rfl
          | ok others =>
            rw [tokens] at h
            cases h
        obtain ⟨c, rest, n, clean, refused, place, rfl⟩ :=
          ih _ (length_lt_of_next next notEnd) later rfl
        refine ⟨c, rest, n, (clean_of_next next).trans clean, refused, ?_, rfl⟩
        obtain ⟨p, -, text, -, position⟩ := exists_piece_of_next next notEnd
        rw [place, position, text, List.length_append, Nat.add_assoc]

/-- A text that is not cut into words is refused at the first character that can be in no word. -/
theorem refusesAt_of_tokens {text : String} {e : Error}
    (failed : (ofText text).tokens = .error e) :
    ∃ n c, e = .malformed n (Lexeme.refusal c) ∧ RefusesAt text.toList n c ∧
      ∀ m d, RefusesAt text.toList m d → n ≤ m := by
  obtain ⟨c, rest, n, clean, refused, place, rfl⟩ := refused_of_tokens failed
  rw [ofText, Nat.zero_add] at place
  exact ⟨n, c, rfl, clean.refusesAt refused place⟩

end Scanner

/-! ### Refused texts -/

theorem tokenize_eq_error {text : String} {e : Error} :
    tokenize text = .error e ↔ (Scanner.ofText text).tokens = .error e := by
  rw [tokenize]
  cases (Scanner.ofText text).tokens <;> simp [bind, Except.bind, pure, Except.pure]

/-- A text fails to be cut into tokens just if some character outside its notes is refused, and the
error is at the first one. -/
theorem tokenize_eq_error_iff (text : String) :
    ((∃ e, tokenize text = .error e) ↔ ∃ n c, RefusesAt text.toList n c) ∧
    ∀ e, tokenize text = .error e ↔ ∃ n c, RefusesAt text.toList n c ∧
      (∀ m d, RefusesAt text.toList m d → n ≤ m) ∧ e = .malformed n (Lexeme.refusal c) := by
  cases scanned : (Scanner.ofText text).tokens with
  | ok tokens =>
    have clean : ∀ n c, ¬RefusesAt text.toList n c := (Scanner.clean_of_tokens scanned).not_refusesAt
    simp [tokenize_eq_error, scanned, clean]
  | error e =>
    obtain ⟨c, rest, n, clean, refused, place, rfl⟩ := Scanner.refused_of_tokens scanned
    have place : n + (c :: rest).length = text.toList.length := by
      rw [place, Scanner.ofText, Nat.zero_add]
    obtain ⟨here, first⟩ := clean.refusesAt refused place
    have fails := tokenize_eq_error.2 scanned
    refine ⟨⟨fun _ => ⟨n, c, here⟩, fun _ => ⟨_, fails⟩⟩, fun e => ⟨fun failed => ?_, ?_⟩⟩
    · exact ⟨n, c, here, first, Except.error.inj (failed.symm.trans fails)⟩
    · rintro ⟨m, d, there, first', rfl⟩
      have same : m = n := Nat.le_antisymm (first' n c here) (first m d there)
      subst same
      rw [Option.some.inj (there.getElem?.symm.trans here.getElem?)]
      exact fails

end Metrology
