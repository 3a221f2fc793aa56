import Metrology.Proofs.Token.Refusal

/-!
# What a word depends on behind it

A word ends where the characters behind it cannot go on with it: a number goes on with a point only
if a digit stands behind that, and with the marker of an exponent only if digits do; a name is one
of a logarithm if a parenthesis opens behind the blanks. What looks ahead never looks past a blank,
but for that parenthesis. A word is therefore the same in front of any text that is looser than the
one it was scanned in front of: cut off somewhere, or with more blanks in it.
-/
namespace Metrology

open Text (isBlank)

/-- Whether the second text comes of the first by putting in blanks and cutting off the end. -/
inductive Loosens : List Char → List Char → Prop
  | cut (l : List Char) : Loosens l []
  | char (c : Char) {l l' : List Char} : Loosens l l' → Loosens (c :: l) (c :: l')
  | blank {c : Char} {l l' : List Char} : isBlank c = true → Loosens l l' → Loosens l (c :: l')

variable {l l' s rest rest' : List Char} {c : Char}

/-- A text is looser behind a front that is kept. -/
theorem loosens_append (s : List Char) (h : Loosens rest rest') :
    Loosens (s ++ rest) (s ++ rest') := by
  induction s with
  | nil => exact h
  | cons c s ih => exact .char c ih

theorem loosens_append_left (s rest : List Char) : Loosens (s ++ rest) s := by
  have cut := loosens_append s (.cut rest)
  rwa [List.append_nil] at cut

/-- What is no blank stands in the first text as well. -/
theorem Loosens.of_cons (h : Loosens l (c :: l')) (visible : isBlank c = false) :
    ∃ r, l = c :: r ∧ Loosens r l' := by
  cases h with
  | char _ h => exact ⟨_, rfl, h⟩
  | blank blank => rw [blank] at visible; cases visible

/-- What does not go on in the first text does not go on in the second. -/
theorem Loosens.stop {p : Char → Bool} (h : Loosens rest rest')
    (visible : ∀ c, p c = true → isBlank c = false) (stop : ∀ c ∈ rest.head?, p c = false) :
    ∀ c ∈ rest'.head?, p c = false := by
  intro c hc
  cases rest' with
  | nil => cases hc
  | cons d rest' =>
    cases hc
    cases goes : p c with
    | false => rfl
    | true =>
      obtain ⟨r, rfl, -⟩ := h.of_cons (visible c goes)
      rw [stop c rfl] at goes
      cases goes

namespace Lexeme

/-! ### Scanners -/

/-- Whether a scanner takes neither blanks nor braces off the front of a text, and takes the same
off a text that is looser behind. -/
structure IsSteady {α : Type} (f : List Char → α × List Char) : Prop where
  suffix : ∀ text, (f text).2 <:+ text
  ink : ∀ {s rest a}, f (s ++ rest) = (a, rest) → ∀ c ∈ s, isInk c = true
  stable : ∀ {s rest rest' a}, f (s ++ rest) = (a, rest) → Loosens rest rest' →
    f (s ++ rest') = (a, rest')

variable {α β : Type} {f : List Char → α × List Char}

theorem IsSteady.map (h : IsSteady f) (k : α → β) :
    IsSteady fun text => (k (f text).1, (f text).2) where
  suffix := h.suffix
  ink := fun {s rest b} eq => by
    have left : (f (s ++ rest)).2 = rest := congrArg Prod.snd eq
    exact h.ink (Prod.ext rfl left)
  stable := fun {s rest rest' b} eq loose => by
    have left : (f (s ++ rest)).2 = rest := congrArg Prod.snd eq
    have same := h.stable (Prod.ext rfl left) loose
    rw [same, ← (Prod.mk.inj eq).1]

/-- What two scanners take one after the other. -/
theorem IsSteady.split {g : α → List Char → β × List Char} {b : β} (h : IsSteady f)
    (h' : ∀ a, IsSteady (g a)) (eq : g (f (s ++ rest)).1 (f (s ++ rest)).2 = (b, rest)) :
    ∃ s₁ s₂ a, s = s₁ ++ s₂ ∧ f (s₁ ++ (s₂ ++ rest)) = (a, s₂ ++ rest) ∧
      g a (s₂ ++ rest) = (b, rest) := by
  obtain ⟨s₁, first⟩ := h.suffix (s ++ rest)
  obtain ⟨s₂, second⟩ := (h' (f (s ++ rest)).1).suffix (f (s ++ rest)).2
  rw [eq] at second
  rw [← second, ← List.append_assoc] at first
  have parts : s = s₁ ++ s₂ := (List.append_cancel_right first).symm
  refine ⟨s₁, s₂, (f (s ++ rest)).1, parts, ?_, ?_⟩
  · rw [← List.append_assoc, ← parts]
    exact Prod.ext rfl second.symm
  · exact (congrArg _ second).trans eq

/-- Steady scanners one after the other are steady. -/
theorem IsSteady.bind {g : α → List Char → β × List Char} (h : IsSteady f)
    (h' : ∀ a, IsSteady (g a)) : IsSteady fun text => g (f text).1 (f text).2 where
  suffix := fun text => ((h' _).suffix _).trans (h.suffix text)
  ink := fun {s rest b} eq => by
    obtain ⟨s₁, s₂, a, rfl, first, second⟩ := h.split h' eq
    intro c hc
    exact (List.mem_append.1 hc).elim (h.ink first c) ((h' a).ink second c)
  stable := fun {s rest rest' b} eq loose => by
    obtain ⟨s₁, s₂, a, rfl, first, second⟩ := h.split h' eq
    have first := h.stable first (loosens_append s₂ loose)
    rw [List.append_assoc, first]
    exact (h' a).stable second loose

/-- A run of characters other than blanks and braces ends at the latest where something was put in. -/
theorem isSteady_run {p : Char → Bool} (ink : ∀ c, p c = true → isInk c = true) :
    IsSteady fun text => (text.takeWhile p, text.dropWhile p) := by
  -- What is taken is all in front of the rest, which does not go on with the run.
  have run {s rest a : List Char}
      (eq : ((s ++ rest).takeWhile p, (s ++ rest).dropWhile p) = (a, rest)) :
      a = s ∧ (∀ c ∈ s, p c = true) ∧ ∀ c ∈ rest.head?, p c = false := by
    obtain ⟨taken, left⟩ := Prod.mk.inj eq
    have parts := List.takeWhile_append_dropWhile (p := p) (l := s ++ rest)
    have all := List.all_takeWhile (p := p) (l := s ++ rest)
    have stop := List.head?_dropWhile_not p (s ++ rest)
    rw [taken, left] at parts
    rw [taken] at all
    rw [left] at stop
    cases List.append_cancel_right parts
    refine ⟨rfl, List.all_eq_true.1 all, fun c hc => ?_⟩
    rw [hc] at stop
    exact stop
  refine ⟨fun text => List.dropWhile_suffix p, fun eq c hc => ?_, fun eq loose => ?_⟩
  · exact ink c ((run eq).2.1 c hc)
  · obtain ⟨rfl, all, stop⟩ := run eq
    have stop := loose.stop (fun c goes => isBlank_of_isInk (ink c goes)) stop
    rw [takeWhile_append all stop, dropWhile_append all stop]

/-! ### Numbers -/

theorem isSteady_scanDigits : IsSteady scanDigits := isSteady_run fun _ => isInk_of_isDigit

theorem startsWithDigit_iff {text : List Char} :
    startsWithDigit text = true ↔ (scanDigits text).1 ≠ [] := by
  cases text with
  | nil => simp [startsWithDigit, scanDigits]
  | cons c text => cases digit : c.isDigit <;> simp [startsWithDigit, scanDigits, digit]

/-- No digit comes to the front by loosening. -/
theorem startsWithDigit_of_loosens (loose : Loosens l l') (h : startsWithDigit l' = true) :
    startsWithDigit l = true := by
  cases l' with
  | nil => cases h
  | cons c l' =>
    have digit : c.isDigit = true := h
    obtain ⟨r, rfl, -⟩ := loose.of_cons (isDigit_facts digit).2.1
    exact digit

theorem Sign.scan_of_ofChar? {sign : Option Sign} (h : Sign.ofChar? c = sign) (text : List Char) :
    Sign.scan (c :: text) = (sign, if sign.isSome then text else c :: text) := by
  rw [Sign.scan, h]
  cases sign <;> rfl

theorem isInk_of_sign {sign : Sign} (h : Sign.ofChar? c = some sign) : isInk c = true := by
  rw [← Sign.toChar_of_ofChar? h]
  cases sign <;> decide

theorem isSteady_sign : IsSteady Sign.scan := by
  have taken {s rest : List Char} {a : Option Sign} (eq : Sign.scan (s ++ rest) = (a, rest)) :
      s = (a.map Sign.toChar).toList := by
    have parts := Sign.scan_append (s ++ rest)
    rw [eq] at parts
    exact (List.append_cancel_right parts).symm
  refine ⟨fun text => ⟨_, Sign.scan_append text⟩, fun {s rest a} eq c hc => ?_,
    fun {s rest rest' a} eq loose => ?_⟩
  · rw [taken eq] at hc
    rcases a with - | (- | -) <;> cases hc <;> first | decide | contradiction
  · cases taken eq
    cases a with
    | some sign => cases sign <;> rfl
    | none =>
      cases rest' with
      | nil => rfl
      | cons c rest' =>
        cases sign : Sign.ofChar? c with
        | none => exact Sign.scan_of_ofChar? sign rest'
        | some x =>
          obtain ⟨r, rfl, -⟩ := loose.of_cons (isBlank_of_isInk (isInk_of_sign sign))
          rw [Option.map_none, Option.toList_none, List.nil_append, Sign.scan_of_ofChar? sign] at eq
          cases eq

theorem startsWithDigit_sign_of_loosens (loose : Loosens l l')
    (h : startsWithDigit (Sign.scan l').2 = true) : startsWithDigit (Sign.scan l).2 = true := by
  cases l' with
  | nil => cases h
  | cons c l' =>
    cases sign : Sign.ofChar? c with
    | none =>
      rw [Sign.scan_of_ofChar? sign] at h
      have digit : c.isDigit = true := h
      obtain ⟨r, rfl, -⟩ := loose.of_cons (isDigit_facts digit).2.1
      rw [Sign.scan_of_ofChar? sign]
      exact digit
    | some x =>
      obtain ⟨r, rfl, behind⟩ := loose.of_cons (isBlank_of_isInk (isInk_of_sign sign))
      rw [Sign.scan_of_ofChar? sign] at h ⊢
      exact startsWithDigit_of_loosens behind h

theorem isInk_of_marker (h : (c == 'e' || c == 'E') = true) : isInk c = true := by
  simp only [Bool.or_eq_true, beq_iff_eq] at h
  rcases h with rfl | rfl <;> decide

/-- The sign and the digits that are scanned behind the marker of an exponent. -/
def scanBehindMarker (text : List Char) : (Option Sign × List Char) × List Char :=
  (((Sign.scan text).1, (scanDigits (Sign.scan text).2).1), (scanDigits (Sign.scan text).2).2)

theorem isSteady_scanBehindMarker : IsSteady scanBehindMarker :=
  isSteady_sign.bind fun sign => isSteady_scanDigits.map (Prod.mk sign)

theorem scanExponent_cons (c : Char) (text : List Char) : Exponent.scan (c :: text) =
    if (c == 'e' || c == 'E') && startsWithDigit (Sign.scan text).2 then
      (some ⟨c, (scanBehindMarker text).1.1, (scanBehindMarker text).1.2⟩, (scanBehindMarker text).2)
    else (none, c :: text) := rfl

/-- What is scanned is no exponent, or a marker with an optional sign and digits behind it. -/
theorem taken_of_scanExponent {a : Option Exponent} (eq : Exponent.scan (s ++ rest) = (a, rest)) :
    (s = [] ∧ a = none) ∨ ∃ c tail sign digits, s = c :: tail ∧ (c == 'e' || c == 'E') = true ∧
      digits ≠ [] ∧ a = some ⟨c, sign, digits⟩ ∧
      scanBehindMarker (tail ++ rest) = ((sign, digits), rest) := by
  have parts := Exponent.scan_append (s ++ rest)
  rw [eq] at parts
  have parts := List.append_cancel_right parts
  cases a with
  | none => exact Or.inl ⟨parts.symm, rfl⟩
  | some e =>
    obtain ⟨c, tail, rfl⟩ : ∃ c tail, s = c :: tail := ⟨_, _, parts.symm⟩
    rw [List.cons_append, scanExponent_cons] at eq
    split at eq
    · rename_i starts
      obtain ⟨marker, digit⟩ := Bool.and_eq_true_iff.1 starts
      obtain ⟨scanned, left⟩ := Prod.mk.inj eq
      exact Or.inr ⟨c, tail, _, _, rfl, marker, startsWithDigit_iff.1 digit, scanned.symm,
        Prod.ext rfl left⟩
    · cases eq

theorem isSteady_exponent : IsSteady Exponent.scan := by
  refine ⟨fun text => ⟨_, Exponent.scan_append text⟩, fun eq c hc => ?_,
    fun {s rest rest' a} eq loose => ?_⟩
  · rcases taken_of_scanExponent eq with ⟨rfl, -⟩ | ⟨c, tail, sign, digits, rfl, marker, -, -, behind⟩
    · cases hc
    · rcases List.mem_cons.1 hc with rfl | hc
      · exact isInk_of_marker marker
      · exact isSteady_scanBehindMarker.ink behind _ hc
  · rcases taken_of_scanExponent eq with
      ⟨rfl, rfl⟩ | ⟨c, tail, sign, digits, rfl, marker, some, rfl, behind⟩
    · -- An exponent in the second text would be one in the first.
      cases rest' with
      | nil => rfl
      | cons c rest' =>
        rw [List.nil_append, scanExponent_cons, if_neg]
        intro starts
        obtain ⟨marker, digit⟩ := Bool.and_eq_true_iff.1 starts
        obtain ⟨r, rfl, behind⟩ := loose.of_cons (isBlank_of_isInk (isInk_of_marker marker))
        rw [List.nil_append, scanExponent_cons, marker,
          startsWithDigit_sign_of_loosens behind digit] at eq
        cases eq
    · have same := isSteady_scanBehindMarker.stable behind loose
      have digit : startsWithDigit (Sign.scan (tail ++ rest')).2 = true := by
        have digits : (scanDigits (Sign.scan (tail ++ rest')).2).1 = digits :=
          congrArg (fun scanned => scanned.1.2) same
        rw [startsWithDigit_iff, digits]
        exact some
      rw [List.cons_append, scanExponent_cons, marker, digit, same]
      rfl

/-- What is scanned is no fraction, or a point with digits behind it. -/
theorem taken_of_scanFraction {a : List Char} (eq : Numeral.scanFraction (s ++ rest) = (a, rest)) :
    (s = [] ∧ a = []) ∨ (a ≠ [] ∧ s = '.' :: a ∧ scanDigits (a ++ rest) = (a, rest)) := by
  have parts := Numeral.scanFraction_append (s ++ rest)
  rw [eq] at parts
  have parts := List.append_cancel_right parts
  cases a with
  | nil => exact Or.inl ⟨parts.symm, rfl⟩
  | cons d a =>
    cases parts
    refine Or.inr ⟨List.cons_ne_nil d a, rfl, ?_⟩
    rw [List.isEmpty_cons, if_neg Bool.false_ne_true, List.cons_append, Numeral.scanFraction] at eq
    split at eq
    · exact eq
    · cases eq

theorem isSteady_fraction : IsSteady Numeral.scanFraction := by
  refine ⟨fun text => ⟨_, Numeral.scanFraction_append text⟩, fun eq c hc => ?_,
    fun {s rest rest' a} eq loose => ?_⟩
  · rcases taken_of_scanFraction eq with ⟨rfl, -⟩ | ⟨-, rfl, digits⟩
    · cases hc
    · rcases List.mem_cons.1 hc with rfl | hc
      · decide
      · exact isSteady_scanDigits.ink digits _ hc
  · rcases taken_of_scanFraction eq with ⟨rfl, rfl⟩ | ⟨some, rfl, digits⟩
    · rw [List.nil_append] at eq ⊢
      unfold Numeral.scanFraction
      split
      · rename_i rest'
        obtain ⟨r, rfl, behind⟩ := loose.of_cons (by decide)
        split
        · rename_i digit
          have digit := startsWithDigit_of_loosens behind digit
          rw [Numeral.scanFraction, if_pos digit] at eq
          exact absurd (congrArg Prod.fst eq) (startsWithDigit_iff.1 digit)
        · rfl
      · rfl
    · have same := isSteady_scanDigits.stable digits loose
      have digit : startsWithDigit (a ++ rest') = true := by
        rw [startsWithDigit_iff, same]
        exact some
      rw [List.cons_append, Numeral.scanFraction, if_pos digit, same]

/-- Numbers are scanned alike in looser texts. -/
theorem isSteady_numeral : IsSteady Numeral.scan :=
  isSteady_scanDigits.bind fun whole => isSteady_fraction.bind fun fraction =>
    isSteady_exponent.map (Numeral.mk whole fraction)

/-- A literal starts where there are digits in front of a point or behind one. -/
theorem starts_iff {text : List Char} : Numeral.starts text = true ↔
    (Numeral.scan text).1.whole ≠ [] ∨ (Numeral.scan text).1.fraction ≠ [] := by
  rw [Numeral.scan]
  cases text with
  | nil => simp [Numeral.starts, startsWithDigit, scanDigits, Numeral.scanFraction]
  | cons c tail =>
    cases digit : c.isDigit with
    | true =>
      have point : c ≠ '.' := (isDigit_facts digit).2.2.1
      simp [Numeral.starts, startsWithDigit, scanDigits, digit, point]
    | false =>
      by_cases point : c = '.'
      · subst point
        have fraction : startsWithDigit tail = true ↔ (scanDigits tail).1 ≠ [] := startsWithDigit_iff
        cases starts : startsWithDigit tail with
        | true => simpa [Numeral.starts, scanDigits, Numeral.scanFraction, starts] using fraction
        | false => simp [Numeral.starts, scanDigits, Numeral.scanFraction, starts]
      · simp [Numeral.starts, startsWithDigit, scanDigits, Numeral.scanFraction, digit, point]

theorem starts_of_loosens {literal : Numeral} (starts : Numeral.starts (s ++ rest) = true)
    (scanned : Numeral.scan (s ++ rest) = (literal, rest)) (loose : Loosens rest rest') :
    Numeral.starts (s ++ rest') = true := by
  rw [starts_iff, scanned] at starts
  rw [starts_iff, isSteady_numeral.stable scanned loose]
  exact starts

/-! ### Words -/

theorem isSteady_scanSuperscript : IsSteady scanSuperscript :=
  (isSteady_run fun _ => isInk_of_isSuperscript).map fun run =>
    superscript (run.filterMap Text.ofSuperscript?)

theorem ofChar?_ne_note {a : String} : ofChar? c ≠ some (note a) := by
  unfold ofChar?
  split <;> simp

theorem ofName_cases (name rest : List Char) :
    (∃ s, ofName name rest = identifier s) ∨ ∃ base, ofName name rest = logarithm base := by
  unfold ofName
  split
  · split
    · exact Or.inr ⟨_, rfl⟩
    · exact Or.inl ⟨_, rfl⟩
  · exact Or.inl ⟨_, rfl⟩

theorem ofName_ne_note (name rest : List Char) (a : String) : ofName name rest ≠ note a := by
  rcases ofName_cases name rest with ⟨s, eq⟩ | ⟨base, eq⟩ <;> simp [eq]

/-- What a word is made of: it is a note, or has neither blanks nor braces in it. -/
def IsPlainOrNote (x : Lexeme) (word : List Char) : Prop :=
  (∃ inner, '\x7d' ∉ inner ∧ x = note (String.ofList inner) ∧ word = '\x7b' :: (inner ++ ['\x7d'])) ∨
    ((∀ a, x ≠ note a) ∧ ∀ c ∈ word, isInk c = true)

/-- Whether a word that is scanned in front of a text is so in front of any text that is looser,
unless a parenthesis that opens there is cut off. -/
structure IsFixed (x : Lexeme) (word rest : List Char) : Prop where
  isPlainOrNote : IsPlainOrNote x word
  loosens : ∀ rest', Loosens rest rest' → opensParen rest' = opensParen rest →
    scan (word ++ rest') = .ok (x, rest')

variable {x : Lexeme} {tail : List Char}

theorem isFixed_char (char : ofChar? c = some x) (rest : List Char) : IsFixed x [c] rest where
  isPlainOrNote := by
    refine Or.inr ⟨?_, fun d hd => List.mem_singleton.1 hd ▸ isInk_of_ofChar? char⟩
    rintro a rfl
    exact ofChar?_ne_note char
  loosens := fun rest' _ _ => by simp only [List.cons_append, List.nil_append, scan, char]

theorem isFixed_number {literal : Numeral} (char : ofChar? c = none)
    (starts : Numeral.starts (c :: tail ++ rest) = true)
    (scanned : Numeral.scan (c :: tail ++ rest) = (literal, rest)) :
    IsFixed (number literal) (c :: tail) rest where
  isPlainOrNote := Or.inr ⟨by simp, isSteady_numeral.ink scanned⟩
  loosens := fun rest' loose _ => by
    have same := isSteady_numeral.stable scanned loose
    have starts := starts_of_loosens starts scanned loose
    rw [List.cons_append] at same starts ⊢
    simp only [scan, char, starts, same, if_true]

theorem isFixed_superscript (h : isSuperscript c = true)
    (scanned : scanSuperscript (c :: tail ++ rest) = (x, rest)) : IsFixed x (c :: tail) rest where
  isPlainOrNote := by
    refine Or.inr ⟨?_, isSteady_scanSuperscript.ink scanned⟩
    rw [← (Prod.mk.inj scanned).1]
    simp
  loosens := fun rest' loose _ => by
    rw [← isSteady_scanSuperscript.stable scanned loose]
    exact scan_of_isSuperscript h _

/-- A note is scanned up to its brace, whatever follows. -/
theorem isFixed_note {inner : List Char} (scanned : scanNote? (tail ++ rest) = some (inner, rest)) :
    IsFixed (note (String.ofList inner)) ('\x7b' :: tail) rest := by
  have closed := not_mem_of_scanNote? scanned
  have whole : tail ++ rest = (inner ++ ['\x7d']) ++ rest := by
    rw [scanNote?_eq_some scanned, List.append_assoc]
    rfl
  obtain rfl := List.append_cancel_right whole
  exact ⟨Or.inl ⟨inner, closed, rfl, rfl⟩, fun rest' _ _ => scan_note closed rest'⟩

theorem isSteady_name : IsSteady fun text =>
    (text.takeWhile continuesIdentifier, text.dropWhile continuesIdentifier) :=
  isSteady_run fun _ => isInk_of_continues

/-- A name stays one, unless it was a logarithm whose parenthesis is cut off. -/
theorem isFixed_name (h : startsIdentifier c = true)
    (scanned : scanName (c :: tail ++ rest) = (x, rest)) : IsFixed x (c :: tail) rest := by
  obtain ⟨name, left⟩ := Prod.mk.inj scanned
  have run : ((c :: tail ++ rest).takeWhile continuesIdentifier,
      (c :: tail ++ rest).dropWhile continuesIdentifier) = (_, rest) := Prod.ext rfl left
  rw [left] at name
  refine ⟨Or.inr ⟨name ▸ ofName_ne_note _ _, isSteady_name.ink run⟩, fun rest' loose paren => ?_⟩
  obtain ⟨same, left'⟩ := Prod.mk.inj (isSteady_name.stable run loose)
  have scanned' : scanName (c :: tail ++ rest') = (x, rest') := by
    simp only [scanName, same, left', ← name, ofName, paren]
  rw [← scanned']
  exact scan_of_startsIdentifier h _

/-- Whether a word in front of a text is scanned as the lexeme. -/
structure IsWord (x : Lexeme) (word rest : List Char) : Prop where
  nonempty : word ≠ []
  scanned : scan (word ++ rest) = .ok (x, rest)

theorem IsWord.isFixed (word : IsWord x s rest) : IsFixed x s rest := by
  obtain ⟨some, h⟩ := word
  obtain ⟨c, tail, rfl⟩ := List.exists_cons_of_ne_nil some
  rw [List.cons_append, scan] at h
  split at h
  · rename_i char
    obtain ⟨rfl, left⟩ := Prod.mk.inj (Except.ok.inj h)
    obtain rfl : tail = [] := List.append_left_eq_self.1 left
    exact isFixed_char char rest
  · rename_i char
    split at h
    · rename_i starts
      obtain ⟨rfl, left⟩ := Prod.mk.inj (Except.ok.inj h)
      exact isFixed_number char starts (Prod.ext rfl left)
    · split at h
      · rename_i superscript
        exact isFixed_superscript superscript (Except.ok.inj h)
      · split at h
        · rename_i brace
          cases eq_of_beq brace
          split at h
          · rename_i scanned
            obtain ⟨rfl, rfl⟩ := Prod.mk.inj (Except.ok.inj h)
            exact isFixed_note scanned
          · cases h
        · split at h
          · rename_i starts
            exact isFixed_name starts (Except.ok.inj h)
          · cases h

variable {word : List Char}

theorem IsWord.isPlainOrNote (h : IsWord x word rest) : IsPlainOrNote x word :=
  h.isFixed.isPlainOrNote

theorem IsWord.loosens (h : IsWord x word rest) (loose : Loosens rest rest')
    (paren : opensParen rest' = opensParen rest) : IsWord x word rest' :=
  ⟨h.nonempty, h.isFixed.loosens rest' loose paren⟩

/-- A word does not start with a blank. -/
theorem IsWord.visible (h : IsWord x word rest) :
    ∀ c ∈ (word ++ rest).head?, isBlank c = false := by
  obtain ⟨c, tail, rfl⟩ := List.exists_cons_of_ne_nil h.nonempty
  rintro _ ⟨rfl⟩
  rcases h.isPlainOrNote with ⟨inner, -, -, eq⟩ | ⟨-, ink⟩
  · cases eq
    decide
  · exact isBlank_of_isInk (ink _ (by simp))

theorem IsWord.length_notEnd (h : IsWord x word rest) : word.length = x.width ∧ x ≠ endOfInput := by
  obtain ⟨c, tail, rfl⟩ := List.exists_cons_of_ne_nil h.nonempty
  obtain ⟨notEnd, spelling, spelled, eq⟩ := exists_spelling_of_scan h.scanned
  obtain rfl : c :: tail = spelling := List.append_cancel_right eq
  exact ⟨length_of_mem_spellings spelled, notEnd⟩

/-- What is scanned is a word in front of what is left. -/
theorem exists_isWord_of_scan {text : List Char} (h : scan text = .ok (x, rest))
    (notEnd : x ≠ endOfInput) : ∃ word, IsWord x word rest ∧ text = word ++ rest := by
  cases text with
  | nil =>
    cases h
    exact absurd rfl notEnd
  | cons c tail =>
    obtain ⟨-, word, spelled, eq⟩ := exists_spelling_of_scan h
    refine ⟨word, ⟨?_, eq ▸ h⟩, eq⟩
    rintro rfl
    have shorter := length_lt_of_scan h notEnd
    rw [eq, List.nil_append] at shorter
    exact Nat.lt_irrefl _ shorter

/-! ### Parentheses behind blanks -/

theorem opensParen_blank (blank : isBlank c = true) (text : List Char) :
    opensParen (c :: text) = opensParen text := by
  rw [opensParen, List.dropWhile_cons_of_pos blank]
  rfl

theorem opensParen_visible (visible : isBlank c = false) (text : List Char) :
    opensParen (c :: text) = (c == '(') := by
  rw [opensParen, List.dropWhile_cons_of_neg (by simp [visible])]
  rfl

/-- In front of a note a text can be cut off: what opens there is no parenthesis. -/
theorem opensParen_append_brace (text rest : List Char) :
    opensParen (text ++ '\x7b' :: rest) = opensParen text := by
  induction text with
  | nil => rfl
  | cons c text ih =>
    rw [List.cons_append]
    cases blank : isBlank c with
    | true => rw [opensParen_blank blank, opensParen_blank blank, ih]
    | false => rw [opensParen_visible blank, opensParen_visible blank]

end Lexeme

/-! ### Texts word by word -/

namespace Scanner

open Lexeme (IsWord)

theorem skipBlanks_of_visible {blanks text : List Char} (n : Nat)
    (blank : ∀ c ∈ blanks, isBlank c = true) (visible : ∀ c ∈ text.head?, isBlank c = false) :
    (Scanner.mk (blanks ++ text) n).skipBlanks = ⟨text, n + blanks.length⟩ := by
  rw [skipBlanks, takeWhile_append blank visible, dropWhile_append blank visible]

theorem tokens_of_blank {text : List Char} (n : Nat) (blank : ∀ c ∈ text, isBlank c = true) :
    (Scanner.mk text n).tokens = .ok [] := by
  have skipped : (Scanner.mk (text ++ []) n).skipBlanks = ⟨[], n + text.length⟩ :=
    skipBlanks_of_visible n blank nofun
  rw [List.append_nil] at skipped
  have ended : Lexeme.scan (Scanner.mk text n).skipBlanks.rest = .ok (.endOfInput, []) := by
    rw [skipped]
    rfl
  exact tokens_of_scan_end ended

/-- A word behind blanks is the first token of the text. -/
theorem tokens_of_word {x : Lexeme} {blanks word rest : List Char} {tokens : List Token} (n : Nat)
    (blank : ∀ c ∈ blanks, isBlank c = true) (h : IsWord x word rest)
    (behind : (Scanner.mk rest (n + blanks.length + word.length)).tokens = .ok tokens) :
    (Scanner.mk (blanks ++ (word ++ rest)) n).tokens = .ok (⟨x, n + blanks.length⟩ :: tokens) := by
  obtain ⟨length, notEnd⟩ := h.length_notEnd
  have skipped := skipBlanks_of_visible n blank h.visible
  have next := next_of_scan (s := ⟨blanks ++ (word ++ rest), n⟩) (by rw [skipped]; exact h.scanned)
  rw [skipped, ← length] at next
  exact tokens_of_next _ next notEnd behind

/-- What holds of the blanks at the end of a text, and of a word with blanks in front of it once it
holds of what follows, holds of every text that is read through. -/
theorem tokens_induction_words {P : List Char → Nat → List Token → Prop}
    (ended : ∀ {text} n, (∀ c ∈ text, isBlank c = true) → P text n [])
    (step : ∀ {x blanks word rest tokens} n, (∀ c ∈ blanks, isBlank c = true) → IsWord x word rest →
      (Scanner.mk rest (n + blanks.length + word.length)).tokens = .ok tokens →
      P rest (n + blanks.length + word.length) tokens →
      P (blanks ++ (word ++ rest)) n (⟨x, n + blanks.length⟩ :: tokens))
    {text : List Char} {n : Nat} {tokens : List Token} (h : (Scanner.mk text n).tokens = .ok tokens) :
    P text n tokens := by
  refine (tokens_induction (P := fun s tokens => s.tokens = .ok tokens ∧ P s.rest s.position tokens)
    ?_ ?_ h).2
  · intro s after t next atEnd
    exact ⟨tokens_of_end after next atEnd, ended s.position (isBlank_of_next_endOfInput next atEnd)⟩
  · intro s after t tokens next notEnd ih
    refine ⟨tokens_of_next after next notEnd ih.1, ?_⟩
    obtain ⟨blanks, blank, text, position⟩ : ∃ blanks, (∀ c ∈ blanks, isBlank c = true) ∧
        s.rest = blanks ++ s.skipBlanks.rest ∧ s.skipBlanks.position = s.position + blanks.length :=
      ⟨_, forall_takeWhile_isBlank s.rest, List.takeWhile_append_dropWhile.symm, rfl⟩
    obtain ⟨x, rest, scanned, rfl, rfl⟩ := next_eq_ok next
    obtain ⟨word, isWord, spelled⟩ := Lexeme.exists_isWord_of_scan scanned notEnd
    rw [position, ← isWord.length_notEnd.1] at ih
    rw [text, position, spelled]
    exact step s.position blank isWord ih.1 ih.2

/-- The tokens of a text are those that the scanner finds from its start, and the end token. -/
theorem tokens_of_tokenize {text : String} {tokens : List Token} (h : tokenize text = .ok tokens) :
    ∃ words, (ofText text).tokens = .ok words ∧ tokens = words ++ [⟨.endOfInput, text.length⟩] := by
  rw [tokenize] at h
  cases scanned : (ofText text).tokens with
  | error e =>
    rw [scanned] at h
    cases h
  | ok words =>
    rw [scanned] at h
    exact ⟨words, rfl, (Except.ok.inj h).symm⟩

end Scanner

end Metrology
