import Metrology.Proofs.Token.Spelling

/-!
# Tokens keep the text

A text that is read through is blanks and words by turns: the words are the tokens, each as it is
spelled and at the place where it stands, and nothing of the text is left out. What `Exponent.scan`
tries and gives back is part of the next word.
-/
namespace Metrology

/-! ### Numbers -/

theorem Sign.toChar_of_ofChar? {c : Char} {sign : Sign} (h : ofChar? c = some sign) :
    sign.toChar = c := by
  unfold ofChar? at h
  split at h
  · cases h
    rfl
  · cases h
    rfl
  · cases h

theorem scanDigits_append (text : List Char) : (scanDigits text).1 ++ (scanDigits text).2 = text :=
  List.takeWhile_append_dropWhile

theorem Sign.scan_append (text : List Char) :
    ((scan text).1.map toChar).toList ++ (scan text).2 = text := by
  unfold scan
  split
  · rfl
  · split
    · rename_i sign
      simp [toChar_of_ofChar? sign]
    · rfl

/-- What is scanned of an exponent and what is left make up the text. -/
theorem Exponent.scan_append (text : List Char) :
    ((scan text).1.map Exponent.text).getD [] ++ (scan text).2 = text := by
  unfold scan
  split
  · rfl
  · rename_i marker rest
    have sign := Sign.scan_append rest
    have digits := scanDigits_append (Sign.scan rest).2
    simp only
    split
    · simp only [Option.map_some, Option.getD_some, Exponent.text, List.cons_append,
        List.append_assoc, digits, sign]
    · rfl

theorem Numeral.scanFraction_append (text : List Char) :
    (if (scanFraction text).1.isEmpty then [] else '.' :: (scanFraction text).1) ++
      (scanFraction text).2 = text := by
  unfold scanFraction
  split
  · rename_i rest
    split
    · rename_i starts
      have some : (scanDigits rest).1 ≠ [] := by
        cases rest with
        | nil => cases starts
        | cons c rest =>
          have digit : c.isDigit = true := starts
          simp [scanDigits, digit]
      rw [if_neg (by simpa using some), List.cons_append, scanDigits_append]
    · rfl
  · rfl

/-- A literal and what is left behind it are the text. -/
theorem Numeral.scan_append (text : List Char) : (scan text).1.text ++ (scan text).2 = text := by
  unfold scan Numeral.text
  rw [List.append_assoc, Exponent.scan_append, List.append_assoc, scanFraction_append,
    scanDigits_append]

namespace Lexeme

/-! ### Words -/

/-- The ways to spell a word. A logarithm has a second one in capitals. -/
def spellings (x : Lexeme) : List (List Char) :=
  match x with
  | note _ => [['\x7b'] ++ x.value.toList ++ ['\x7d']]
  | superscript _ => [x.value.toList.map Text.toSuperscript]
  | logarithm .natural => [['l', 'n'], ['L', 'N']]
  | logarithm (.decimal _) =>
    [['l', 'o', 'g'] ++ x.value.toList, ['L', 'O', 'G'] ++ x.value.toList]
  | _ => [x.value.toList]

theorem length_of_mem_spellings {x : Lexeme} {s : List Char} (h : s ∈ x.spellings) :
    s.length = x.width := by
  cases x with
  | note text =>
    cases List.mem_singleton.1 h
    simp [width, value, String.length_toList]
  | logarithm base =>
    cases base with
    | natural =>
      simp only [spellings, List.mem_cons, List.not_mem_nil, or_false] at h
      rcases h with rfl | rfl <;> rfl
    | decimal digits =>
      simp only [spellings, List.mem_cons, List.not_mem_nil, or_false] at h
      rcases h with rfl | rfl <;> simp [width, value, LogBase.width, LogBase.name] <;> omega
  | superscript digits =>
    cases List.mem_singleton.1 h
    simp [width, value]
  | _ =>
    cases List.mem_singleton.1 h
    exact String.length_toList

theorem mem_spellings_of_ofChar? {c : Char} {x : Lexeme} (h : ofChar? c = some x) :
    [c] ∈ x.spellings ∧ x ≠ endOfInput := by
  unfold ofChar? at h
  split at h <;> cases h <;> simp [spellings, value]

theorem mem_spellings_of_ofName? {name : List Char} {base : LogBase}
    (h : LogBase.ofName? name = some base) : name ∈ (logarithm base).spellings := by
  unfold LogBase.ofName? at h
  split at h
  · cases h
    simp [spellings]
  · cases h
    simp [spellings]
  · split at h
    · cases h
      simp [spellings, value, LogBase.name]
    · cases h
  · split at h
    · cases h
      simp [spellings, value, LogBase.name]
    · cases h
  · cases h

/-- A name is a spelling of the word that it is taken for. -/
theorem mem_spellings_ofName (name rest : List Char) :
    name ∈ (ofName name rest).spellings ∧ ofName name rest ≠ endOfInput := by
  have identifier : name ∈ (identifier (String.ofList name)).spellings := by
    simp [spellings, value]
  unfold ofName
  split
  · rename_i named
    split
    · exact ⟨mem_spellings_of_ofName? named, nofun⟩
    · exact ⟨identifier, nofun⟩
  · exact ⟨identifier, nofun⟩

/-- The superscripts of a run are spelled by the digits that they stand for. -/
theorem map_toSuperscript_filterMap {l : List Char} (h : ∀ c ∈ l, isSuperscript c = true) :
    (l.filterMap Text.ofSuperscript?).map Text.toSuperscript = l := by
  induction l with
  | nil => rfl
  | cons c l ih =>
    obtain ⟨first, others⟩ := List.forall_mem_cons.1 h
    obtain ⟨d, digit⟩ := Option.isSome_iff_exists.1 first
    rw [List.filterMap_cons_some digit, List.map_cons, Text.ofSuperscript?_eq_some digit,
      ih others]

theorem scanNote?_eq_some {text inner rest : List Char} (h : scanNote? text = some (inner, rest)) :
    text = inner ++ '\x7d' :: rest := by
  have stop := List.head?_dropWhile_not (· != '\x7d') text
  have split := List.takeWhile_append_dropWhile (p := (· != '\x7d')) (l := text)
  unfold scanNote? at h
  split at h
  · cases h
  · rename_i c after eq
    cases h
    rw [eq] at stop split
    have closing : c = '\x7d' := by simpa using stop
    rw [closing] at split
    exact split.symm

/-- A text that is not empty is the scanned word, in one of its spellings, and the text behind
it. -/
theorem exists_spelling_of_scan {c : Char} {tail rest : List Char} {x : Lexeme}
    (h : scan (c :: tail) = .ok (x, rest)) :
    x ≠ endOfInput ∧ ∃ s ∈ x.spellings, c :: tail = s ++ rest := by
  rw [scan] at h
  split at h
  · rename_i char
    cases h
    obtain ⟨spelled, notEnd⟩ := mem_spellings_of_ofChar? char
    exact ⟨notEnd, [c], spelled, rfl⟩
  · split at h
    · cases h
      refine ⟨by simp, (Numeral.scan (c :: tail)).1.text, ?_, (Numeral.scan_append _).symm⟩
      simp [spellings, value]
    · split at h
      · cases h
        have run := map_toSuperscript_filterMap
          (List.all_eq_true.1 (List.all_takeWhile (p := isSuperscript) (l := c :: tail)))
        refine ⟨by simp, (c :: tail).takeWhile isSuperscript, ?_,
          List.takeWhile_append_dropWhile.symm⟩
        simp only [spellings, value, String.toList_ofList, run, List.mem_singleton]
      · split at h
        · rename_i brace
          split at h
          · rename_i inner _ scanned
            cases h
            cases eq_of_beq brace
            refine ⟨by simp, ['\x7b'] ++ inner ++ ['\x7d'], by simp [spellings, value], ?_⟩
            simp [scanNote?_eq_some scanned]
          · cases h
        · split at h
          · cases h
            obtain ⟨spelled, notEnd⟩ := mem_spellings_ofName
              ((c :: tail).takeWhile continuesIdentifier)
              ((c :: tail).dropWhile continuesIdentifier)
            exact ⟨notEnd, _, spelled, List.takeWhile_append_dropWhile.symm⟩
          · cases h

theorem eq_nil_of_scan_endOfInput {text rest : List Char}
    (h : scan text = .ok (endOfInput, rest)) : text = [] := by
  cases text with
  | nil => rfl
  | cons c tail => exact absurd rfl (exists_spelling_of_scan h).1

end Lexeme

/-! ### Pieces of a text -/

/-- A word of a text with the blanks in front of it, and the token that it is read as. -/
structure Piece where
  blanks : List Char
  spelling : List Char
  token : Token
  isBlank : ∀ c ∈ blanks, Text.isBlank c = true
  isSpelled : spelling ∈ token.lexeme.spellings
  notEnd : token.lexeme ≠ .endOfInput

def Piece.text (p : Piece) : List Char := p.blanks ++ p.spelling

/-- Whether each token has the place that its word has in the text, when the first piece starts
at the position. -/
def ArePlaced (position : Nat) (pieces : List Piece) : Prop :=
  ∀ front p back, pieces = front ++ p :: back →
    p.token.position = position + (front.flatMap Piece.text ++ p.blanks).length

theorem arePlaced_nil (position : Nat) : ArePlaced position [] := by
  intro front p back eq
  simp at eq

/-- The places of pieces start behind the first one. -/
theorem ArePlaced.cons {position : Nat} {p : Piece} {pieces : List Piece}
    (first : p.token.position = position + p.blanks.length)
    (h : ArePlaced (position + p.text.length) pieces) : ArePlaced position (p :: pieces) := by
  intro front q back eq
  cases front with
  | nil =>
    obtain ⟨rfl, -⟩ := List.cons.inj eq
    simpa using first
  | cons p' front =>
    obtain ⟨rfl, others⟩ := List.cons.inj eq
    have place := h front q back others
    simp only [List.length_append, List.flatMap_cons] at place ⊢
    omega

namespace Scanner

theorem forall_takeWhile_isBlank (text : List Char) :
    ∀ c ∈ text.takeWhile Text.isBlank, Text.isBlank c = true :=
  List.all_eq_true.1 List.all_takeWhile

/-- A step of the scanner takes one piece off the text. -/
theorem exists_piece_of_next {s after : Scanner} {t : Token} (h : s.next = (.ok t, after))
    (notEnd : t.lexeme ≠ .endOfInput) :
    ∃ p : Piece, p.token = t ∧ s.rest = p.text ++ after.rest ∧
      t.position = s.position + p.blanks.length ∧
      after.position = s.position + p.text.length := by
  have blanks := List.takeWhile_append_dropWhile (p := Text.isBlank) (l := s.rest)
  obtain ⟨x, rest, scanned, rfl, rfl⟩ := next_eq_ok h
  simp only [skipBlanks] at scanned
  generalize s.rest.dropWhile Text.isBlank = word at scanned blanks
  cases word with
  | nil =>
    cases scanned
    exact absurd rfl notEnd
  | cons c tail =>
    obtain ⟨-, spelling, spelled, eq⟩ := Lexeme.exists_spelling_of_scan scanned
    refine ⟨⟨_, spelling, _, forall_takeWhile_isBlank s.rest, spelled, notEnd⟩, rfl, ?_, rfl, ?_⟩
    · simp only [Piece.text, List.append_assoc, ← eq, blanks]
    · have width := Lexeme.length_of_mem_spellings spelled
      simp only [Piece.text, skipBlanks, List.length_append]
      omega

/-- The end token is read where only blanks are left. -/
theorem isBlank_of_next_endOfInput {s after : Scanner} {t : Token} (h : s.next = (.ok t, after))
    (ended : t.lexeme = .endOfInput) : ∀ c ∈ s.rest, Text.isBlank c = true := by
  have blanks := List.takeWhile_append_dropWhile (p := Text.isBlank) (l := s.rest)
  obtain ⟨x, rest, scanned, rfl, rfl⟩ := next_eq_ok h
  cases ended
  have atEnd : s.rest.dropWhile Text.isBlank = [] := Lexeme.eq_nil_of_scan_endOfInput scanned
  rw [atEnd, List.append_nil] at blanks
  rw [← blanks]
  exact forall_takeWhile_isBlank s.rest

/-- The tokens from a place on cut the rest of the text into pieces. -/
theorem exists_pieces_of_tokens {s : Scanner} {tokens : List Token} (h : s.tokens = .ok tokens) :
    ∃ (pieces : List Piece) (blanks : List Char),
      s.rest = pieces.flatMap Piece.text ++ blanks ∧ (∀ c ∈ blanks, Text.isBlank c = true) ∧
      pieces.map Piece.token = tokens ∧ ArePlaced s.position pieces := by
  refine tokens_induction (P := fun s tokens => ∃ (pieces : List Piece) (blanks : List Char),
    s.rest = pieces.flatMap Piece.text ++ blanks ∧ (∀ c ∈ blanks, Text.isBlank c = true) ∧
    pieces.map Piece.token = tokens ∧ ArePlaced s.position pieces) ?_ ?_ h
  · intro s after t next ended
    exact ⟨[], s.rest, rfl, isBlank_of_next_endOfInput next ended, rfl, arePlaced_nil _⟩
  · intro s after t tokens next notEnd ih
    obtain ⟨p, rfl, text, first, position⟩ := exists_piece_of_next next notEnd
    obtain ⟨pieces, blanks, rest, blank, words, placed⟩ := ih
    rw [position] at placed
    refine ⟨p :: pieces, blanks, ?_, blank, by rw [List.map_cons, words], placed.cons first⟩
    rw [text, rest, List.flatMap_cons, List.append_assoc]

/-- The word of a token stands in the text at the position of the token. -/
theorem exists_spelling_of_mem {text : String} {tokens : List Token}
    (scanned : (ofText text).tokens = .ok tokens) {t : Token} (member : t ∈ tokens) :
    ∃ front word back, text.toList = front ++ word ++ back ∧ front.length = t.position ∧
      word ∈ t.lexeme.spellings := by
  obtain ⟨pieces, blanks, chars, -, rfl, placed⟩ := exists_pieces_of_tokens scanned
  obtain ⟨piece, among, rfl⟩ := List.mem_map.1 member
  obtain ⟨front, back, rfl⟩ := List.append_of_mem among
  have position := placed front piece back rfl
  refine ⟨front.flatMap Piece.text ++ piece.blanks, piece.spelling, back.flatMap Piece.text ++ blanks,
    ?_, ?_, piece.isSpelled⟩
  · have whole : text.toList = _ := chars
    rw [whole, List.flatMap_append, List.flatMap_cons, Piece.text]
    simp only [List.append_assoc]
  · rw [position, ofText, Nat.zero_add]

theorem tokenize_of_tokens {text : String} {tokens : List Token}
    (scanned : (ofText text).tokens = .ok tokens) :
    tokenize text = .ok (tokens ++ [⟨.endOfInput, text.length⟩]) := by
  rw [tokenize, scanned]
  rfl

end Scanner

/-- A text that is read through is, character for character, its words with the blanks between
them. The tokens are these words, each at the number of characters before it, and after them
the end token at the number of all characters. -/
theorem tokenize_lossless {text : String} {tokens : List Token} (h : tokenize text = .ok tokens) :
    ∃ (pieces : List Piece) (blanks : List Char),
      text.toList = pieces.flatMap Piece.text ++ blanks ∧
      (∀ c ∈ blanks, Text.isBlank c = true) ∧
      (∀ front p back, pieces = front ++ p :: back →
        p.token.position = (front.flatMap Piece.text ++ p.blanks).length) ∧
      tokens = pieces.map Piece.token ++ [⟨.endOfInput, text.length⟩] := by
  cases scanned : (Scanner.ofText text).tokens with
  | error e =>
    rw [tokenize, scanned] at h
    cases h
  | ok words =>
    rw [tokenize, scanned] at h
    cases h
    obtain ⟨pieces, blanks, eq, blank, rfl, placed⟩ := Scanner.exists_pieces_of_tokens scanned
    refine ⟨pieces, blanks, eq, blank, fun front p back cut => ?_, rfl⟩
    have place := placed front p back cut
    rwa [Scanner.ofText, Nat.zero_add] at place

/-- Blanks before a parenthesis, capitals and a note with a blank in it. -/
theorem tokenize_lossless_logarithm :
    ∃ tokens, tokenize " LN (m²{a b}) " = .ok tokens ∧ tokens.length = 7 ∧
      ∃ (pieces : List Piece) (blanks : List Char),
        " LN (m²{a b}) ".toList = pieces.flatMap Piece.text ++ blanks ∧
        (∀ c ∈ blanks, Text.isBlank c = true) ∧
        (∀ front p back, pieces = front ++ p :: back →
          p.token.position = (front.flatMap Piece.text ++ p.blanks).length) ∧
        tokens = pieces.map Piece.token ++ [⟨.endOfInput, " LN (m²{a b}) ".length⟩] := by
  have scanned : (Scanner.ofText " LN (m²{a b}) ").tokens = .ok
      [⟨.logarithm .natural, 1⟩, ⟨.openParen, 4⟩, ⟨.identifier "m", 5⟩, ⟨.superscript ['2'], 6⟩,
        ⟨.note "a b", 7⟩, ⟨.closeParen, 12⟩] := by
    refine Scanner.tokens_of_next ⟨_, 3⟩ rfl nofun ?_
    refine Scanner.tokens_of_next ⟨_, 5⟩ rfl nofun ?_
    refine Scanner.tokens_of_next ⟨_, 6⟩ rfl nofun ?_
    refine Scanner.tokens_of_next ⟨_, 7⟩ rfl nofun ?_
    refine Scanner.tokens_of_next ⟨_, 12⟩ rfl nofun ?_
    refine Scanner.tokens_of_next ⟨_, 13⟩ rfl nofun ?_
    exact Scanner.tokens_of_end ⟨[], 14⟩ rfl rfl
  have read : tokenize " LN (m²{a b}) " = .ok
      [⟨.logarithm .natural, 1⟩, ⟨.openParen, 4⟩, ⟨.identifier "m", 5⟩, ⟨.superscript ['2'], 6⟩,
        ⟨.note "a b", 7⟩, ⟨.closeParen, 12⟩, ⟨.endOfInput, 14⟩] := by
    rw [tokenize, scanned]
    rfl
  exact ⟨_, read, rfl, tokenize_lossless read⟩

end Metrology
