import Metrology.Error
import Metrology.Text.Blank
import Metrology.Text.Superscript

/-!
# Reading tokens

`Lexeme.scan` reads one lexeme from the front of a text, always the longest that
the text has there. `Scanner.next` skips blanks first and keeps count of the
position; `tokenize` repeats it up to the end of the text.
-/
namespace Metrology

/-- The digits in front of a text, and the text after them. -/
def scanDigits (text : List Char) : List Char × List Char :=
  (text.takeWhile Char.isDigit, text.dropWhile Char.isDigit)

/-- Whether a digit stands in front of the text. -/
def startsWithDigit (text : List Char) : Bool := text.head?.any Char.isDigit

def Sign.scan : List Char → Option Sign × List Char
  | [] => (none, [])
  | c :: rest =>
    match ofChar? c with
    | some sign => (some sign, rest)
    | none => (none, c :: rest)

/-- A marker counts as one only when digits follow, so that `2em` is `2` and `em`. -/
def Exponent.scan : List Char → Option Exponent × List Char
  | [] => (none, [])
  | marker :: rest =>
    let sign := Sign.scan rest
    if (marker == 'e' || marker == 'E') && startsWithDigit sign.2 then
      let digits := scanDigits sign.2
      (some ⟨marker, sign.1, digits.1⟩, digits.2)
    else (none, marker :: rest)

namespace Numeral

/-- A point counts as one only when digits follow. -/
def scanFraction : List Char → List Char × List Char
  | '.' :: rest => if startsWithDigit rest then scanDigits rest else ([], '.' :: rest)
  | text => ([], text)

def scan (text : List Char) : Numeral × List Char :=
  let whole := scanDigits text
  let fraction := scanFraction whole.2
  let exponent := Exponent.scan fraction.2
  (⟨whole.1, fraction.1, exponent.1⟩, exponent.2)

/-- Whether a literal starts here. -/
def starts : List Char → Bool
  | '.' :: rest => startsWithDigit rest
  | text => startsWithDigit text

end Numeral

/-- The base of the logarithm that an identifier names before a parenthesis. -/
def LogBase.ofName? (name : List Char) : Option LogBase :=
  match name with
  | ['l', 'n'] | ['L', 'N'] => some natural
  | 'l' :: 'o' :: 'g' :: digits | 'L' :: 'O' :: 'G' :: digits =>
    if digits.all Char.isDigit then some (decimal digits) else none
  | _ => none

namespace Lexeme

/-- The lexemes of one character. -/
def ofChar? : Char → Option Lexeme
  | '+' => some plus
  | '-' => some minus
  | '*' => some asterisk
  | '·' => some middleDot
  | '/' => some solidus
  | '^' => some caret
  | ':' => some colon
  | '(' => some openParen
  | ')' => some closeParen
  | _ => none

def isSuperscript (c : Char) : Bool := (Text.ofSuperscript? c).isSome

/-- The characters that have a meaning of their own and are in no identifier. -/
def isReserved (c : Char) : Bool :=
  (ofChar? c).isSome || c == '.' || c == '\x7b' || c == '\x7d' ||
    isSuperscript c

def startsIdentifier (c : Char) : Bool :=
  !Text.isControl c && !Text.isBlank c && !c.isDigit && !isReserved c

def continuesIdentifier (c : Char) : Bool := startsIdentifier c || c.isDigit

/-- Whether the next character that is no blank opens a parenthesis. -/
def opensParen (text : List Char) : Bool :=
  (text.dropWhile Text.isBlank).head? == some '('

/-- The text up to the closing brace, and the text after it. -/
def scanNote? (text : List Char) : Option (List Char × List Char) :=
  match text.dropWhile (· != '\x7d') with
  | [] => none
  | _ :: rest => some (text.takeWhile (· != '\x7d'), rest)

def scanSuperscript (text : List Char) : Lexeme × List Char :=
  (superscript ((text.takeWhile isSuperscript).filterMap Text.ofSuperscript?),
    text.dropWhile isSuperscript)

/-- An identifier names a logarithm only before a parenthesis. -/
def ofName (name rest : List Char) : Lexeme :=
  match LogBase.ofName? name with
  | some base => if opensParen rest then logarithm base else identifier (String.ofList name)
  | none => identifier (String.ofList name)

def scanName (text : List Char) : Lexeme × List Char :=
  let rest := text.dropWhile continuesIdentifier
  (ofName (text.takeWhile continuesIdentifier) rest, rest)

/-- The lexeme in front of a text that does not start with a blank, and the text
after it. -/
def scan : List Char → Except Fault (Lexeme × List Char)
  | [] => .ok (endOfInput, [])
  | c :: rest =>
    match ofChar? c with
    | some lexeme => .ok (lexeme, rest)
    | none =>
      if Numeral.starts (c :: rest) then
        .ok (number (Numeral.scan (c :: rest)).1, (Numeral.scan (c :: rest)).2)
      else if isSuperscript c then
        .ok (scanSuperscript (c :: rest))
      else if c == '\x7b' then
        match scanNote? rest with
        | some (inner, rest) => .ok (note (String.ofList inner), rest)
        | none => .error .unterminatedNote
      else if startsIdentifier c then
        .ok (scanName (c :: rest))
      else .error (.unexpectedCharacter c)

/-! ### Scanning makes progress -/

private theorem length_dropWhile_le (p : Char → Bool) (text : List Char) :
    (text.dropWhile p).length ≤ text.length :=
  (List.dropWhile_sublist p).length_le

private theorem length_dropWhile_lt {p : Char → Bool} {c : Char} {text : List Char}
    (h : p c = true) : ((c :: text).dropWhile p).length < (c :: text).length := by
  rw [List.dropWhile_cons_of_pos h]
  exact Nat.lt_succ_of_le (length_dropWhile_le p text)

private theorem length_scanSign_le (text : List Char) :
    (Sign.scan text).2.length ≤ text.length := by
  unfold Sign.scan
  split
  · simp
  · split <;> simp

private theorem length_scanExponent_le (text : List Char) :
    (Exponent.scan text).2.length ≤ text.length := by
  unfold Exponent.scan
  split
  · simp
  · rename_i rest
    have sign := length_scanSign_le rest
    have digits := length_dropWhile_le Char.isDigit (Sign.scan rest).2
    simp only
    split
    · simp only [scanDigits, List.length_cons]
      omega
    · simp

private theorem length_scanFraction_le (text : List Char) :
    (Numeral.scanFraction text).2.length ≤ text.length := by
  unfold Numeral.scanFraction
  split
  · rename_i rest
    split
    · have := length_dropWhile_le Char.isDigit rest
      simp only [scanDigits, List.length_cons]
      omega
    · simp
  · simp

private theorem length_scanFraction_lt {text : List Char} (h : startsWithDigit text = true) :
    (Numeral.scanFraction ('.' :: text)).2.length < text.length + 1 := by
  have := length_dropWhile_le Char.isDigit text
  simp only [Numeral.scanFraction, h, if_true, scanDigits]
  omega

private theorem length_scanNumeral_lt {text : List Char} (h : Numeral.starts text = true) :
    (Numeral.scan text).2.length < text.length := by
  have exponent := length_scanExponent_le
    (Numeral.scanFraction (text.dropWhile Char.isDigit)).2
  have fraction := length_scanFraction_le (text.dropWhile Char.isDigit)
  simp only [Numeral.scan, scanDigits]
  unfold Numeral.starts at h
  split at h
  · rename_i rest
    have := length_scanFraction_lt h
    rw [List.dropWhile_cons_of_neg (by decide)] at exponent ⊢
    simp only [List.length_cons]
    omega
  · cases text with
    | nil => simp [startsWithDigit] at h
    | cons c rest =>
      have : c.isDigit = true := by simpa [startsWithDigit] using h
      have : ((c :: rest).dropWhile Char.isDigit).length < (c :: rest).length :=
        length_dropWhile_lt this
      omega

private theorem length_scanNote_le {text inner rest : List Char}
    (h : scanNote? text = some (inner, rest)) : rest.length ≤ text.length := by
  have := length_dropWhile_le (· != '\x7d') text
  unfold scanNote? at h
  split at h
  · cases h
  · rename_i eq
    cases h
    rw [eq, List.length_cons] at this
    omega

/-- A lexeme other than the end token uses up some of the text. -/
theorem length_lt_of_scan {text rest : List Char} {lexeme : Lexeme}
    (h : scan text = .ok (lexeme, rest)) (notEnd : lexeme ≠ endOfInput) :
    rest.length < text.length := by
  cases text with
  | nil =>
    cases h
    exact absurd rfl notEnd
  | cons c tail =>
    rw [scan] at h
    split at h
    · cases h
      simp
    · split at h
      · rename_i starts
        cases h
        exact length_scanNumeral_lt starts
      · split at h
        · rename_i digit
          cases h
          exact length_dropWhile_lt digit
        · split at h
          · split at h
            · rename_i note
              cases h
              exact Nat.lt_succ_of_le (length_scanNote_le note)
            · cases h
          · split at h
            · rename_i starts
              cases h
              exact length_dropWhile_lt (by simp [continuesIdentifier, starts])
            · cases h

end Lexeme

/-- A place in a text: what is left of it and how much is behind. -/
structure Scanner where
  rest : List Char
  position : Nat
  deriving DecidableEq, Repr

namespace Scanner

def ofText (text : String) : Scanner := ⟨text.toList, 0⟩

def skipBlanks (s : Scanner) : Scanner :=
  ⟨s.rest.dropWhile Text.isBlank, s.position + (s.rest.takeWhile Text.isBlank).length⟩

/-- The next token and the place after it. At the end of the text that is the end
token, again and again. A note without an end uses up the text; a character that
starts no lexeme is not passed. -/
def next (s : Scanner) : Except Error Token × Scanner :=
  let s := s.skipBlanks
  match Lexeme.scan s.rest with
  | .ok (lexeme, rest) => (.ok ⟨lexeme, s.position⟩, ⟨rest, s.position + lexeme.width⟩)
  | .error .unterminatedNote =>
    (.error (.malformed s.position .unterminatedNote), ⟨[], s.position + s.rest.length⟩)
  | .error fault => (.error (.malformed s.position fault), s)

theorem length_lt_of_next {s after : Scanner} {token : Token}
    (h : s.next = (.ok token, after)) (notEnd : token.lexeme ≠ .endOfInput) :
    after.rest.length < s.rest.length := by
  have blanks : s.skipBlanks.rest.length ≤ s.rest.length :=
    (List.dropWhile_sublist Text.isBlank).length_le
  unfold next at h
  simp only at h
  split at h
  · rename_i scanned
    cases h
    exact Nat.lt_of_lt_of_le (Lexeme.length_lt_of_scan scanned notEnd) blanks
  · cases h
  · cases h

/-- The tokens from here to the end of the text, without the end token. -/
def tokens (s : Scanner) : Except Error (List Token) :=
  match h : s.next with
  | (.error e, _) => .error e
  | (.ok token, after) =>
    if notEnd : token.lexeme = .endOfInput then .ok []
    else
      have := length_lt_of_next h notEnd
      do return token :: (← after.tokens)
termination_by s.rest.length

end Scanner

/-- All tokens of a text, the end token last. -/
def tokenize (text : String) : Except Error (List Token) := do
  let tokens ← (Scanner.ofText text).tokens
  return tokens ++ [⟨.endOfInput, text.length⟩]

end Metrology
