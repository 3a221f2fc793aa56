/-!
# Superscript digits

The ten Unicode superscript digits and the ASCII digits they stand for. They
spell powers, as in `m²`.
-/
namespace Metrology.Text

/-- The ASCII digit that a superscript digit stands for. -/
def ofSuperscript? : Char → Option Char
  | '⁰' => some '0'
  | '¹' => some '1'
  | '²' => some '2'
  | '³' => some '3'
  | '⁴' => some '4'
  | '⁵' => some '5'
  | '⁶' => some '6'
  | '⁷' => some '7'
  | '⁸' => some '8'
  | '⁹' => some '9'
  | _ => none

/-- The superscript spelling of an ASCII digit; another character is kept. -/
def toSuperscript : Char → Char
  | '0' => '⁰'
  | '1' => '¹'
  | '2' => '²'
  | '3' => '³'
  | '4' => '⁴'
  | '5' => '⁵'
  | '6' => '⁶'
  | '7' => '⁷'
  | '8' => '⁸'
  | '9' => '⁹'
  | c => c

theorem ofSuperscript?_eq_some {c d : Char} (h : ofSuperscript? c = some d) :
    toSuperscript d = c := by
  unfold ofSuperscript? at h
  split at h <;> simp_all <;> subst h <;> rfl

end Metrology.Text
