import Metrology.Double.Nearest

/-!
# The double of an integer

An integer is rounded by its 64 leading bits. The last of them also stands for what is
below it: it is set when a lower bit that counts is set, so that one rounding to 53 bits
is enough. The lower bits are looked at in words of 64 bits, and of each word as many low
bits count as the leading word has.

An integer of at most 64 bits therefore has its nearest double, and so has nearly every
longer one. Only when it lies above the middle between two doubles by nothing but bits
that do not count is it taken for the middle itself, and the even neighbour is chosen.
-/
namespace Metrology.Double

/-- The width of the words that an integer is cut into. -/
def wordBits : Nat := 64

/-- The number of bits in the leading word of a positive integer. -/
def leadingWidth (n : Nat) : Nat := n.log2 % wordBits + 1

/-- Whether a bit that counts is set below the leading word. -/
def hasLowerBits (n : Nat) : Bool :=
  (List.range (n.log2 / wordBits)).any fun i =>
    (n >>> (wordBits * i)) % (1 <<< leadingWidth n) != 0

/-- The integer as rounding sees it: its 64 leading bits with zeros after them, the last
leading bit standing for the lower bits. -/
def leadingBits (n : Nat) : Nat :=
  let dropped := n.log2 + 1 - wordBits
  if dropped = 0 then n
  else ((n >>> dropped) ||| (if hasLowerBits n then 1 else 0)) <<< dropped

/-- The double of an integer; infinity beyond the largest. -/
def ofInt (n : Int) : Float := nearest (n.sign * (leadingBits n.natAbs : Int) : Int)

end Metrology.Double
