import Mathlib.Algebra.Group.Nat.Defs
import Mathlib.Order.Compare
import Metrology.Double.Nearest

/-!
# The fields of a positive double

A positive finite double is `m * 2 ^ e` with one choice of `m` and `e`, and its bits are
`(e + 1074) * 2 ^ 52 + m`, subnormal or not. Two things follow for the bases of logarithms:
doubles that compare as equal are the same double, and an integer below `2 ^ 53` that was
read off a double rounds back to it.
-/
namespace Metrology.Double

open Float.Model (UnpackedFloat Format)
open Float.Model.UnpackedFloat (unpackMantissa unpackExponent unpackSign packComponents unpack pack)

/-! ### Bits and fields -/

theorem toNat_unpackMantissa (b : BitVec 64) :
    (@unpackMantissa Format.binary64 b).toNat = b.toNat % 2 ^ 52 := by
  simp [unpackMantissa, BitVec.extractLsb_toNat]

theorem toNat_unpackExponent (b : BitVec 64) :
    (@unpackExponent Format.binary64 b).toNat = b.toNat / 2 ^ 52 % 2 ^ 11 := by
  simp [unpackExponent, BitVec.extractLsb_toNat, Nat.shiftRight_eq_div_pow]

theorem toNat_unpackSign (b : BitVec 64) :
    (@unpackSign Format.binary64 b).toNat = b.toNat / 2 ^ 63 := by
  have := b.isLt
  unfold unpackSign
  simp [BitVec.extractLsb_toNat, Nat.shiftRight_eq_div_pow]
  omega

theorem sign_ofBitVec (b : BitVec 1) :
    UnpackedFloat.Sign.ofBitVec b = if b.toNat = 0 then .positive else .negative := by
  unfold UnpackedFloat.Sign.ofBitVec
  congr 1
  simp [← BitVec.toNat_inj]

/-- A positive finite double is `(e + 1074) * 2 ^ 52 + m`, whether or not `m` has its
leading one. -/
theorem toNat_of_unpack_eq_finite {b : BitVec 64} {m e pos}
    (h : unpack Format.binary64 b = .finite .positive m e pos) :
    b.toNat = (e + 1074).toNat * 2 ^ 52 + m ∧ m < 2 ^ 53 ∧ (e = -1074 ∨ 2 ^ 52 ≤ m) ∧
      -1074 ≤ e ∧ e < 972 := by
  have bound := b.isLt
  have mantissa := toNat_unpackMantissa b
  have exponent := toNat_unpackExponent b
  have sign := toNat_unpackSign b
  have small : b.toNat % 2 ^ 52 < 2 ^ 52 := Nat.mod_lt _ (by decide)
  have joined : 2 ^ 52 ||| b.toNat % 2 ^ 52 = 2 ^ 52 + b.toNat % 2 ^ 52 := by
    simpa using (Nat.two_pow_add_eq_or_of_lt small 1).symm
  have clear (h : UnpackedFloat.Sign.ofBitVec (@unpackSign Format.binary64 b) = .positive) :
      b.toNat < 2 ^ 63 := by
    rw [sign_ofBitVec, sign] at h
    split at h
    · omega
    · cases h
  unfold unpack at h
  dsimp only at h
  by_cases last : @unpackExponent Format.binary64 b = -1#11
  · rw [if_pos last] at h
    by_cases zero : @unpackMantissa Format.binary64 b = 0#52
    · rw [if_pos zero] at h
      cases h
    · rw [if_neg zero] at h
      cases h
  · rw [if_neg last] at h
    simp only [← BitVec.toNat_inj, exponent] at last
    by_cases first : @unpackExponent Format.binary64 b = 0#11
    · rw [if_pos first] at h
      simp only [← BitVec.toNat_inj, exponent] at first
      by_cases zero : @unpackMantissa Format.binary64 b = 0#52
      · rw [dif_pos zero] at h
        cases h
      · rw [dif_neg zero] at h
        injection h with positive same scale
        have below := clear positive
        simp [mantissa, exponent, Format.exponentBias] at same scale last first
        omega
    · rw [if_neg first] at h
      simp only [← BitVec.toNat_inj, exponent] at first
      injection h with positive same scale
      have below := clear positive
      rw [BitVec.toNat_append, mantissa] at same
      simp [exponent, Format.exponentBias] at same scale last first joined
      omega

/-- Clear sign and something else but the exponent of infinity make a positive finite double. -/
theorem exists_unpack_of_toNat {b : BitVec 64} (sign : b.toNat < 2 ^ 63) (nonzero : b.toNat ≠ 0)
    (finite : (unpack Format.binary64 b).isFinite = true) :
    ∃ m e pos, unpack Format.binary64 b = .finite .positive m e pos := by
  have positive : UnpackedFloat.Sign.ofBitVec (@unpackSign Format.binary64 b) = .positive := by
    rw [sign_ofBitVec, toNat_unpackSign, if_pos (by omega)]
  unfold unpack at finite ⊢
  dsimp only at finite ⊢
  rw [positive]
  by_cases last : @unpackExponent Format.binary64 b = -1#11
  · rw [if_pos last] at finite
    split at finite <;> cases finite
  · rw [if_neg last]
    by_cases first : @unpackExponent Format.binary64 b = 0#11
    · rw [if_pos first]
      by_cases zero : @unpackMantissa Format.binary64 b = 0#52
      · simp [← BitVec.toNat_inj, toNat_unpackExponent, toNat_unpackMantissa] at first zero
        omega
      · rw [dif_neg zero]
        exact ⟨_, _, BitVec.toNat_pos_of_ne_zero zero, rfl⟩
    · rw [if_neg first]
      refine ⟨_, _, ?_, rfl⟩
      rw [BitVec.toNat_append]
      exact Nat.lt_of_lt_of_le (by decide) Nat.left_le_or

/-- Packing a positive finite double puts its fields back. -/
theorem toNat_pack_finite {m : Nat} {e : Int} {pos : 0 < m} (bound : m < 2 ^ 53)
    (full : e = -1074 ∨ 2 ^ 52 ≤ m) (low : -1074 ≤ e) (high : e < 972) :
    (pack Format.binary64 (.finite .positive m e pos)).toNat = (e + 1074).toNat * 2 ^ 52 + m := by
  have log : m.log2 = 52 ↔ 2 ^ 52 ≤ m := by
    rw [Nat.log2_eq_iff (by omega)]
    omega
  have finite : ¬ 2 ^ Format.binary64.exponentBits ≤
      (e + Format.binary64.exponentBias + Format.binary64.mantissaBitsWithoutImplicit).toNat + 1 := by
    change ¬ 2048 ≤ (e + 1023 + 52).toNat + 1
    omega
  unfold pack packComponents
  simp only [if_neg finite]
  by_cases normal : 2 ^ 52 ≤ m
  · rw [if_pos (show m.log2 + 1 = Format.binary64.mantissaBits by rw [log.2 normal]; rfl)]
    change (0#1 ++ BitVec.ofNat 11 (e + 1023 + 52).toNat ++ BitVec.ofNat 52 m).toNat = _
    simp only [BitVec.toNat_append, BitVec.toNat_ofNat, Nat.shiftLeft_eq]
    rw [Nat.mul_comm, ← Nat.two_pow_add_eq_or_of_lt (Nat.mod_lt m (by decide))]
    simp
    omega
  · rw [if_neg (show m.log2 + 1 ≠ Format.binary64.mantissaBits from
      fun h => normal (log.1 (Nat.succ.inj h)))]
    change (0#1 ++ 0#11 ++ BitVec.ofNat 52 m).toNat = _
    simp only [BitVec.toNat_append, BitVec.toNat_ofNat, Nat.shiftLeft_eq]
    simp
    omega

/-! ### Comparison -/

/-- Doubles are equal if their fields compare as equal. -/
theorem beq_iff_compare {x y : Float} :
    (x == y) = true ↔ x.toModel.unpack.compare y.toModel.unpack = some .eq := by
  change (x.toModel.unpack.compare y.toModel.unpack == some .eq) = true ↔ _
  exact beq_iff_eq

theorem compare_finite_self {s m e pos} :
    (UnpackedFloat.finite s m e pos).compare (.finite s m e pos) = some .eq := by
  cases s with
  | positive =>
    change some ((compare e e).then (compare m m)) = _
    simp
  | negative =>
    change some ((compare e e).then (compare m m)).swap = _
    simp

theorem compare_infinity_self {s} :
    (UnpackedFloat.infinity s).compare (.infinity s) = some .eq := by
  cases s <;> rfl

/-- The parts of a double that compare as equal: the same number, or two zeros. -/
theorem compare_eq_some_eq {a b : UnpackedFloat} (h : a.compare b = some .eq) :
    (∃ s, a = .infinity s ∧ b = .infinity s) ∨
    (∃ s t, a = .zero s ∧ b = .zero t) ∨
    (∃ s m e pos, a = .finite s m e pos ∧ b = .finite s m e pos) := by
  cases a with
  | notANumber => cases h
  | infinity s =>
    cases b with
    | infinity t =>
      cases s <;> cases t <;> first | exact Or.inl ⟨_, rfl, rfl⟩ | cases h
    | _ => cases s <;> cases h
  | zero s =>
    cases b with
    | zero t => exact Or.inr (Or.inl ⟨s, t, rfl, rfl⟩)
    | infinity t | finite t => cases t <;> cases h
    | notANumber => cases h
  | finite s m e pos =>
    cases b with
    | finite t n f other =>
      have equal : s = t ∧ (compare e f).then (compare m n) = .eq := by
        cases s with
        | positive =>
          cases t with
          | positive => exact ⟨rfl, Option.some.inj h⟩
          | negative => cases h
        | negative =>
          cases t with
          | positive => cases h
          | negative => exact ⟨rfl, Ordering.swap_eq_eq.1 (Option.some.inj h)⟩
      obtain ⟨rfl, same⟩ := equal
      obtain ⟨scale, digits⟩ := Ordering.then_eq_eq.1 same
      obtain rfl := Std.LawfulEqCmp.eq_of_compare scale
      obtain rfl := Std.LawfulEqCmp.eq_of_compare digits
      exact Or.inr (Or.inr ⟨_, _, _, _, rfl, rfl⟩)
    | infinity t | zero t => cases s <;> cases t <;> cases h
    | notANumber => cases h

/-- The positive doubles are infinity and those with a positive sign and a mantissa. -/
theorem zero_lt_iff {x : Float} :
    0 < x ↔ (x.toModel.unpack = .infinity .positive) ∨
      ∃ m e pos, x.toModel.unpack = .finite .positive m e pos := by
  have zero : (0 : Float).toModel.unpack = .zero .positive := by rfl
  have lt : 0 < x ↔ ((0 : Float).toModel.unpack.compare x.toModel.unpack == some .lt) = true :=
    decide_eq_true_iff
  rw [lt, zero, beq_iff_eq]
  constructor
  · intro less
    cases parts : x.toModel.unpack with
    | notANumber | zero => rw [parts] at less; cases less
    | infinity s =>
      cases s with
      | positive => exact Or.inl rfl
      | negative => rw [parts] at less; cases less
    | finite s m e pos =>
      cases s with
      | positive => exact Or.inr ⟨m, e, pos, rfl⟩
      | negative => rw [parts] at less; cases less
  · rintro (infinite | ⟨m, e, pos, finite⟩)
    · rw [infinite]
      rfl
    · rw [finite]
      rfl

theorem beq_symm {x y : Float} (h : (x == y) = true) : (y == x) = true := by
  rw [beq_iff_compare] at h ⊢
  rcases compare_eq_some_eq h with ⟨s, hx, hy⟩ | ⟨s, t, hx, hy⟩ | ⟨s, m, e, pos, hx, hy⟩
  · rw [hx, hy, compare_infinity_self]
  · rw [hx, hy]
    rfl
  · rw [hx, hy, compare_finite_self]

theorem beq_trans {x y z : Float} (hxy : (x == y) = true) (hyz : (y == z) = true) :
    (x == z) = true := by
  rw [beq_iff_compare] at hxy hyz ⊢
  rcases compare_eq_some_eq hxy with ⟨s, hx, hy⟩ | ⟨s, t, hx, hy⟩ | ⟨s, m, e, pos, hx, hy⟩
  · rwa [hy, ← hx] at hyz
  · rw [hy] at hyz
    rcases compare_eq_some_eq hyz with ⟨u, eq, -⟩ | ⟨u, v, -, hz⟩ | ⟨u, n, f, other, eq, -⟩
    · cases eq
    · rw [hx, hz]
      rfl
    · cases eq
  · rwa [hy, ← hx] at hyz

/-- A double equals itself unless it is a NaN. -/
theorem beq_self_iff {x : Float} : (x == x) = true ↔ x.isNaN = false := by
  rw [beq_iff_compare]
  change _ ↔ x.toModel.unpack.isNaN = false
  cases x.toModel.unpack with
  | notANumber => exact iff_of_false nofun nofun
  | infinity s => exact iff_of_true compare_infinity_self rfl
  | zero s => exact iff_of_true rfl rfl
  | finite s m e pos => exact iff_of_true compare_finite_self rfl

/-- A positive finite double is one with a mantissa. -/
theorem exists_unpack_of_pos {x : Float} (pos : 0 < x) (finite : x.isFinite = true) :
    ∃ m e h, x.toModel.unpack = .finite .positive m e h := by
  rcases zero_lt_iff.1 pos with infinite | h
  · change x.toModel.unpack.isFinite = true at finite
    rw [infinite] at finite
    cases finite
  · exact h

/-- Doubles with the same bits are the same. -/
theorem eq_of_toBits_eq {x y : Float} (h : x.toModel.toBits.toBitVec = y.toModel.toBits.toBitVec) :
    x = y := by
  rcases x with ⟨⟨a, va⟩⟩
  rcases y with ⟨⟨b, vb⟩⟩
  cases UInt64.toBitVec_inj.1 h
  rfl

/-- A positive finite double is equal to no other. -/
theorem eq_of_beq_of_pos {x y : Float} (pos : 0 < x) (finite : x.isFinite = true)
    (h : (x == y) = true) : x = y := by
  obtain ⟨m, e, mpos, hx⟩ := exists_unpack_of_pos pos finite
  have hy : y.toModel.unpack = .finite .positive m e mpos := by
    rcases compare_eq_some_eq (beq_iff_compare.1 h) with
      ⟨s, eq, -⟩ | ⟨s, t, eq, -⟩ | ⟨s, n, f, npos, eq, eq'⟩
    · rw [hx] at eq
      cases eq
    · rw [hx] at eq
      cases eq
    · rw [hx] at eq
      cases eq
      exact eq'
  apply eq_of_toBits_eq
  apply BitVec.eq_of_toNat_eq
  rw [(toNat_of_unpack_eq_finite hx).1, (toNat_of_unpack_eq_finite hy).1]

theorem beq_self_of_pos {x : Float} (pos : 0 < x) (finite : x.isFinite = true) :
    (x == x) = true := by
  obtain ⟨m, e, mpos, hx⟩ := exists_unpack_of_pos pos finite
  rw [beq_iff_compare, hx, compare_finite_self]

/-- The bits of a positive finite double read back as the double. -/
theorem ofBits_toBits {x : Float} (pos : 0 < x) (finite : x.isFinite = true) :
    Float.ofBits x.toBits = x := by
  obtain ⟨m, e, mpos, hx⟩ := exists_unpack_of_pos pos finite
  obtain ⟨value, bound, full, low, high⟩ := toNat_of_unpack_eq_finite hx
  apply eq_of_toBits_eq
  apply BitVec.eq_of_toNat_eq
  change (pack Format.binary64 x.toModel.unpack).toNat = _
  rw [hx, toNat_pack_finite bound full low high, value]

/-- The parts of a positive double are its mantissa and exponent as they are unpacked. -/
theorem parts_of_unpack {x : Float} {m e pos} (h : x.toModel.unpack = .finite .positive m e pos) :
    parts x = ⟨m, e⟩ ∧ isNegative x = false := by
  obtain ⟨value, bound, full, low, high⟩ := toNat_of_unpack_eq_finite h
  change x.toBits.toNat = _ at value
  have sign : signBit = 2 ^ 63 := rfl
  have hidden : hiddenBit = 2 ^ 52 := rfl
  have small : x.toBits.toNat < 2 ^ 63 := by omega
  refine ⟨?_, by simpa [isNegative, sign] using small⟩
  unfold parts
  simp only [sign, hidden, Nat.mod_eq_of_lt small, minExponent]
  split
  · rw [Parts.mk.injEq]
    omega
  · rw [Parts.mk.injEq]
    omega

/-! ### Integers -/

/-- A double that is an integer has a mantissa of full width or shifted to the left. -/
theorem mantissa_of_integer? {x : Float} {m n : Nat} {e : Int} (finite : x.isFinite = true)
    (fields : parts x = ⟨m, e⟩) (sign : isNegative x = false) (h : integer? x = some n) :
    m * 2 ^ e.toNat = n * 2 ^ (-e).toNat ∧ 1 < n ∧ n < 2 ^ 53 := by
  simp only [integer?, toRat?, finite, if_true, fields, sign, Option.bind_eq_bind,
    Option.bind_some, Bool.false_eq_true, if_false] at h
  split at h
  · rename_i range
    obtain ⟨whole, above, below⟩ := range
    have num := Rat.mkRat_self (mkRat (m <<< e.toNat : Nat) (1 <<< (-e).toNat))
    rw [whole, eq_comm, Rat.mkRat_eq_iff (by simp [Nat.shiftLeft_eq]) (by decide)] at num
    simp only [Option.some.injEq] at h
    generalize (mkRat (m <<< e.toNat : Nat) (1 <<< (-e).toNat)).num = k at num above below h
    obtain ⟨k, rfl⟩ := Int.eq_ofNat_of_zero_le (show 0 ≤ k by omega)
    simp only [Nat.shiftLeft_eq, hiddenBit, fieldWidth, Int.toNat_natCast] at num above below h
    subst h
    have shifted : (m : Int) * 2 ^ e.toNat = k * 2 ^ (-e).toNat := by simpa using num
    exact ⟨by exact_mod_cast shifted, by omega, by omega⟩
  · cases h

/-- An integer double below `2 ^ 53` is the integer shifted up to the width of a mantissa. -/
theorem mantissa_eq_shift {m n : Nat} {e : Int} (scaled : m * 2 ^ e.toNat = n * 2 ^ (-e).toNat)
    (above : 1 < n) (below : n < 2 ^ 53) (bound : m < 2 ^ 53) (full : e = -1074 ∨ 2 ^ 52 ≤ m) :
    ∃ k : Nat, e = -k ∧ k ≤ 52 ∧ m = n * 2 ^ k ∧ n.log2 = 52 - k := by
  have shallow : (-e).toNat ≤ 52 := by
    by_contra deep
    have : 2 ^ 53 ≤ 2 ^ (-e).toNat := Nat.pow_le_pow_right (by decide) (by omega)
    have : 1 * 2 ^ (-e).toNat ≤ n * 2 ^ (-e).toNat := Nat.mul_le_mul_right _ (by omega)
    rw [show e.toNat = 0 by omega] at scaled
    omega
  have normal : 2 ^ 52 ≤ m := by omega
  have left : e ≤ 0 := by
    by_contra right
    have : 2 ^ 1 ≤ 2 ^ e.toNat := Nat.pow_le_pow_right (by decide) (by omega)
    have : m * 2 ^ 1 ≤ m * 2 ^ e.toNat := Nat.mul_le_mul_left m this
    rw [show (-e).toNat = 0 by omega] at scaled
    omega
  rw [show e.toNat = 0 by omega, Nat.pow_zero, Nat.mul_one] at scaled
  refine ⟨(-e).toNat, by omega, shallow, scaled, ?_⟩
  generalize (-e).toNat = k at scaled shallow
  rw [Nat.log2_eq_iff (by omega)]
  have lower : 2 ^ (52 - k) * 2 ^ k = 2 ^ 52 := by rw [← Nat.pow_add, Nat.sub_add_cancel shallow]
  have upper : 2 ^ (52 - k + 1) * 2 ^ k = 2 ^ 53 := by
    rw [← Nat.pow_add]
    congr 1
    omega
  exact ⟨Nat.le_of_mul_le_mul_right (by omega) (Nat.two_pow_pos k),
    Nat.lt_of_mul_lt_mul_right (by omega : n * 2 ^ k < 2 ^ (52 - k + 1) * 2 ^ k)⟩

theorem floorLog2_one {n : Nat} (pos : 0 < n) : floorLog2 n 1 = n.log2 := by
  have one : Nat.log2 1 = 0 := by decide
  have self := Nat.log2_self_le (show n ≠ 0 by omega)
  simp only [floorLog2, one, Nat.shiftLeft_eq]
  rw [if_neg (by simpa using self)]
  simp

/-- The bits of an integer below `2 ^ 53`: nothing is rounded off. -/
theorem magnitudeBits_one {n k : Nat} (pos : 0 < n) (small : k ≤ 52) (log : n.log2 = 52 - k) :
    magnitudeBits n 1 = (1074 - k) * 2 ^ 52 + n * 2 ^ k := by
  have upper : n * 2 ^ k < 2 ^ 53 := by
    have : n < 2 ^ (52 - k + 1) := log ▸ Nat.lt_log2_self
    have : n * 2 ^ k < 2 ^ (52 - k + 1) * 2 ^ k := Nat.mul_lt_mul_of_pos_right this (Nat.two_pow_pos k)
    rwa [← Nat.pow_add, show 52 - k + 1 + k = 53 by omega] at this
  have exponent : max (floorLog2 n 1 - fieldWidth) minExponent = -k := by
    rw [floorLog2_one pos, log]
    simp only [fieldWidth, minExponent]
    omega
  unfold magnitudeBits
  rw [if_neg (by omega)]
  simp only [exponent]
  simp [roundHalfEven, Nat.shiftLeft_eq, Nat.mod_one, minExponent, hiddenBit, fieldWidth,
    infinityBits]
  omega

/-- Rounding goes back from an integer to the double that it was read from. -/
theorem nearest_of_integer? {x : Float} {n : Nat} (pos : 0 < x) (finite : x.isFinite = true)
    (h : integer? x = some n) : nearest n = x := by
  obtain ⟨m, e, mpos, hx⟩ := exists_unpack_of_pos pos finite
  obtain ⟨value, bound, full, low, high⟩ := toNat_of_unpack_eq_finite hx
  obtain ⟨fields, sign⟩ := parts_of_unpack hx
  obtain ⟨scaled, above, below⟩ := mantissa_of_integer? finite fields sign h
  obtain ⟨k, rfl, small, rfl, log⟩ := mantissa_eq_shift scaled above below bound full
  have num : (n : Rat).num = n := rfl
  have den : (n : Rat).den = 1 := rfl
  have bits : magnitudeBits n 1 = x.toBits.toNat := by
    rw [magnitudeBits_one (by omega) small log]
    change x.toBits.toNat = _ at value
    omega
  rw [← ofBits_toBits pos finite]
  unfold nearest
  simp only [num, den, Int.natAbs_natCast, bits]
  rw [if_neg (by omega)]
  simp

/-- A double with an integer above one for its value is positive and finite. -/
theorem pos_of_integer? {x : Float} {n : Nat} (h : integer? x = some n) :
    0 < x ∧ x.isFinite = true := by
  have finite : x.isFinite = true := by
    unfold integer? toRat? at h
    split at h
    · assumption
    · cases h
  refine ⟨?_, finite⟩
  simp only [integer?, toRat?, finite, if_true, Option.bind_eq_bind, Option.bind_some] at h
  cases sign : isNegative x with
  | true =>
    have nonneg : 0 ≤ (mkRat ((parts x).mantissa <<< (parts x).exponent.toNat : Nat)
        (1 <<< (-(parts x).exponent).toNat)).num :=
      Rat.num_nonneg.2 (by
        rw [← Rat.divInt_ofNat]
        exact Rat.divInt_nonneg (Int.natCast_nonneg _) (Int.natCast_nonneg _))
    rw [sign, if_pos rfl, Rat.neg_num, if_neg (by omega)] at h
    cases h
  | false =>
    have small : x.toBits.toNat < 2 ^ 63 := Nat.lt_of_not_le (of_decide_eq_false sign)
    have nonzero : x.toBits.toNat ≠ 0 := by
      intro zero
      have mantissa : (parts x).mantissa = 0 := by simp [parts, zero]
      rw [sign, mantissa] at h
      simp at h
    exact zero_lt_iff.2 (Or.inr (exists_unpack_of_toNat small nonzero finite))

end Metrology.Double
