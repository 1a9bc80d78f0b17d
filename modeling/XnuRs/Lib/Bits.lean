/-
  XnuRs.Lib.Bits

  Fields of bits.

  A bit string is a function from positions to bits.  The field of `width` bits
  at `low` is read by `getField` and replaced by `putField`, which are a lens:
  what is put is got back, putting back what was got changes nothing, a second
  put overrides the first, and fields apart from each other do not interfere.

  `bits` sees a 64-bit word as a bit string, and says what the logical
  operations and the shifts do to it.
-/

import XnuRs.Lib.Word

namespace XnuRs

/-- The bit at each position. -/
abbrev BitString := Nat → Bool

namespace BitString

variable {f g v v' : BitString} {low low' width width' : Nat}

/-- The first `width` bits. -/
def truncate (width : Nat) (v : BitString) : BitString := fun i => decide (i < width) && v i

/-- The field of `width` bits at `low`. -/
def getField (low width : Nat) (f : BitString) : BitString := truncate width fun i => f (low + i)

/-- The string with `v` in the field of `width` bits at `low`. -/
def putField (low width : Nat) (f v : BitString) : BitString := fun i =>
  if low ≤ i ∧ i < low + width then v (i - low) else f i

theorem getField_putField : getField low width (putField low width f v) = truncate width v := by
  funext i
  by_cases hi : i < width
  · have hin : low ≤ low + i ∧ low + i < low + width := by omega
    simp [getField, putField, truncate, hi, hin]
  · simp [getField, truncate, hi]

theorem putField_getField : putField low width f (getField low width f) = f := by
  funext i
  by_cases hin : low ≤ i ∧ i < low + width
  · have hwidth : i - low < width := by omega
    have hback : low + (i - low) = i := by omega
    simp [getField, putField, truncate, hin, hwidth, hback]
  · simp [putField, hin]

theorem putField_putField :
    putField low width (putField low width f v) v' = putField low width f v' := by
  funext i
  by_cases hin : low ≤ i ∧ i < low + width
  · simp [putField, hin]
  · simp [putField, hin]

theorem getField_putField_of_disjoint (h : low' + width' ≤ low ∨ low + width ≤ low') :
    getField low' width' (putField low width f v) = getField low' width' f := by
  funext i
  by_cases hi : i < width'
  · have hout : ¬ (low ≤ low' + i ∧ low' + i < low + width) := by omega
    simp [getField, putField, truncate, hi, hout]
  · simp [getField, truncate, hi]

end BitString

/-! ## Words -/

variable {a b n : UInt64}

/-- The bits of a word. -/
def bits (a : UInt64) : BitString := a.toNat.testBit

theorem bits_injective (h : bits a = bits b) : a = b := by
  apply UInt64.toNat_inj.mp
  exact Nat.eq_of_testBit_eq fun i => congrFun h i

/-- A word has no bits from 64 on. -/
theorem bits_of_le {i : Nat} (h : 64 ≤ i) : bits a i = false :=
  Nat.testBit_lt_two_pow (Nat.lt_of_lt_of_le a.toNat_lt (Nat.pow_le_pow_right (by decide) h))

theorem bits_and (i : Nat) : bits (a &&& b) i = (bits a i && bits b i) := by
  rw [bits, UInt64.toNat_and, Nat.testBit_and]
  rfl

theorem bits_or (i : Nat) : bits (a ||| b) i = (bits a i || bits b i) := by
  rw [bits, UInt64.toNat_or, Nat.testBit_or]
  rfl

theorem bits_not (i : Nat) : bits (~~~a) i = (decide (i < 64) && !bits a i) := by
  have hlt := a.toNat_lt
  have hsub : (~~~a).toNat = 2 ^ 64 - (a.toNat + 1) := by
    rw [UInt64.toNat_not, UInt64.size]
    omega
  rw [bits, hsub, Nat.testBit_two_pow_sub_succ hlt]
  rfl

theorem bits_shiftRight (h : n.toNat < 64) (i : Nat) : bits (a >>> n) i = bits a (n.toNat + i) := by
  rw [bits, UInt64.toNat_shiftRight, Nat.mod_eq_of_lt h, Nat.testBit_shiftRight]
  rfl

theorem bits_shiftLeft (h : n.toNat < 64) (i : Nat) :
    bits (a <<< n) i = (decide (i < 64) && (decide (n.toNat ≤ i) && bits a (i - n.toNat))) := by
  rw [bits, UInt64.toNat_shiftLeft, Nat.mod_eq_of_lt h, Nat.testBit_mod_two_pow,
    Nat.testBit_shiftLeft]
  rfl

/-- The word of `n` ones. -/
theorem bits_ones {ones : UInt64} {k : Nat} (h : ones.toNat = 2 ^ k - 1) (i : Nat) :
    bits ones i = decide (i < k) := by
  rw [bits, h, Nat.testBit_two_pow_sub_one]

/-- The word with the first `k` bits of another one is its remainder. -/
theorem toNat_of_bits {k : Nat} (h : bits a = BitString.truncate k (bits b)) :
    a.toNat = b.toNat % 2 ^ k := by
  apply Nat.eq_of_testBit_eq
  intro i
  rw [Nat.testBit_mod_two_pow]
  exact congrFun h i

end XnuRs
