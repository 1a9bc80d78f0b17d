/-
  XnuRs.Lib.Word

  Arithmetic on unsigned 64-bit words: the checked, saturating and masking
  operations, each specified by the exact number it stands for (`toNat`).

  An operation that panics on overflow is the checked one with its `none` turned
  into a panic.
-/

import XnuRs.Lib.Bytes
import Mathlib.Order.Defs.LinearOrder

namespace XnuRs

/-! ## Rounding of numbers -/

/-- The last multiple of `a` up to `n`. -/
def roundDown (n a : Nat) : Nat := n / a * a

/-- The first multiple of `a` from `n` on. -/
def roundUp (n a : Nat) : Nat := (n + (a - 1)) / a * a

theorem roundDown_le (n a : Nat) : roundDown n a ≤ n := Nat.div_mul_le_self n a

theorem roundDown_mod (n a : Nat) : roundDown n a % a = 0 := Nat.mul_mod_left ..

theorem roundUp_mod (n a : Nat) : roundUp n a % a = 0 := Nat.mul_mod_left ..

theorem le_roundUp {n a : Nat} (ha : 0 < a) : n ≤ roundUp n a := by
  have hlt := Nat.lt_div_mul_add (a := n + (a - 1)) ha
  rw [roundUp]
  omega

theorem roundUp_lt {n a : Nat} (ha : 0 < a) : roundUp n a < n + a := by
  have hle := Nat.div_mul_le_self (n + (a - 1)) a
  rw [roundUp]
  omega

theorem roundUp_of_mod {n a : Nat} (ha : 0 < a) (h : n % a = 0) : roundUp n a = n := by
  have hn : n / a * a = n := Nat.div_mul_cancel (Nat.dvd_of_mod_eq_zero h)
  have hdiv : (n + (a - 1)) / a = n / a := by
    apply Nat.div_eq_of_lt_le
    · omega
    · rw [Nat.add_mul, hn]
      omega
  rw [roundUp, hdiv, hn]

/-- Rounding a sum whose first part is a multiple already. -/
theorem roundUp_add {n m a : Nat} (ha : 0 < a) (h : n % a = 0) :
    roundUp (n + m) a = n + roundUp m a := by
  obtain ⟨k, rfl⟩ := Nat.dvd_of_mod_eq_zero h
  rw [roundUp, roundUp, Nat.add_assoc, Nat.mul_add_div ha, Nat.add_mul, Nat.mul_comm a k]

theorem roundUp_mono {n m : Nat} (a : Nat) (h : n ≤ m) : roundUp n a ≤ roundUp m a :=
  Nat.mul_le_mul_right a (Nat.div_le_div_right (by omega))

/-- Rounding up stays below every multiple the number stays below. -/
theorem roundUp_le_of_mod {n m a : Nat} (ha : 0 < a) (hm : m % a = 0) (h : n ≤ m) :
    roundUp n a ≤ m := by
  have hmono := roundUp_mono a h
  rwa [roundUp_of_mod ha hm] at hmono

theorem le_roundDown_of_mod {n m a : Nat} (ha : 0 < a) (hm : m % a = 0) (h : m ≤ n) :
    m ≤ roundDown n a := by
  obtain ⟨k, rfl⟩ := Nat.dvd_of_mod_eq_zero hm
  rw [roundDown, Nat.mul_comm a k]
  exact Nat.mul_le_mul_right a ((Nat.le_div_iff_mul_le ha).mpr (by rwa [Nat.mul_comm]))

/-! ## The order of words -/

instance instLinearOrderUInt64 : LinearOrder UInt64 where
  le_refl := UInt64.le_refl
  le_trans _ _ _ := UInt64.le_trans
  lt_iff_le_not_ge a b := by
    rw [UInt64.lt_iff_toNat_lt, UInt64.le_iff_toNat_le, UInt64.le_iff_toNat_le]
    omega
  le_antisymm _ _ := UInt64.le_antisymm
  le_total := UInt64.le_total
  toDecidableLE := inferInstance
  toDecidableLT := inferInstance

/-! ## Checked and saturating operations -/

variable {a b c : UInt64}

/-- `checked_add`. -/
def checkedAdd (a b : UInt64) : Option UInt64 :=
  if a.toNat + b.toNat < 2 ^ 64 then some (a + b) else none

/-- `checked_sub`. -/
def checkedSub (a b : UInt64) : Option UInt64 := if b ≤ a then some (a - b) else none

/-- `checked_mul`. -/
def checkedMul (a b : UInt64) : Option UInt64 :=
  if a.toNat * b.toNat < 2 ^ 64 then some (a * b) else none

/-- `<<`, which panics when the shift is not below the width of the word. -/
def checkedShl (a n : UInt64) : Option UInt64 := if n < 64 then some (a <<< n) else none

/-- `>>`, which panics when the shift is not below the width of the word. -/
def checkedShr (a n : UInt64) : Option UInt64 := if n < 64 then some (a >>> n) else none

/-- `saturating_add`. -/
def saturatingAdd (a b : UInt64) : UInt64 := (checkedAdd a b).getD (.ofNat (2 ^ 64 - 1))

/-- `saturating_sub`. -/
def saturatingSub (a b : UInt64) : UInt64 := (checkedSub a b).getD 0

theorem toNat_le_usizeMax (a : UInt64) : a.toNat ≤ usizeMax := by
  have hlt := a.toNat_lt
  rw [usizeMax]
  omega

theorem toNat_ofNat_of_le {n : Nat} (h : n ≤ usizeMax) : (UInt64.ofNat n).toNat = n := by
  rw [usizeMax] at h
  exact UInt64.toNat_ofNat_of_lt' (show n < 2 ^ 64 by omega)

theorem toNat_add_of_lt (h : a.toNat + b.toNat < 2 ^ 64) : (a + b).toNat = a.toNat + b.toNat := by
  rw [UInt64.toNat_add, Nat.mod_eq_of_lt h]

/-- Checked addition succeeds exactly with the exact sum. -/
theorem checkedAdd_eq_some : checkedAdd a b = some c ↔ c.toNat = a.toNat + b.toNat := by
  have hc := c.toNat_lt
  unfold checkedAdd
  split
  · rename_i h
    rw [Option.some.injEq, ← UInt64.toNat_inj, toNat_add_of_lt h, eq_comm]
  · rename_i h
    simp only [reduceCtorEq, false_iff]
    omega

theorem checkedSub_eq_some : checkedSub a b = some c ↔ a.toNat = b.toNat + c.toNat := by
  unfold checkedSub
  split
  · rename_i h
    have hle := UInt64.le_iff_toNat_le.mp h
    rw [Option.some.injEq, ← UInt64.toNat_inj, UInt64.toNat_sub_of_le _ _ h]
    omega
  · rename_i h
    have hlt : ¬ b.toNat ≤ a.toNat := fun hle => h (UInt64.le_iff_toNat_le.mpr hle)
    simp only [reduceCtorEq, false_iff]
    omega

theorem checkedMul_eq_some : checkedMul a b = some c ↔ c.toNat = a.toNat * b.toNat := by
  have hc := c.toNat_lt
  unfold checkedMul
  split
  · rename_i h
    rw [Option.some.injEq, ← UInt64.toNat_inj, UInt64.toNat_mul, Nat.mod_eq_of_lt h, eq_comm]
  · rename_i h
    simp only [reduceCtorEq, false_iff]
    omega

theorem saturatingAdd_toNat (a b : UInt64) :
    (saturatingAdd a b).toNat = min (a.toNat + b.toNat) (2 ^ 64 - 1) := by
  unfold saturatingAdd checkedAdd
  split
  · rename_i h
    rw [Option.getD_some, toNat_add_of_lt h]
    omega
  · rename_i h
    have hmax : (2 ^ 64 - 1 : Nat) ≤ usizeMax := Nat.le_refl _
    rw [Option.getD_none, toNat_ofNat_of_le hmax]
    omega

theorem saturatingSub_toNat (a b : UInt64) :
    (saturatingSub a b).toNat = a.toNat - b.toNat := by
  unfold saturatingSub checkedSub
  split
  · rename_i h
    rw [Option.getD_some, UInt64.toNat_sub_of_le _ _ h]
  · rename_i h
    have hlt : ¬ b.toNat ≤ a.toNat := fun hle => h (UInt64.le_iff_toNat_le.mpr hle)
    rw [Option.getD_none, UInt64.toNat_zero]
    omega

/-! ## Conversions -/

/-- `u64::try_from` of a `usize`. -/
def u64OfUsize (n : Nat) : Option UInt64 := if n ≤ usizeMax then some (.ofNat n) else none

/-- `usize::try_from` of a `u64`. -/
def usizeOfU64 (a : UInt64) : Option Nat := if a.toNat ≤ usizeMax then some a.toNat else none

/-- `u64::try_from` of an `i64`. -/
def u64OfI64 (d : Int64) : Option UInt64 := if 0 ≤ d then some d.toUInt64 else none

/-- `unsigned_abs`. -/
def unsignedAbs (d : Int64) : UInt64 := .ofNat d.toInt.natAbs

theorem u64OfUsize_eq_some {n : Nat} : u64OfUsize n = some a ↔ a.toNat = n := by
  unfold u64OfUsize
  split
  · rename_i h
    rw [Option.some.injEq, ← UInt64.toNat_inj, toNat_ofNat_of_le h, eq_comm]
  · rename_i h
    simp only [reduceCtorEq, false_iff]
    intro ha
    exact h (ha ▸ toNat_le_usizeMax a)

@[simp] theorem usizeOfU64_eq (a : UInt64) : usizeOfU64 a = some a.toNat :=
  if_pos (toNat_le_usizeMax a)

theorem int64_nonneg_iff {d : Int64} : 0 ≤ d ↔ 0 ≤ d.toInt := Int64.le_iff_toInt_le

theorem u64OfI64_eq_some {d : Int64} : u64OfI64 d = some a ↔ (a.toNat : Int) = d.toInt := by
  unfold u64OfI64
  split
  · rename_i h
    have hnonneg := int64_nonneg_iff.mp h
    rw [Option.some.injEq, ← UInt64.toNat_inj, Int64.toNat_toUInt64_of_le h, Int64.toNatClampNeg]
    omega
  · rename_i h
    rw [int64_nonneg_iff] at h
    simp only [reduceCtorEq, false_iff]
    omega

theorem unsignedAbs_toNat (d : Int64) : (unsignedAbs d).toNat = d.toInt.natAbs := by
  have hlow := d.le_toInt
  have hhigh := d.toInt_lt
  exact toNat_ofNat_of_le (by rw [usizeMax]; omega)

theorem toNat_min (a b : UInt64) : (min a b).toNat = min a.toNat b.toNat := by
  rcases le_total a b with h | h
  · rw [min_eq_left h, Nat.min_eq_left (UInt64.le_iff_toNat_le.mp h)]
  · rw [min_eq_right h, Nat.min_eq_right (UInt64.le_iff_toNat_le.mp h)]

/-! ## Masks -/

/-- `value & !(align - 1)`. -/
def maskDown (value align : UInt64) : UInt64 := value &&& ~~~(align - 1)

/-- Clearing the low `k` bits of a number below `2 ^ 64`. -/
theorem and_mask {v k : Nat} (hv : v < 2 ^ 64) (hk : k ≤ 64) :
    v &&& (2 ^ 64 - 1 - (2 ^ k - 1)) = v / 2 ^ k * 2 ^ k := by
  have hpow : 2 ^ k ≤ 2 ^ 64 := Nat.pow_le_pow_right (by decide) hk
  have hpos : 0 < 2 ^ k := Nat.two_pow_pos k
  have hmask : 2 ^ 64 - 1 - (2 ^ k - 1) = 2 ^ 64 - ((2 ^ k - 1) + 1) := by omega
  apply Nat.eq_of_testBit_eq
  intro i
  -- the two sides agree bit by bit, below and above bit `k`
  rw [Nat.testBit_and, hmask, Nat.testBit_two_pow_sub_succ (by omega), Nat.testBit_two_pow_sub_one,
    Nat.testBit_mul_two_pow, Nat.testBit_div_two_pow]
  by_cases hki : k ≤ i
  · -- above the mask: the bit of `v`, which has none from 64 on
    have hadd : i - k + k = i := by omega
    by_cases hi : i < 64
    · simp [hki, hi, hadd, Nat.not_lt.mpr hki]
    · have hzero : v.testBit i = false :=
        Nat.testBit_lt_two_pow (Nat.lt_of_lt_of_le hv (Nat.pow_le_pow_right (by decide) (by omega)))
      simp [hzero, hadd]
  · simp [hki, Nat.lt_of_not_le hki]

theorem maskDown_toNat {value align : UInt64} {k : Nat} (hk : k < 64)
    (halign : align.toNat = 2 ^ k) :
    (maskDown value align).toNat = roundDown value.toNat (2 ^ k) := by
  have hone : (1 : UInt64) ≤ align := by
    rw [UInt64.le_iff_toNat_le, halign]
    exact Nat.two_pow_pos k
  rw [maskDown, UInt64.toNat_and, UInt64.toNat_not, UInt64.toNat_sub_of_le _ _ hone, halign]
  exact and_mask value.toNat_lt (Nat.le_of_lt hk)

end XnuRs
