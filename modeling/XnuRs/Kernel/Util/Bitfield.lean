/-
  XnuRs.Kernel.Util.Bitfield

  The macros `bitfield_extract!` and `bitfield_insert!`
  (kernel/src/util/bitfield.rs), on words.

  The field from bit `low` to bit `high` has `high - low + 1` bits, and both
  macros make its mask by shifting 1 by that width.  The shift panics for the
  field of all 64 bits; for every other field the two are a lens on the bits of
  the word (`lensLaws_iff`).
-/

import XnuRs.Lib.Bits

namespace XnuRs.Kernel.Bitfield

/-- The local `width`. -/
def fieldWidth (high low : UInt64) : Outcome Empty UInt64 := do
  let distance ← .orPanic (checkedSub high low)
  .orPanic (checkedAdd distance 1)

/-- `(1u64 << width) - 1`. -/
def ones (width : UInt64) : Outcome Empty UInt64 := do
  let power ← .orPanic (checkedShl 1 width)
  .orPanic (checkedSub power 1)

/-- `bitfield_extract!`. -/
def extract (value high low : UInt64) : Outcome Empty UInt64 := do
  let width ← fieldWidth high low
  let shifted ← .orPanic (checkedShr value low)
  let mask ← ones width
  .ok (shifted &&& mask)

/-- `bitfield_insert!`. -/
def insert (base high low val : UInt64) : Outcome Empty UInt64 := do
  let width ← fieldWidth high low
  let lowMask ← ones width
  let mask ← .orPanic (checkedShl lowMask low)
  let valMask ← ones width
  let placed ← .orPanic (checkedShl (val &&& valMask) low)
  .ok ((base &&& ~~~mask) ||| placed)

/-! ## Fields below the full width -/

variable {base val value high low : UInt64}

/-- A field of a word, not the whole word. -/
structure Proper (high low : UInt64) : Prop where
  le : low ≤ high
  high_lt : high < 64
  notAll : ¬ (high = 63 ∧ low = 0)

/-- The number of bits of a field. -/
def widthOf (high low : UInt64) : Nat := high.toNat - low.toNat + 1

theorem Proper.bounds (h : Proper high low) :
    low.toNat ≤ high.toNat ∧ high.toNat < 64 ∧ widthOf high low < 64 := by
  have hle := UInt64.le_iff_toNat_le.mp h.le
  have hlt : high.toNat < 64 := UInt64.lt_iff_toNat_lt.mp h.high_lt
  refine ⟨hle, hlt, ?_⟩
  by_contra hwide
  rw [widthOf] at hwide
  apply h.notAll
  rw [← UInt64.toNat_inj, ← UInt64.toNat_inj]
  exact ⟨by show high.toNat = 63; omega, by show low.toNat = 0; omega⟩

theorem fieldWidth_eq (hle : low ≤ high) (hhigh : high < 64) :
    fieldWidth high low = .ok (.ofNat (widthOf high low)) := by
  have hle' := UInt64.le_iff_toNat_le.mp hle
  have hlt : high.toNat < 64 := UInt64.lt_iff_toNat_lt.mp hhigh
  have hwidth : (UInt64.ofNat (widthOf high low)).toNat = widthOf high low :=
    toNat_ofNat_of_le (by rw [usizeMax, widthOf]; omega)
  have hsub : checkedSub high low = some (high - low) := if_pos hle
  rw [fieldWidth, hsub, Outcome.orPanic_some, Outcome.ok_bind, Outcome.orPanic_eq_ok,
    checkedAdd_eq_some, hwidth, UInt64.toNat_sub_of_le _ _ hle, widthOf]
  rfl

theorem ones_eq {width : Nat} (h : width < 64) :
    ∃ mask, ones (.ofNat width) = .ok mask ∧ mask.toNat = 2 ^ width - 1 := by
  have hwidth : (UInt64.ofNat width).toNat = width := toNat_ofNat_of_le (by rw [usizeMax]; omega)
  have hpow : 2 ^ width < 2 ^ 64 := Nat.pow_lt_pow_right (by decide) h
  have hpos := Nat.two_pow_pos width
  -- below 64 the shifted 1 is a power of two, and stays in the word
  have hpower : ((1 : UInt64) <<< UInt64.ofNat width).toNat = 2 ^ width := by
    rw [UInt64.toNat_shiftLeft, hwidth, Nat.mod_eq_of_lt h]
    show 1 <<< width % 2 ^ 64 = 2 ^ width
    rw [Nat.one_shiftLeft, Nat.mod_eq_of_lt hpow]
  have hone : (1 : UInt64) ≤ (1 : UInt64) <<< UInt64.ofNat width := by
    rw [UInt64.le_iff_toNat_le, hpower]
    exact hpos
  have hshl : checkedShl 1 (.ofNat width) = some ((1 : UInt64) <<< UInt64.ofNat width) := by
    apply if_pos
    rw [UInt64.lt_iff_toNat_lt, hwidth]
    exact h
  have hsub : checkedSub ((1 : UInt64) <<< UInt64.ofNat width) 1 = some _ := if_pos hone
  refine ⟨_, by rw [ones, hshl, Outcome.orPanic_some, Outcome.ok_bind, hsub]; rfl, ?_⟩
  rw [UInt64.toNat_sub_of_le _ _ hone, hpower]
  rfl

/-- Extraction gets the field. -/
theorem extract_bits (h : Proper high low) (value : UInt64) :
    ∃ r, extract value high low = .ok r ∧
      bits r = BitString.getField low.toNat (widthOf high low) (bits value) := by
  obtain ⟨hle, hhigh, hwide⟩ := h.bounds
  obtain ⟨mask, hmask, hmaskNat⟩ := ones_eq hwide
  have hshr : checkedShr value low = some (value >>> low) :=
    if_pos (UInt64.lt_iff_toNat_lt.mpr (by show low.toNat < 64; omega))
  refine ⟨(value >>> low) &&& mask, ?_, ?_⟩
  · rw [extract, fieldWidth_eq h.le h.high_lt, Outcome.ok_bind, hshr, Outcome.orPanic_some,
      Outcome.ok_bind, hmask, Outcome.ok_bind]
  · funext i
    rw [bits_and, bits_shiftRight (by omega), bits_ones hmaskNat, Bool.and_comm]
    rfl

/-- Insertion puts the field. -/
theorem insert_bits (h : Proper high low) (base val : UInt64) :
    ∃ r, insert base high low val = .ok r ∧
      bits r = BitString.putField low.toNat (widthOf high low) (bits base) (bits val) := by
  obtain ⟨hle, hhigh, hwide⟩ := h.bounds
  obtain ⟨mask, hmask, hmaskNat⟩ := ones_eq hwide
  have hlow : low.toNat < 64 := by omega
  have hshl : ∀ a, checkedShl a low = some (a <<< low) := fun a =>
    if_pos (UInt64.lt_iff_toNat_lt.mpr hlow)
  refine ⟨(base &&& ~~~(mask <<< low)) ||| ((val &&& mask) <<< low), ?_, ?_⟩
  · rw [insert, fieldWidth_eq h.le h.high_lt, Outcome.ok_bind, hmask, Outcome.ok_bind, hshl,
      Outcome.orPanic_some, Outcome.ok_bind, Outcome.ok_bind, hshl, Outcome.orPanic_some,
      Outcome.ok_bind]
  · funext i
    rw [bits_or, bits_and, bits_not, bits_shiftLeft hlow, bits_shiftLeft hlow, bits_and,
      bits_ones hmaskNat, BitString.putField]
    -- inside the field, above it, below it
    by_cases hi : i < 64
    · by_cases hin : low.toNat ≤ i ∧ i < low.toNat + widthOf high low
      · have hfield : i - low.toNat < widthOf high low := by omega
        simp [hi, hin, hfield]
      · by_cases hbelow : low.toNat ≤ i
        · have hfield : ¬ i - low.toNat < widthOf high low := by omega
          have hout : ¬ i < low.toNat + widthOf high low := by omega
          simp [hi, hbelow, hfield, hout]
        · simp [hi, hbelow]
    · -- neither word has a bit there
      have hout : ¬ (low.toNat ≤ i ∧ i < low.toNat + widthOf high low) := by
        rw [widthOf]
        omega
      simp [hi, hout, bits_of_le (Nat.le_of_not_lt hi)]

/-! ## The laws -/

/-- Two fields without a common bit. -/
def Disjoint (high low high' low' : UInt64) : Prop := high' < low ∨ high < low'

/-- The laws of a lens, for one field: what is inserted is extracted again, cut to the width;
    inserting what was extracted changes nothing; a second insertion overrides the first; and
    a field apart from this one keeps its bits.  No operation panics. -/
structure LensLaws (high low : UInt64) : Prop where
  extract_insert : ∀ base val, ∃ r e, insert base high low val = .ok r ∧
    extract r high low = .ok e ∧ e.toNat = val.toNat % 2 ^ (high.toNat - low.toNat + 1)
  insert_extract : ∀ base, ∃ e, extract base high low = .ok e ∧
    insert base high low e = .ok base
  insert_insert : ∀ base val val', ∃ r r', insert base high low val = .ok r ∧
    insert r high low val' = .ok r' ∧ insert base high low val' = .ok r'
  extract_disjoint : ∀ base val high' low', low' ≤ high' → high' < 64 →
    Disjoint high low high' low' → ∃ r e, insert base high low val = .ok r ∧
      extract r high' low' = .ok e ∧ extract base high' low' = .ok e

/-- A field apart from another one is not the whole word. -/
theorem proper_of_disjoint {high' low' : UInt64} (h : Proper high low) (hle' : low' ≤ high')
    (hhigh' : high' < 64) (hdisjoint : Disjoint high low high' low') : Proper high' low' := by
  refine ⟨hle', hhigh', ?_⟩
  rintro ⟨rfl, rfl⟩
  obtain ⟨hle, hlt, -⟩ := h.bounds
  rcases hdisjoint with hbelow | habove
  · have hbelow : 63 < low.toNat := UInt64.lt_iff_toNat_lt.mp hbelow
    omega
  · exact UInt64.not_lt_zero habove

theorem lensLaws_of_proper (h : Proper high low) : LensLaws high low where
  extract_insert base val := by
    obtain ⟨r, hr, hbits⟩ := insert_bits h base val
    obtain ⟨e, he, hebits⟩ := extract_bits h r
    refine ⟨r, e, hr, he, ?_⟩
    rw [hbits, BitString.getField_putField] at hebits
    exact toNat_of_bits hebits
  insert_extract base := by
    obtain ⟨e, he, hebits⟩ := extract_bits h base
    obtain ⟨r, hr, hbits⟩ := insert_bits h base e
    rw [hebits, BitString.putField_getField] at hbits
    obtain rfl := bits_injective hbits
    exact ⟨e, he, hr⟩
  insert_insert base val val' := by
    obtain ⟨r, hr, hbits⟩ := insert_bits h base val
    obtain ⟨r', hr', hbits'⟩ := insert_bits h r val'
    obtain ⟨r'', hr'', hbits''⟩ := insert_bits h base val'
    rw [hbits, BitString.putField_putField, ← hbits''] at hbits'
    obtain rfl := bits_injective hbits'
    exact ⟨r, r', hr, hr', hr''⟩
  extract_disjoint base val high' low' hle' hhigh' hdisjoint := by
    have hother := proper_of_disjoint h hle' hhigh' hdisjoint
    obtain ⟨r, hr, hbits⟩ := insert_bits h base val
    obtain ⟨e, he, hebits⟩ := extract_bits hother r
    obtain ⟨e', he', hebits'⟩ := extract_bits hother base
    -- the order of the bounds, as intervals of bits
    have hapart : low'.toNat + widthOf high' low' ≤ low.toNat ∨
        low.toNat + widthOf high low ≤ low'.toNat := by
      obtain ⟨hle, -, -⟩ := h.bounds
      obtain ⟨hle', -, -⟩ := hother.bounds
      rw [widthOf, widthOf]
      rcases hdisjoint with hbelow | habove
      · have hbelow := UInt64.lt_iff_toNat_lt.mp hbelow
        omega
      · have habove := UInt64.lt_iff_toNat_lt.mp habove
        omega
    rw [hbits, BitString.getField_putField_of_disjoint hapart, ← hebits'] at hebits
    obtain rfl := bits_injective hebits
    exact ⟨r, e, hr, he, he'⟩

/-- The field of all 64 bits has no mask. -/
theorem extract_full (value : UInt64) : extract value 63 0 = .panic := rfl

theorem insert_full (base val : UInt64) : insert base 63 0 val = .panic := rfl

/-- The laws hold of a field exactly when it is not the whole word. -/
theorem lensLaws_iff (high low : UInt64) (hle : low ≤ high) (hhigh : high < 64) :
    LensLaws high low ↔ ¬ (high = 63 ∧ low = 0) := by
  refine ⟨?_, fun hnotAll => lensLaws_of_proper ⟨hle, hhigh, hnotAll⟩⟩
  rintro hlaws ⟨rfl, rfl⟩
  obtain ⟨e, he, -⟩ := hlaws.insert_extract 0
  rw [extract_full] at he
  cases he

theorem lensLaws_iff_byte : LensLaws 15 8 ↔ ¬ ((15 : UInt64) = 63 ∧ (8 : UInt64) = 0) :=
  lensLaws_iff 15 8 (by decide) (by decide)

theorem not_lensLaws_full : ¬ LensLaws 63 0 := by
  intro hlaws
  obtain ⟨r, e, hr, -⟩ := hlaws.extract_insert 0 0
  rw [insert_full] at hr
  cases hr

end XnuRs.Kernel.Bitfield
