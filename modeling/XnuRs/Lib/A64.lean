/-
  XnuRs.Lib.A64

  The encoding of a few A64 instructions, and code in memory.

  `decode_encode` reads an instruction back from its word, and `decode_fetch`
  reads instruction `j` of a program back from the memory that the program was
  put in.  Words that encode no instruction of the fragment decode to `none`.
-/

import XnuRs.Lib.AArch64

namespace XnuRs.A64

open AArch64 (Mem)

/-! ## Instructions -/

inductive Instr where
  /-- `adr xd, #imm`: `imm` is signed, and relative to the instruction. -/
  | adr (rd : BitVec 5) (imm : BitVec 21)
  /-- `movz xd, #imm, lsl #(16 * hw)`. -/
  | movz (rd : BitVec 5) (imm : BitVec 16) (hw : BitVec 2)
  /-- `svc #imm`. -/
  | svc (imm : BitVec 16)
deriving DecidableEq, Repr

/-- The word of an instruction.  The two low bits of the immediate of `adr` lie above its
    operation code. -/
def Instr.encode : Instr → Nat
  | .adr rd imm => imm.toNat % 4 * 2 ^ 29 + 0x10 * 2 ^ 24 + imm.toNat / 4 * 2 ^ 5 + rd.toNat
  | .movz rd imm hw => 0x1a5 * 2 ^ 23 + hw.toNat * 2 ^ 21 + imm.toNat * 2 ^ 5 + rd.toNat
  | .svc imm => 0x6a0 * 2 ^ 21 + imm.toNat * 2 ^ 5 + 1

/-- The instruction of a word. -/
def decode (w : Nat) : Option Instr :=
  if w / 2 ^ 31 = 0 ∧ w / 2 ^ 24 % 2 ^ 5 = 0x10 then
    some (.adr (.ofNat 5 w) (.ofNat 21 (w / 2 ^ 5 % 2 ^ 19 * 4 + w / 2 ^ 29 % 4)))
  else if w / 2 ^ 23 = 0x1a5 then
    some (.movz (.ofNat 5 w) (.ofNat 16 (w / 2 ^ 5)) (.ofNat 2 (w / 2 ^ 21)))
  else if w / 2 ^ 21 = 0x6a0 ∧ w % 2 ^ 5 = 1 then some (.svc (.ofNat 16 (w / 2 ^ 5)))
  else none

theorem Instr.encode_lt (i : Instr) : i.encode < 2 ^ 32 := by
  cases i with
  | adr rd imm =>
      have hrd := rd.isLt
      have himm := imm.isLt
      rw [encode]
      omega
  | movz rd imm hw =>
      have hrd := rd.isLt
      have himm := imm.isLt
      have hhw := hw.isLt
      rw [encode]
      omega
  | svc imm =>
      have himm := imm.isLt
      rw [encode]
      omega

/-- An instruction is read back from its word. -/
theorem decode_encode (i : Instr) : decode i.encode = some i := by
  cases i with
  | adr rd imm =>
      have hrd := rd.isLt
      have himm := imm.isLt
      rw [Instr.encode]
      have hsplit : imm.toNat = imm.toNat / 4 * 4 + imm.toNat % 4 := by omega
      have hhigh : imm.toNat / 4 < 2 ^ 19 := by omega
      have hlow : imm.toNat % 4 < 4 := by omega
      generalize imm.toNat / 4 = hi, imm.toNat % 4 = lo at hsplit hhigh hlow
      generalize hw : lo * 2 ^ 29 + 0x10 * 2 ^ 24 + hi * 2 ^ 5 + rd.toNat = w
      -- the fields of the word, from the highest on
      have hlo : w / 2 ^ 29 = lo := by omega
      have hop : w / 2 ^ 24 = lo * 2 ^ 5 + 0x10 := by omega
      have hhi : w / 2 ^ 5 = (lo * 2 ^ 5 + 0x10) * 2 ^ 19 + hi := by omega
      have himm' : w / 2 ^ 5 % 2 ^ 19 * 4 + w / 2 ^ 29 % 4 = imm.toNat := by
        rw [hhi, hlo, Nat.mul_comm _ (2 ^ 19), Nat.mul_add_mod, Nat.mod_eq_of_lt hhigh,
          Nat.mod_eq_of_lt hlow, ← hsplit]
      rw [decode, if_pos (by omega), himm', BitVec.ofNat_toNat, BitVec.setWidth_eq]
      congr 2
      apply BitVec.eq_of_toNat_eq
      rw [BitVec.toNat_ofNat]
      omega
  | movz rd imm hw =>
      have hrd := rd.isLt
      have himm := imm.isLt
      have hhw := hw.isLt
      rw [Instr.encode, decode, if_neg (by omega), if_pos (by omega)]
      congr 2
      · apply BitVec.eq_of_toNat_eq
        rw [BitVec.toNat_ofNat]
        omega
      · apply BitVec.eq_of_toNat_eq
        rw [BitVec.toNat_ofNat]
        omega
      · apply BitVec.eq_of_toNat_eq
        rw [BitVec.toNat_ofNat]
        omega
  | svc imm =>
      have himm := imm.isLt
      rw [Instr.encode, decode, if_neg (by omega), if_neg (by omega), if_pos (by omega)]
      congr 2
      apply BitVec.eq_of_toNat_eq
      rw [BitVec.toNat_ofNat]
      omega

/-! ## Code in memory -/

/-- The bytes of a program. -/
def assemble (p : List Instr) : List UInt8 := p.flatMap fun i => leBytes 4 i.encode

@[simp] theorem assemble_cons (i : Instr) (p : List Instr) :
    assemble (i :: p) = leBytes 4 i.encode ++ assemble p := rfl

theorem assemble_length (p : List Instr) : (assemble p).length = 4 * p.length := by
  induction p with
  | nil => rfl
  | cons i p ih =>
      rw [assemble_cons, List.length_append, leBytes_length, ih, List.length_cons]
      omega

/-- The bytes stand in memory from `a` on. -/
def HoldsAt (m : Mem) (a : UInt64) (bytes : List UInt8) : Prop :=
  ∀ i < bytes.length, bytes[i]? = some (m (a + .ofNat i))

/-- The word of the instruction at an address. -/
def fetch (m : Mem) (a : UInt64) : Nat :=
  leToNat ((List.range 4).map fun i => m (a + .ofNat i))

variable {m m' : Mem} {a : UInt64} {bytes bytes' : List UInt8}

theorem HoldsAt.congr (h : HoldsAt m a bytes)
    (hsame : ∀ i < bytes.length, m' (a + .ofNat i) = m (a + .ofNat i)) : HoldsAt m' a bytes := by
  intro i hi
  rw [hsame i hi]
  exact h i hi

theorem HoldsAt.left (h : HoldsAt m a (bytes ++ bytes')) : HoldsAt m a bytes := by
  intro i hi
  have hall := h i (by rw [List.length_append]; omega)
  rwa [List.getElem?_append_left hi] at hall

/-- What stands behind a part of the bytes. -/
theorem HoldsAt.right (h : HoldsAt m a (bytes ++ bytes')) :
    HoldsAt m (a + .ofNat bytes.length) bytes' := by
  intro i hi
  have hall := h (bytes.length + i) (by rw [List.length_append]; omega)
  rw [List.getElem?_append_right (by omega), Nat.add_sub_cancel_left] at hall
  rw [hall, UInt64.add_assoc, UInt64.ofNat_add]

theorem fetch_of_holds {i : Instr} (h : HoldsAt m a (leBytes 4 i.encode)) :
    fetch m a = i.encode := by
  have hbytes : ((List.range 4).map fun i => m (a + .ofNat i)) = leBytes 4 i.encode := by
    apply List.ext_getElem?
    intro k
    by_cases hk : k < 4
    · rw [List.getElem?_map, List.getElem?_range hk, h k (by rwa [leBytes_length])]
      rfl
    · rw [List.getElem?_eq_none (by simpa using hk),
        List.getElem?_eq_none (by rw [leBytes_length]; omega)]
  rw [fetch, hbytes]
  exact leToNat_leBytes i.encode_lt

/-- Instruction `j` of a program is read back from the memory that holds it. -/
theorem decode_fetch {p : List Instr} (h : HoldsAt m a (assemble p)) {j : Nat} {i : Instr}
    (hi : p[j]? = some i) : decode (fetch m (a + .ofNat (4 * j))) = some i := by
  induction p generalizing a j with
  | nil => cases hi
  | cons i' p ih =>
      rw [assemble_cons] at h
      cases j with
      | zero =>
          obtain rfl := Option.some.inj hi
          have hzero : a + UInt64.ofNat (4 * 0) = a := UInt64.add_zero a
          rw [hzero, fetch_of_holds h.left, decode_encode]
      | succ j =>
          have hrest := ih h.right hi
          rw [leBytes_length, UInt64.add_assoc, ← UInt64.ofNat_add] at hrest
          rw [show 4 * (j + 1) = 4 + 4 * j by omega]
          exact hrest

end XnuRs.A64
