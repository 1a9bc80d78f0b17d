/-
  XnuRs.Kernel.Arch.UserCode

  User programs by their instructions: what the processor does at EL0 with the
  word at the program counter.

  Of a word that is no instruction of the fragment nothing is known.  Interrupts
  do not come.
-/

import XnuRs.Kernel.Arch.System
import XnuRs.Lib.A64

namespace XnuRs.Kernel

open AArch64

/-- A write to `xd`, where register 31 is the zero register. -/
def UserState.setXr (u : UserState) (rd : BitVec 5) (v : UInt64) : UserState :=
  if h : rd.toNat < 31 then { u with x := Function.update u.x ⟨rd.toNat, h⟩ v } else u

/-- The instruction at the program counter. -/
def UserState.instr (u : UserState) : Option A64.Instr := A64.decode (A64.fetch u.mem u.pc)

/-- What an instruction makes of the user's state, unless it raises an exception. -/
def UserState.exec (u : UserState) : A64.Instr → Option UserState
  | .adr rd imm => some { u.setXr rd (u.pc + .ofBitVec (imm.signExtend 64)) with pc := u.pc + 4 }
  | .movz rd imm hw =>
      some { u.setXr rd (.ofNat (imm.toNat * 2 ^ (16 * hw.toNat))) with pc := u.pc + 4 }
  | .svc _ => none

/-- The exception of an `svc`, whatever is in `FAR_EL1`. -/
def IsException (imm : BitVec 16) (e : Exception) : Prop :=
  e.kind = .sync ∧ e.esr = svcSyndrome (.ofBitVec imm)

/-- The code that the memory of the user holds.  No interrupt arrives at an instruction that is
    described here; where another one stands, anything can happen. -/
def a64Code : UserCode where
  computes u u' :=
    match u.instr with
    | some i => u.exec i = some u'
    | none => True
  raises u e u' :=
    match u.instr with
    | some (.svc imm) => IsException imm e ∧ u' = { u with pc := u.pc + 4 }
    | some _ => False
    | none => True

variable {u u' : UserState} {e : Exception}

theorem a64_computes_iff {i : A64.Instr} (hi : u.instr = some i) :
    a64Code.computes u u' ↔ u.exec i = some u' := by
  show (match u.instr with
    | some i => u.exec i = some u'
    | none => True) ↔ _
  rw [hi]

theorem a64_raises_svc_iff {imm : BitVec 16} (hi : u.instr = some (.svc imm)) :
    a64Code.raises u e u' ↔ IsException imm e ∧ u' = { u with pc := u.pc + 4 } := by
  show (match u.instr with
    | some (.svc imm) => IsException imm e ∧ u' = { u with pc := u.pc + 4 }
    | some _ => False
    | none => True) ↔ _
  rw [hi]

/-- The other instructions raise no exception. -/
theorem a64_not_raises {i : A64.Instr} (hi : u.instr = some i) {v : UserState}
    (hexec : u.exec i = some v) : ¬ a64Code.raises u e u' := by
  show ¬ match u.instr with
    | some (.svc imm) => IsException imm e ∧ u' = { u with pc := u.pc + 4 }
    | some _ => False
    | none => True
  rw [hi]
  cases i with
  | adr => exact id
  | movz => exact id
  | svc => cases hexec

theorem IsException.isSvc {imm : BitVec 16} (h : IsException imm e) : e.IsSvc := by
  refine ⟨h.1, ?_⟩
  rw [Exception.ec, h.2]
  exact svcSyndrome_class _

end XnuRs.Kernel
