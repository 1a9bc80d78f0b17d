/-
  XnuRs.Lib.Levels

  The exception levels of AArch64, and the way down from EL2 to EL1.

  A processor has a stack pointer for each level, and the system registers that
  an exception return at EL2 goes by.  What is written to `HCR_EL2` is certain to
  be in effect behind an `isb` only: `eager` says whether it is in effect before.

  An instruction that the level has no access to, or that is not described here,
  has no result.
-/

import XnuRs.Lib.AArch64
import XnuRs.Lib.Bits

namespace XnuRs.Levels

open AArch64 (Reg Mem)

/-- `EL0` to `EL3`. -/
abbrev Level := Fin 4

structure Cpu where
  x : Reg → UInt64
  /-- `SP_EL0` to `SP_EL3`. -/
  sp : Level → UInt64
  level : Level
  /-- The level uses its own stack pointer, and not `SP_EL0`. -/
  spSel : Bool
  /-- The masks `D`, `A`, `I` and `F`. -/
  daif : BitVec 4
  /-- `PSTATE.IL`. -/
  illegal : Bool
  pc : UInt64
  /-- `HCR_EL2`, as it is read back. -/
  hcr : UInt64
  /-- The value of `HCR_EL2` that the processor goes by. -/
  hcrInEffect : UInt64
  spsrEl2 : UInt64
  elrEl2 : UInt64
  mem : Mem

inductive Instr where
  | mrsCurrentEl (rd : Reg)
  | lsr (rd rn : Reg) (shift : UInt64)
  | mrsHcrEl2 (rd : Reg)
  | orrImm (rd rn : Reg) (imm : UInt64)
  /-- `movz rd, #imm, lsl #shift`. -/
  | movz (rd : Reg) (imm shift : UInt64)
  | bic (rd rn rm : Reg)
  | msrHcrEl2 (rn : Reg)
  | isb
  /-- `mov rd, sp`. -/
  | movFromSp (rd : Reg)
  | msrSpEl1 (rn : Reg)
  | msrSpsrEl2 (rn : Reg)
  | msrElrEl2 (rn : Reg)
  | adr (rd : Reg) (offset : UInt64)
  | eret
  /-- `mov sp, rn`. -/
  | movToSp (rn : Reg)
  | mov (rd rn : Reg)
  | br (rn : Reg)
deriving DecidableEq, Repr

namespace Cpu

variable (s : Cpu)

/-- The stack pointer in use. -/
def currentSp : UInt64 := s.sp (if s.spSel then s.level else 0)

/-- Behind an instruction that only sets a register. -/
def setX (r : Reg) (v : UInt64) : Cpu := { s with x := Function.update s.x r v, pc := s.pc + 4 }

/-- Behind an instruction that sets no register. -/
def next : Cpu := { s with pc := s.pc + 4 }

end Cpu

/-- `HCR_EL2.RW`: EL1 is AArch64. -/
def rwBit : Nat := 31
/-- `HCR_EL2.TGE`: EL2 takes the place of EL1. -/
def tgeBit : Nat := 27

/-- The level that a saved state returns to. -/
def targetLevel (spsr : UInt64) : Level := ⟨spsr.toNat / 4 % 4, Nat.mod_lt _ (by decide)⟩

/-- An exception return at EL2 may go where the saved state says: to AArch64, not up, to EL1 only
    if that is there for AArch64, and to EL0 on its own stack only. -/
def LegalReturn (hcr spsr : UInt64) : Prop :=
  bits spsr 4 = false ∧ bits spsr 1 = false ∧
    match targetLevel spsr with
    | 0 => bits spsr 0 = false ∧ (bits hcr rwBit ∨ bits hcr tgeBit)
    | 1 => bits hcr rwBit ∧ bits hcr tgeBit = false
    | 2 => True
    | 3 => False

instance (hcr spsr : UInt64) : Decidable (LegalReturn hcr spsr) := by
  unfold LegalReturn
  split
  · infer_instance
  · infer_instance
  · infer_instance
  · infer_instance

/-- `eret` at EL2.  One that is not legal goes to the address, but not to the level. -/
def Cpu.eret (s : Cpu) : Cpu :=
  let masks := .ofNat 4 (s.spsrEl2.toNat / 2 ^ 6)
  if LegalReturn s.hcrInEffect s.spsrEl2 then
    { s with
      level := targetLevel s.spsrEl2
      spSel := bits s.spsrEl2 0
      daif := masks
      illegal := bits s.spsrEl2 20
      pc := s.elrEl2 }
  else
    { s with daif := masks, illegal := true, pc := s.elrEl2 }

/-- What an instruction does. -/
def Instr.exec (eager : Bool) (i : Instr) (s : Cpu) : Option Cpu :=
  match i with
  | mrsCurrentEl rd =>
      if s.level = 0 then none else some (s.setX rd (.ofNat (4 * s.level)))
  | lsr rd rn shift => some (s.setX rd (s.x rn >>> shift))
  | mrsHcrEl2 rd => if s.level < 2 then none else some (s.setX rd s.hcr)
  | orrImm rd rn imm => some (s.setX rd (s.x rn ||| imm))
  | movz rd imm shift => some (s.setX rd (imm <<< shift))
  | bic rd rn rm => some (s.setX rd (s.x rn &&& ~~~(s.x rm)))
  | msrHcrEl2 rn =>
      if s.level < 2 then none
      else some { s.next with
        hcr := s.x rn
        hcrInEffect := if eager then s.x rn else s.hcrInEffect }
  | isb => some { s.next with hcrInEffect := s.hcr }
  | movFromSp rd => some (s.setX rd s.currentSp)
  | msrSpEl1 rn =>
      if s.level < 2 then none else some { s.next with sp := Function.update s.sp 1 (s.x rn) }
  | msrSpsrEl2 rn => if s.level < 2 then none else some { s.next with spsrEl2 := s.x rn }
  | msrElrEl2 rn => if s.level < 2 then none else some { s.next with elrEl2 := s.x rn }
  | adr rd offset => some (s.setX rd (s.pc + offset))
  | eret => if s.level = 2 then some s.eret else none
  | movToSp rn =>
      some { s.next with sp := Function.update s.sp (if s.spSel then s.level else 0) (s.x rn) }
  | mov rd rn => some (s.setX rd (s.x rn))
  | br rn => some { s with pc := s.x rn }

/-- What a list of instructions does. -/
def execAll (eager : Bool) : List Instr → Cpu → Option Cpu
  | [], s => some s
  | i :: rest, s => do
    let s ← i.exec eager s
    execAll eager rest s

end XnuRs.Levels
