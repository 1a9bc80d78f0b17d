/-
  XnuRs.Kernel.Arch.Context

  The saved state of a trap (kernel/src/arch/aarch64/context.rs).
-/

import XnuRs.Lib.AArch64

namespace XnuRs.Kernel

open AArch64

/-- `TrapFrame`. -/
@[ext] structure TrapFrame where
  x : Vector UInt64 31
  sp : UInt64
  pc : UInt64
  pstate : UInt64
deriving DecidableEq, Repr

namespace TrapFrame

/-- `TrapFrame::new_user`. -/
def newUser (entry sp : UInt64) : TrapFrame := ⟨.replicate 31 0, sp, entry, 0⟩

/-- The frame at an address.  All of its fields are made of words, so `repr(C)` puts them in
    the order of their declaration and without gaps: `x` into words 0 to 30, and the others
    into words 31 to 33. -/
def read (m : Mem) (a : UInt64) : TrapFrame where
  x := .ofFn fun i => word m (slot a i)
  sp := word m (slot a 31)
  pc := word m (slot a 32)
  pstate := word m (slot a 33)

/-- The `x` field with `v` in place of `x[0]`. -/
def setX0 (frame : TrapFrame) (v : UInt64) : TrapFrame := { frame with x := frame.x.set 0 v }

end TrapFrame
end XnuRs.Kernel
