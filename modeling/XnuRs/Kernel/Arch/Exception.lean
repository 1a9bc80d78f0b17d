/-
  XnuRs.Kernel.Arch.Exception

  Exceptions and system calls (kernel/src/arch/aarch64/exception.rs and
  syscall.rs): the Rust handlers, the code that saves and restores the state
  around them, and the run of a user program with its traps.

  A handler that ends in `loop { spin_loop() }` never returns; it is modelled by
  the value `none`.
-/

import XnuRs.Kernel.Exec.Macho

namespace XnuRs.Kernel

open AArch64

/-! ## System calls -/

/-- `SYS_EXIT`. -/
def sysExit : UInt64 := 1
/-- `SYS_WRITE`. -/
def sysWrite : UInt64 := 4

/-- `u64::MAX`. -/
def u64Max : UInt64 := .ofNat (2 ^ 64 - 1)

/-- `uart::write_byte`. -/
def printByte (byte : UInt8) : Executing Unit := .emit (.uart (.byte byte))

/-- `syscall::dispatch`. -/
def dispatch (m : Mem) (frame : TrapFrame) : Executing (Option TrapFrame) :=
  let nr := frame.x.get 16
  if nr = sysExit then do
    let code := frame.x.get 0
    printStr "xnu-rs: user exit("
    printHexU64 code
    printStr ")\n"
    return none
  else if nr = sysWrite then
    let fd := frame.x.get 0
    let bufPtr := frame.x.get 1
    let rawLen := frame.x.get 2
    if (fd = 1 ∨ fd = 2) ∧ bufPtr ≠ 0 ∧ rawLen ≤ 65536 then do
      let bytes := (List.range rawLen.toNat).map fun i => m (bufPtr + .ofNat i)
      Traced.forEach printByte bytes
      return some (frame.setX0 rawLen)
    else
      return some (frame.setX0 u64Max)
  else do
    printStr "xnu-rs: unimplemented syscall x16=0x"
    printHexU64 nr
    printStr "\n"
    return some (frame.setX0 u64Max)

/-! ## Handlers -/

/-- The functions that `save_restore_eret` is used with. -/
inductive Handler where
  | exceptionLowerElSync
  | exceptionLowerElIrq
  | exceptionEl1Sync
  | exceptionEl1Irq
deriving DecidableEq, Repr

/-- `exception_lower_el_sync`. -/
def exceptionLowerElSync (esr far : UInt64) (m : Mem) (frame : TrapFrame) :
    Executing (Option TrapFrame) :=
  let ec := (esr >>> 26) &&& 0x3f
  if ec = 0x15 then
    dispatch m frame
  else do
    printStr "xnu-rs: unexpected lower-EL sync exception EC=0x"
    printHexU64 ec
    printStr " FAR=0x"
    printHexU64 far
    printStr " ELR=0x"
    printHexU64 frame.pc
    printStr "\n"
    return none

/-- `exception_el1_sync`. -/
def exceptionEl1Sync (esr : UInt64) (frame : TrapFrame) : Executing (Option TrapFrame) := do
  printStr "xnu-rs: kernel sync exception ESR=0x"
  printHexU64 esr
  printStr " ELR=0x"
  printHexU64 frame.pc
  printStr "\n"
  return none

/-- `exception_el1_irq` and `exception_lower_el_irq`, with their messages. -/
def unhandledIrq (message : String) : Executing (Option TrapFrame) := do
  printStr message
  return none

/-- What a handler makes of the frame it is given. -/
def Handler.run (handler : Handler) (esr far : UInt64) (m : Mem) (frame : TrapFrame) :
    Executing (Option TrapFrame) :=
  match handler with
  | exceptionLowerElSync => Kernel.exceptionLowerElSync esr far m frame
  | exceptionLowerElIrq => unhandledIrq "xnu-rs: unhandled lower-EL IRQ\n"
  | exceptionEl1Sync => Kernel.exceptionEl1Sync esr frame
  | exceptionEl1Irq => unhandledIrq "xnu-rs: unhandled EL1 IRQ\n"

/-- A call of a handler that returns, by the procedure call standard: the pointer to the frame
    is in `x0`; the stack pointer and `x19` to `x29` are kept, every other register may change,
    and so may all memory but the frame, which the handler changes through its argument. -/
structure Handler.Call (handler : Handler) (s s' : Machine) : Prop where
  frame : (handler.run (s.sys .esrEl1) (s.sys .farEl1) s.mem (.read s.mem (s.x 0))).result =
    .ok (some (.read s'.mem (s.x 0)))
  spEl1 : s'.spEl1 = s.spEl1
  calleeSaved : ∀ r : Reg, 19 ≤ r.val → r.val ≤ 29 → s'.x r = s.x r

/-! ## `save_restore_eret` -/

/-- The stores of `x0` to `x30`. -/
def saveGeneral : List Instr := [
  .stp 0 1 .sp 0,
  .stp 2 3 .sp 16,
  .stp 4 5 .sp 32,
  .stp 6 7 .sp 48,
  .stp 8 9 .sp 64,
  .stp 10 11 .sp 80,
  .stp 12 13 .sp 96,
  .stp 14 15 .sp 112,
  .stp 16 17 .sp 128,
  .stp 18 19 .sp 144,
  .stp 20 21 .sp 160,
  .stp 22 23 .sp 176,
  .stp 24 25 .sp 192,
  .stp 26 27 .sp 208,
  .stp 28 29 .sp 224,
  .str 30 .sp 240]

/-- The stores of `SP_EL0`, `ELR_EL1` and `SPSR_EL1`. -/
def saveSystem : List Instr := [
  .mrs 0 .spEl0,
  .str 0 .sp 248,
  .mrs 0 .elrEl1,
  .str 0 .sp 256,
  .mrs 0 .spsrEl1,
  .str 0 .sp 264]

/-- The code before the call: allocate the frame, fill it, and pass its address. -/
def save : List Instr := .subSp 272 :: saveGeneral ++ saveSystem ++ [.movSp 0]

/-- The loads of the system registers. -/
def restoreSystem : List Instr := [
  .ldr 0 .sp 264,
  .msr .spsrEl1 0,
  .ldr 0 .sp 256,
  .msr .elrEl1 0,
  .ldr 0 .sp 248,
  .msr .spEl0 0]

/-- The loads of `x0` to `x30`. -/
def restoreGeneral : List Instr := [
  .ldp 28 29 .sp 224,
  .ldr 30 .sp 240,
  .ldp 26 27 .sp 208,
  .ldp 24 25 .sp 192,
  .ldp 22 23 .sp 176,
  .ldp 20 21 .sp 160,
  .ldp 18 19 .sp 144,
  .ldp 16 17 .sp 128,
  .ldp 14 15 .sp 112,
  .ldp 12 13 .sp 96,
  .ldp 10 11 .sp 80,
  .ldp 8 9 .sp 64,
  .ldp 6 7 .sp 48,
  .ldp 4 5 .sp 32,
  .ldp 2 3 .sp 16,
  .ldp 0 1 .sp 0]

/-- The code after the call. -/
def restore : List Instr := restoreSystem ++ restoreGeneral ++ [.addSp 272, .eret]

/-- `save_restore_eret`. -/
def saveRestoreEret (handler : Handler) : List (Line Handler) :=
  save.map .op ++ .bl handler :: restore.map .op

/-! ## `user_enter` -/

/-- The loads of the system registers, through `x1`. -/
def enterSystem : List Instr := [
  .ldr 1 (.x 0) 248,
  .msr .spEl0 1,
  .ldr 1 (.x 0) 256,
  .msr .elrEl1 1,
  .ldr 1 (.x 0) 264,
  .msr .spsrEl1 1]

/-- The loads of `x2` to `x30`. -/
def enterGeneral : List Instr := [
  .ldp 2 3 (.x 0) 16,
  .ldp 4 5 (.x 0) 32,
  .ldp 6 7 (.x 0) 48,
  .ldp 8 9 (.x 0) 64,
  .ldp 10 11 (.x 0) 80,
  .ldp 12 13 (.x 0) 96,
  .ldp 14 15 (.x 0) 112,
  .ldp 16 17 (.x 0) 128,
  .ldp 18 19 (.x 0) 144,
  .ldp 20 21 (.x 0) 160,
  .ldp 22 23 (.x 0) 176,
  .ldp 24 25 (.x 0) 192,
  .ldp 26 27 (.x 0) 208,
  .ldp 28 29 (.x 0) 224,
  .ldr 30 (.x 0) 240]

/-- `user_enter`: `x0` points to the frame, and is loaded last. -/
def userEnter : List Instr := enterSystem ++ enterGeneral ++ [.ldp 0 1 (.x 0) 0, .eret]

/-! ## User programs -/

/-- The syndrome of `svc #imm` at EL0: exception class 0x15, a 32-bit instruction. -/
def svcSyndrome (imm : UInt16) : UInt64 := .ofNat (0x15 * 2 ^ 26 + 2 ^ 25 + imm.toNat)

/-- What happens while a user program runs: it computes, or it traps with `svc` and is
    returned to. -/
inductive UserEvent where
  | compute
  | svc (imm : UInt16) (before after : Machine)

/-- One event.  The user program may do anything but change `SP_EL1`; `before` is the machine
    with `pc` behind the `svc`, and `after` the machine back at EL0. -/
inductive UserStep : Machine → UserEvent → Machine → Prop
  | compute {s s' : Machine} (h : s'.spEl1 = s.spEl1) : UserStep s .compute s'
  | svc {s s' : Machine} {imm : UInt16}
      (h : Runs (Step Handler.Call) (s.takeException (svcSyndrome imm))
        (saveRestoreEret .exceptionLowerElSync) s') :
      UserStep s (.svc imm s s') s'

end XnuRs.Kernel
