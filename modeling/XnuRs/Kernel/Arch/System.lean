/-
  XnuRs.Kernel.Arch.System

  The kernel from the first entry of EL0 on (kernel/src/arch/aarch64/exception.rs):
  the vector table, and the machine that goes through it step by step, prints
  to the console, and returns to the user program or hangs.

  What runs at EL0 is a parameter, `UserCode`.  So is the memory that the kernel
  calls its own, which a handler may change as it likes.  User code may do
  anything to the memory but change the code of the kernel; a device is not part
  of the memory.
-/

import XnuRs.Kernel.Arch.ExceptionResults
import XnuRs.Kernel.Arch.Uart

namespace XnuRs.Kernel

open AArch64

/-! ## The vector table -/

/-- Where an exception comes from. -/
inductive Origin where
  | currentElSp0
  | currentElSpx
  | lowerElAArch64
  | lowerElAArch32
deriving DecidableEq, Repr

inductive ExceptionKind where
  | sync
  | irq
  | fiq
  | serror
deriving DecidableEq, Repr

/-- The offset from `VBAR_EL1` at which the processor takes an exception. -/
def vectorOffset (origin : Origin) (kind : ExceptionKind) : Nat :=
  (match origin with
    | .currentElSp0 => 0x000
    | .currentElSpx => 0x200
    | .lowerElAArch64 => 0x400
    | .lowerElAArch32 => 0x600) +
  match kind with
    | .sync => 0x000
    | .irq => 0x080
    | .fiq => 0x100
    | .serror => 0x180

/-- The labels that the table branches to. -/
inductive VectorLabel where
  | el1Sp0Sync
  | el1Sp0Irq
  | el1Sp0Fiq
  | el1Sp0Serror
  | el1SpxSync
  | el1SpxIrq
  | el1SpxFiq
  | el1SpxSerror
  | lowerElSync
  | lowerElIrq
  | lowerElFiq
  | lowerElSerror
  | lowerElAarch32Sync
  | lowerElAarch32Irq
  | lowerElAarch32Fiq
  | lowerElAarch32Serror
deriving DecidableEq, Repr

/-- `_vector_table`: a `ventry` is aligned to 128 bytes, and branches to its label. -/
def vectorTable : List VectorLabel := [
  .el1Sp0Sync, .el1Sp0Irq, .el1Sp0Fiq, .el1Sp0Serror,
  .el1SpxSync, .el1SpxIrq, .el1SpxFiq, .el1SpxSerror,
  .lowerElSync, .lowerElIrq, .lowerElFiq, .lowerElSerror,
  .lowerElAarch32Sync, .lowerElAarch32Irq, .lowerElAarch32Fiq, .lowerElAarch32Serror]

/-- The code at a label: a branch to itself, or `save_restore_eret`. -/
inductive VectorCode where
  | branchToSelf
  | saveRestoreEret (handler : Handler)
deriving DecidableEq, Repr

def VectorLabel.code : VectorLabel → VectorCode
  | el1Sp0Sync => .branchToSelf
  | el1Sp0Irq => .branchToSelf
  | el1Sp0Fiq => .branchToSelf
  | el1Sp0Serror => .branchToSelf
  | el1SpxSync => .saveRestoreEret .exceptionEl1Sync
  | el1SpxIrq => .saveRestoreEret .exceptionEl1Irq
  | el1SpxFiq => .branchToSelf
  | el1SpxSerror => .branchToSelf
  | lowerElSync => .saveRestoreEret .exceptionLowerElSync
  | lowerElIrq => .saveRestoreEret .exceptionLowerElIrq
  | lowerElFiq => .branchToSelf
  | lowerElSerror => .branchToSelf
  | lowerElAarch32Sync => .branchToSelf
  | lowerElAarch32Irq => .branchToSelf
  | lowerElAarch32Fiq => .branchToSelf
  | lowerElAarch32Serror => .branchToSelf

/-- The code that an exception runs. -/
def vectorCode (origin : Origin) (kind : ExceptionKind) : Option VectorCode :=
  vectorTable[vectorOffset origin kind / 128]?.map VectorLabel.code

/-! ## User code -/

/-- An exception, with what it leaves in `ESR_EL1` and `FAR_EL1`. -/
structure Exception where
  kind : ExceptionKind
  esr : UInt64
  far : UInt64
deriving DecidableEq, Repr

/-- The exception class. -/
def Exception.ec (e : Exception) : UInt64 := (e.esr >>> 26) &&& 0x3f

/-- The exception is an `svc` of 64-bit code. -/
def Exception.IsSvc (e : Exception) : Prop := e.kind = .sync ∧ e.ec = 0x15

instance (e : Exception) : Decidable e.IsSvc := inferInstanceAs (Decidable (_ ∧ _))

/-- What a program at EL0 sees of the machine. -/
@[ext] structure UserState where
  x : Reg → UInt64
  sp : UInt64
  pc : UInt64
  pstate : UInt64
  mem : Mem

/-- The user's part of a machine. -/
def UserState.of (s : Machine) : UserState := ⟨s.x, s.sys .spEl0, s.pc, s.pstate, s.mem⟩

/-- The machine with another user's part. -/
def UserState.into (u : UserState) (s : Machine) : Machine :=
  { s with x := u.x, sys := Function.update s.sys .spEl0 u.sp, pc := u.pc, pstate := u.pstate, mem := u.mem }

/-- The code at EL0: how it changes what it sees, and which exceptions it takes or is
    interrupted by, with what it sees then (for an `svc`, the program counter behind it). -/
structure UserCode where
  computes : UserState → UserState → Prop
  raises : UserState → Exception → UserState → Prop

/-- User code of which nothing is known. -/
def UserCode.any : UserCode := ⟨fun _ _ => True, fun _ _ _ => True⟩

/-! ## The machine -/

/-- The prints among the effects of the kernel. -/
def printed (log : List KernelOp) : List UartOp :=
  log.filterMap fun
    | .uart op => some op
    | _ => none

/-- The run of a handler that is called with a pointer to its frame in `x0`. -/
def Handler.callRun (handler : Handler) (s : Machine) : Executing (Option TrapFrame) :=
  handler.run (s.sys .esrEl1) (s.sys .farEl1) s.mem (.read s.mem (s.x 0))

/-- A call of a handler that returns, and changes no memory but the kernel's. -/
structure Handler.Returns (kernelMemory : UInt64 → Prop) (handler : Handler) (s s' : Machine) :
    Prop where
  call : handler.Call s s'
  mem : ∀ a, ¬ kernelMemory a → s'.mem a = s.mem a

inductive Mode where
  /-- The machine is at EL0. -/
  | user
  /-- A handler runs; `pending` is what it will print before it returns or hangs. -/
  | handling (handler : Handler) (pending : List UartOp)
  /-- The kernel is in a loop that does nothing, for ever. -/
  | spinning
deriving DecidableEq, Repr

structure System where
  machine : Machine
  mode : Mode
  console : List UInt8

/-- The processor takes an exception to EL1. -/
def Exception.take (e : Exception) (s : Machine) : Machine :=
  (s.setSys .farEl1 e.far).takeException e.esr

/-- The code of a vector runs, up to the call of the handler. -/
def VectorCode.enter (code : VectorCode) (s : Machine) (console : List UInt8) : System :=
  match code with
  | branchToSelf => ⟨s, .spinning, console⟩
  | saveRestoreEret handler =>
      let t := execAll save s
      ⟨t, .handling handler (printed (handler.callRun t).log), console⟩

inductive SystemEvent where
  | compute
  | take (e : Exception)
  | print
  | resume
  | hang (handler : Handler)
  | fault
deriving DecidableEq, Repr

variable (kernelMemory : UInt64 → Prop) (code : UserCode)

/-- One step.  Interrupts are masked at EL1, and the handlers leave them masked; what can
    come in the middle of a handler is a synchronous exception. -/
inductive System.Step : System → SystemEvent → System → Prop
  | compute {s : Machine} {console : List UInt8} {u : UserState} (h : code.computes (.of s) u) :
      Step ⟨s, .user, console⟩ .compute ⟨u.into s, .user, console⟩
  | take {s : Machine} {console : List UInt8} {u : UserState} {e : Exception} {c : VectorCode}
      (h : code.raises (.of s) e u) (hc : vectorCode .lowerElAArch64 e.kind = some c) :
      Step ⟨s, .user, console⟩ (.take e) (c.enter (e.take (u.into s)) console)
  | print {s : Machine} {console : List UInt8} {handler : Handler} {op : UartOp}
      {pending : List UartOp} :
      Step ⟨s, .handling handler (op :: pending), console⟩ .print
        ⟨s, .handling handler pending, console ++ op.bytes⟩
  | resume {s s' : Machine} {console : List UInt8} {handler : Handler}
      (h : handler.Returns kernelMemory s s') :
      Step ⟨s, .handling handler [], console⟩ .resume ⟨execAll restore s', .user, console⟩
  | hang {s : Machine} {console : List UInt8} {handler : Handler}
      (h : (handler.callRun s).result = .ok none) :
      Step ⟨s, .handling handler [], console⟩ (.hang handler) ⟨s, .spinning, console⟩
  /-- `s'` is the machine at the instruction of the handler that faults. -/
  | fault {s s' : Machine} {console : List UInt8} {handler : Handler} {pending : List UartOp}
      {e : Exception} {c : VectorCode} (hkind : e.kind = .sync)
      (hc : vectorCode .currentElSpx e.kind = some c) :
      Step ⟨s, .handling handler pending, console⟩ .fault (c.enter (e.take s') console)

end XnuRs.Kernel
