/-
  XnuRs.Kernel.Arch.Process

  The machine that a user program can count on: its own registers and memory, a
  console, and system calls that happen in one step.

  This is what the kernel is for, told without trap frames, vectors or handlers.
  `SystemResults` shows that the kernel's machine behaves like it.
-/

import XnuRs.Kernel.Arch.System

namespace XnuRs.Kernel

open AArch64

/-! ## What is printed -/

/-- The text of an `exit`. -/
def exitText (status : UInt64) : List UInt8 :=
  asBytes "xnu-rs: user exit(" ++ hexBytes status.toNat ++ asBytes ")\n"

/-- The text of a system call that does not exist. -/
def unimplementedText (nr : UInt64) : List UInt8 :=
  asBytes "xnu-rs: unimplemented syscall x16=0x" ++ hexBytes nr.toNat ++ asBytes "\n"

/-- The text of an exception that the program is stopped for. -/
def unexpectedText (e : Exception) (pc : UInt64) : List UInt8 :=
  asBytes "xnu-rs: unexpected lower-EL sync exception EC=0x" ++ hexBytes e.ec.toNat ++
    asBytes " FAR=0x" ++ hexBytes e.far.toNat ++ asBytes " ELR=0x" ++ hexBytes pc.toNat ++
    asBytes "\n"

/-- The text of an interrupt. -/
def interruptText : List UInt8 := asBytes "xnu-rs: unhandled lower-EL IRQ\n"

/-- The text of a fault of the kernel's own. -/
def faultText (esr elr : UInt64) : List UInt8 :=
  asBytes "xnu-rs: kernel sync exception ESR=0x" ++ hexBytes esr.toNat ++ asBytes " ELR=0x" ++
    hexBytes elr.toNat ++ asBytes "\n"

/-! ## System calls -/

variable (kernelMemory : UInt64 → Prop)

/-- A system call that returns: what it prints, and its result. -/
inductive Syscall (u : UserState) : List UInt8 → UInt64 → Prop
  /-- The bytes of the buffer, unless the program names memory of the kernel. -/
  | write {bytes : List UInt8} (h : AcceptedWrite u.x) (hlen : bytes.length = (u.x 2).toNat)
      (hbytes : ∀ i < bytes.length, ¬ kernelMemory (u.x 1 + .ofNat i) →
        bytes[i]? = some (u.mem (u.x 1 + .ofNat i))) :
      Syscall u bytes (u.x 2)
  | rejected (hnr : u.x 16 = sysWrite) (h : ¬ AcceptedWrite u.x) : Syscall u [] u64Max
  | unimplemented (hexit : u.x 16 ≠ sysExit) (hwrite : u.x 16 ≠ sysWrite) :
      Syscall u (unimplementedText (u.x 16)) u64Max

/-- An exception that the program does not come back from, and what is printed for it. -/
inductive Final (u : UserState) (e : Exception) : List UInt8 → Prop
  | exit (h : e.IsSvc) (hnr : u.x 16 = sysExit) : Final u e (exitText (u.x 0))
  | unexpected (hkind : e.kind = .sync) (hec : e.ec ≠ 0x15) : Final u e (unexpectedText e u.pc)
  | irq (hkind : e.kind = .irq) : Final u e interruptText
  | silent (hkind : e.kind = .fiq ∨ e.kind = .serror) : Final u e []

/-- What the kernel prints for an exception when it does not fault itself. -/
def Prints (u : UserState) (e : Exception) (text : List UInt8) : Prop :=
  (e.IsSvc ∧ ∃ result, Syscall kernelMemory u text result) ∨ Final u e text

/-- What is printed when the kernel faults while it prints a text of `P`, and perhaps again
    while it reports that. -/
inductive Faulted (P : List UInt8 → Prop) : List UInt8 → Prop
  | once {text sent : List UInt8} {esr elr : UInt64} (h : P text) (hsent : sent <+: text) :
      Faulted P (sent ++ faultText esr elr)
  | again {text sent : List UInt8} {esr elr : UInt64} (h : Faulted P text) (hsent : sent <+: text) :
      Faulted P (sent ++ faultText esr elr)

/-! ## The process -/

structure Process where
  user : UserState
  console : List UInt8
  halted : Bool

inductive ProcessEvent where
  | compute
  | syscall
  | halt
  | fault
deriving DecidableEq, Repr

variable (code : UserCode)

/-- One step of a process.  The memory of the kernel may change in a system call. -/
inductive Process.Step : Process → ProcessEvent → Process → Prop
  | compute {u u' : UserState} {console : List UInt8} (h : code.computes u u') :
      Step ⟨u, console, false⟩ .compute ⟨u', console, false⟩
  | syscall {u u' : UserState} {console text : List UInt8} {e : Exception} {result : UInt64}
      {mem : Mem} (h : code.raises u e u') (hsvc : e.IsSvc)
      (hcall : Syscall kernelMemory u' text result)
      (hmem : ∀ a, ¬ kernelMemory a → mem a = u'.mem a) :
      Step ⟨u, console, false⟩ .syscall
        ⟨{ u' with x := Function.update u'.x 0 result, mem }, console ++ text, false⟩
  | halt {u u' : UserState} {console text : List UInt8} {e : Exception} (h : code.raises u e u')
      (hfinal : Final u' e text) :
      Step ⟨u, console, false⟩ .halt ⟨u', console ++ text, true⟩
  | fault {u u' : UserState} {console text : List UInt8} {e : Exception} (h : code.raises u e u')
      (hfault : Faulted (Prints kernelMemory u' e) text) :
      Step ⟨u, console, false⟩ .fault ⟨u', console ++ text, true⟩

end XnuRs.Kernel
