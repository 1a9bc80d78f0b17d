/-
  XnuRs.Kernel.Start

  The kernel's entry (kernel/src/main.rs: `_start`, `validate_boot_args`,
  `align_up_2m`): it checks and prints the boot arguments, and loads the user
  program behind the end of the kernel.

  The drop to EL1 is left out.  The pointer to the boot arguments is modelled by
  what it points at; a null pointer is `none`.
-/

import XnuRs.Kernel.Exec.Loader
import XnuRs.Loader.BootArgs

namespace XnuRs.Kernel

open XnuRs.Loader (BootArgs)

/-- `BOOT_ARGS_REVISION2`. -/
def bootArgsRevision2 : UInt16 := 2
/-- `BOOT_ARGS_VERSION2`. -/
def bootArgsVersion2 : UInt16 := 2

/-- `align_up_2m`; its body is that of `align_up` in kernel/src/exec/loader.rs. -/
def alignUp2m (v : UInt64) : Outcome Empty UInt64 := Exec.alignUp v (2 * 1024 * 1024)

/-- A run that prints, inside the kernel; an error value it returns is dropped. -/
def ofPrinting (x : Printing Unit) : Executing Unit where
  log := x.log.map .uart
  result :=
    match x.result with
    | .ok () | .error (.err ()) => .ok ()
    | .error .panic => .panic
    | .error .fuel => .fuel

/-- `dump_apple_device_tree`. -/
def dumpAppleDeviceTree (memory : Memory) (args : BootArgs) : Executing Unit :=
  -- less than the two counts of a node
  if args.deviceTreeP = 0 ∨ args.deviceTreeLength < 8 then pure ()
  else ofPrinting (dump (memory.slice args.deviceTreeP.toNat args.deviceTreeLength))

/-- `validate_boot_args`. -/
def validateBootArgs (memory : Memory) (bootArgs : Option BootArgs) :
    Executing (Option BootArgs) :=
  match bootArgs with
  | none => do
    printStr "xnu-rs: boot_args=NULL\n"
    pure none
  | some args => do
    printStr "xnu-rs: revision="
    printHexU64 args.revision.toUInt64
    printStr " version="
    printHexU64 args.version.toUInt64
    printStr " phys_base=0x"
    printHexU64 args.physBase
    printStr " mem_size=0x"
    printHexU64 args.memSize
    printStr " top_of_kernel_data=0x"
    printHexU64 args.topOfKernelData
    printStr "\n"
    if args.revision ≠ bootArgsRevision2 ∨ args.version ≠ bootArgsVersion2 then do
      printStr "xnu-rs: unsupported boot_args revision/version\n"
      pure none
    else do
      dumpAppleDeviceTree memory args
      pure (some args)

/-- The load base `_start` computes. -/
def loadBaseOf (args : Option BootArgs) : Outcome Empty UInt64 :=
  match args with
  -- without boot arguments, 64 MiB into the memory of QEMU's `virt` machine
  | none => alignUp2m (0x40000000 + 64 * 1024 * 1024)
  | some args => alignUp2m args.topOfKernelData

/-- `_start`, on the user program `testUserMacho`. -/
def start (machoParse : List UInt8 → Option Macho.MachO) (testUserMacho : List UInt8)
    (memory : Memory) (bootArgs : Option BootArgs) : Executing Exec.Ending := do
  printStr "xnu-rs: entered kernel _start\n"
  let args ← validateBootArgs memory bootArgs
  let loadBase ← .lift (loadBaseOf args)
  printStr "xnu-rs: launching test user binary at load_base=0x"
  printHexU64 loadBase
  printStr "\n"
  Exec.loadAndRun machoParse testUserMacho loadBase

end XnuRs.Kernel
