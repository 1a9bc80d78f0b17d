/-
  XnuRs.Loader.BootArgs

  What the loader hands to the kernel (loader/src/boot_args.rs; the kernel
  declares the same `repr(C)` structure in kernel/src/boot_args.rs).

  The fields that neither program reads, and that the loader leaves zero, are
  left out.
-/

import XnuRs.Lib.Word

namespace XnuRs.Loader

/-- `KBOOT_ARGS_REVISION2`. -/
def kbootArgsRevision2 : UInt16 := 2
/-- `KBOOT_ARGS_VERSION2`. -/
def kbootArgsVersion2 : UInt16 := 2

/-- `BootArgs`. -/
structure BootArgs where
  revision : UInt16
  version : UInt16
  physBase : UInt64
  memSize : UInt64
  topOfKernelData : UInt64
  deviceTreeP : UInt64
  deviceTreeLength : Nat
  memSizeActual : UInt64
deriving DecidableEq, Repr

/-- `BootArgs::zeroed`. -/
def BootArgs.zeroed : BootArgs where
  revision := kbootArgsRevision2
  version := kbootArgsVersion2
  physBase := 0
  memSize := 0
  topOfKernelData := 0
  deviceTreeP := 0
  deviceTreeLength := 0
  memSizeActual := 0

/-- `KernelHandOff`. -/
structure KernelHandOff where
  entry : UInt64
  bootArgs : UInt64
  stackTop : UInt64
deriving DecidableEq, Repr

end XnuRs.Loader
