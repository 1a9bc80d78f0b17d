/-
  XnuRs.Boot.ArgsLayout

  The boot arguments in memory (loader/src/boot_args.rs, kernel/src/boot_args.rs).

  The two programs declare the structure each on its own, and share nothing but
  its bytes: the loader stores the arguments by its declaration, the kernel reads
  them by its own.
-/

import XnuRs.Lib.ReprC
import XnuRs.Loader.BootArgs

namespace XnuRs.Boot

open ReprC
open XnuRs.Loader (BootArgs)

/-! ## The declarations -/

/-- The fields of `BootVideo`. -/
inductive VideoField where
  | vBaseAddr
  | vDisplay
  | vRowBytes
  | vWidth
  | vHeight
  | vDepth
deriving DecidableEq, Repr

/-- The fields of `BootArgs`. -/
inductive ArgsField where
  | revision
  | version
  | virtBase
  | physBase
  | memSize
  | topOfKernelData
  | video
  | machineType
  | deviceTreeP
  | deviceTreeLength
  | commandLine
  | bootFlags
  | memSizeActual
deriving DecidableEq, Repr

def u16 : Shape := ⟨2, 2, Nat.two_pos⟩
def u32 : Shape := ⟨4, 4, Nat.succ_pos 3⟩
def u64 : Shape := ⟨8, 8, Nat.succ_pos 7⟩
/-- `*const c_void`. -/
def pointer : Shape := ⟨8, 8, Nat.succ_pos 7⟩
/-- `[u8; n]`. -/
def byteArray (n : Nat) : Shape := ⟨n, 1, Nat.one_pos⟩

/-- `BOOT_LINE_LENGTH`, in both programs. -/
def bootLineLength : Nat := 1024

/-- The loader's `BootVideo`. -/
def loaderBootVideo : Struct VideoField := [
  (.vBaseAddr, u64),
  (.vDisplay, u64),
  (.vRowBytes, u64),
  (.vWidth, u64),
  (.vHeight, u64),
  (.vDepth, u64)]

/-- The loader's `BootArgs`. -/
def loaderBootArgs : Struct ArgsField := [
  (.revision, u16),
  (.version, u16),
  (.virtBase, u64),
  (.physBase, u64),
  (.memSize, u64),
  (.topOfKernelData, u64),
  (.video, shapeOf loaderBootVideo),
  (.machineType, u32),
  (.deviceTreeP, pointer),
  (.deviceTreeLength, u32),
  (.commandLine, byteArray bootLineLength),
  (.bootFlags, u64),
  (.memSizeActual, u64)]

/-- The kernel's `BootVideo`. -/
def kernelBootVideo : Struct VideoField := [
  (.vBaseAddr, u64),
  (.vDisplay, u64),
  (.vRowBytes, u64),
  (.vWidth, u64),
  (.vHeight, u64),
  (.vDepth, u64)]

/-- The kernel's `BootArgs`. -/
def kernelBootArgs : Struct ArgsField := [
  (.revision, u16),
  (.version, u16),
  (.virtBase, u64),
  (.physBase, u64),
  (.memSize, u64),
  (.topOfKernelData, u64),
  (.video, shapeOf kernelBootVideo),
  (.machineType, u32),
  (.deviceTreeP, pointer),
  (.deviceTreeLength, u32),
  (.commandLine, byteArray bootLineLength),
  (.bootFlags, u64),
  (.memSizeActual, u64)]

/-! ## Stored and read -/

/-- The values of the fields; those that `BootArgs` leaves out stay as `zeroed` has them. -/
def fieldBytes (args : BootArgs) : ArgsField → List UInt8
  | .revision => leBytes 2 args.revision.toNat
  | .version => leBytes 2 args.version.toNat
  | .virtBase => leBytes 8 0
  | .physBase => leBytes 8 args.physBase.toNat
  | .memSize => leBytes 8 args.memSize.toNat
  | .topOfKernelData => leBytes 8 args.topOfKernelData.toNat
  | .video => List.replicate 48 0
  | .machineType => leBytes 4 0
  | .deviceTreeP => leBytes 8 args.deviceTreeP.toNat
  | .deviceTreeLength => leBytes 4 args.deviceTreeLength
  | .commandLine => List.replicate bootLineLength 0
  | .bootFlags => leBytes 8 0
  | .memSizeActual => leBytes 8 args.memSizeActual.toNat

/-- What `*boot_args_ptr = boot_args` stores.  The bytes between the fields are not
    determined by the language. -/
def storedArgs (pad : Nat → UInt8) (args : BootArgs) : List UInt8 :=
  encode pad (fieldBytes args) loaderBootArgs

/-- What the kernel finds behind its pointer to the boot arguments. -/
def readArgs (m : Memory) (ptr : Nat) : BootArgs where
  revision := .ofNat (leToNat (readField kernelBootArgs m ptr .revision))
  version := .ofNat (leToNat (readField kernelBootArgs m ptr .version))
  physBase := .ofNat (leToNat (readField kernelBootArgs m ptr .physBase))
  memSize := .ofNat (leToNat (readField kernelBootArgs m ptr .memSize))
  topOfKernelData := .ofNat (leToNat (readField kernelBootArgs m ptr .topOfKernelData))
  deviceTreeP := .ofNat (leToNat (readField kernelBootArgs m ptr .deviceTreeP))
  deviceTreeLength := leToNat (readField kernelBootArgs m ptr .deviceTreeLength)
  memSizeActual := .ofNat (leToNat (readField kernelBootArgs m ptr .memSizeActual))

/-- The two declarations are the same. -/
theorem kernelBootArgs_eq : kernelBootArgs = loaderBootArgs := rfl

theorem fieldBytes_fits (args : BootArgs) : Fits (fieldBytes args) loaderBootArgs := by
  intro field hfield
  simp only [loaderBootArgs, List.mem_cons, List.not_mem_nil, or_false] at hfield
  rcases hfield with rfl | rfl | rfl | rfl | rfl | rfl | rfl | rfl | rfl | rfl | rfl | rfl | rfl <;>
    first
      | exact leBytes_length ..
      | exact List.length_replicate ..

theorem storedArgs_length (pad : Nat → UInt8) (args : BootArgs) :
    (storedArgs pad args).length = structSize loaderBootArgs :=
  encode_length (fieldBytes_fits args)

/-- The boot arguments fit the page the loader takes for them. -/
theorem structSize_bootArgs : structSize loaderBootArgs = 1152 := by decide

/-- **The kernel reads the boot arguments that the loader stored**, whatever the bytes
    between them are. -/
theorem readArgs_of_stored {m : Memory} {ptr : Nat} {pad : Nat → UInt8} {args : BootArgs}
    (hstored : m.slice ptr (structSize loaderBootArgs) = storedArgs pad args)
    (hlen : args.deviceTreeLength < 2 ^ 32) :
    readArgs m ptr = args := by
  have hread : ∀ {name : ArgsField} {shape : Shape}, (name, shape) ∈ loaderBootArgs →
      readField kernelBootArgs m ptr name = fieldBytes args name := fun hmem =>
    readField_of_stored (fieldBytes_fits args) hstored hmem
  have hu64 : ∀ {name : ArgsField} {v : UInt64}, (name, u64) ∈ loaderBootArgs →
      fieldBytes args name = leBytes 8 v.toNat →
      UInt64.ofNat (leToNat (readField kernelBootArgs m ptr name)) = v := by
    intro name v hmem hvalue
    rw [hread hmem, hvalue, leToNat_leBytes v.toNat_lt, UInt64.ofNat_toNat]
  have hu16 : ∀ {name : ArgsField} {v : UInt16}, (name, u16) ∈ loaderBootArgs →
      fieldBytes args name = leBytes 2 v.toNat →
      UInt16.ofNat (leToNat (readField kernelBootArgs m ptr name)) = v := by
    intro name v hmem hvalue
    rw [hread hmem, hvalue, leToNat_leBytes v.toNat_lt, UInt16.ofNat_toNat]
  have hlength : leToNat (readField kernelBootArgs m ptr .deviceTreeLength) =
      args.deviceTreeLength := by
    rw [hread (by simp [loaderBootArgs] : (ArgsField.deviceTreeLength, u32) ∈ loaderBootArgs)]
    exact leToNat_leBytes hlen
  rw [readArgs, hlength, hu16 (by simp [loaderBootArgs]) rfl, hu16 (by simp [loaderBootArgs]) rfl]
  rw [hu64 (by simp [loaderBootArgs]) rfl, hu64 (by simp [loaderBootArgs]) rfl,
    hu64 (by simp [loaderBootArgs]) rfl, hu64 (by simp [loaderBootArgs, pointer, u64]) rfl,
    hu64 (by simp [loaderBootArgs]) rfl]

end XnuRs.Boot
