/-
  XnuRs.Loader.HandOff

  The loader from its start to the jump into the kernel (loader/src/main.rs:
  `load_and_jump_to_kernel` and what it calls after the image is placed;
  loader/src/device_tree.rs: `build_apple_device_tree`, `find_fdt`).

  What the loader reads from outside is one `Environment`.  A run that reaches
  the jump returns what the kernel finds: the registers, and the boot arguments
  in memory.
-/

import XnuRs.Loader.FdtParser
import XnuRs.Loader.Image

namespace XnuRs.Loader

open XnuRs.Macho

/-- `EFI_DTB_TABLE_GUID`. -/
def efiDtbTableGuid : Nat := 0xb1b621d5f19c41a5830bd9152c69aae0

/-- An entry of the firmware's table of configuration tables; `address` is 0 when null. -/
structure ConfigTable where
  guid : Nat
  address : Nat
deriving DecidableEq, Repr

/-- A memory descriptor of the firmware's memory map. -/
structure MemoryDescriptor where
  physStart : UInt64
  pageCount : UInt64
deriving DecidableEq, Repr

/-- What the loader is run in.  Refusals carry the firmware's status. -/
structure Environment where
  firmware : Firmware
  sort : SortByStart
  /-- `uefi::helpers::init`. -/
  init : Except Nat Unit
  /-- `boot::get_image_file_system`. -/
  imageFileSystem : Except Nat Unit
  /-- The file `\KERNEL`, if it can be read. -/
  kernelFile : Option (List UInt8)
  /-- `MachO::parse`. -/
  machoParse : List UInt8 → Option MachO
  configTables : List ConfigTable
  /-- The memory the configuration tables point into. -/
  memory : Memory
  /-- The map `boot::exit_boot_services` hands back. -/
  memoryMap : List MemoryDescriptor

/-- `map_err(|err| err.status())`. -/
def answer {α : Type} (x : Except Nat α) : Outcome Status α :=
  match x with
  | .ok a => .ok a
  | .error status => .err (.firmware status)

/-- A number as `{:#x}` prints it. -/
def hex (n : Nat) : String := "0x" ++ String.ofList (Nat.toDigits 16 n)

/-! ## The device tree -/

/-- The FDT a configuration table points at; none is the error `()`. -/
def fdtAt (memory : Memory) (table : ConfigTable) : Outcome Unit (List UInt8) := do
  if table.guid ≠ efiDtbTableGuid ∨ table.address = 0 then .err ()
  else
    -- the length of the blob is known only from its header
    let header := memory.slice table.address 40
    let totalSize ← readBeU32 header 4
    let magic ← readBeU32 header 0
    if magic ≠ fdtMagic ∨ totalSize < 40 then .err ()
    else .ok (memory.slice table.address totalSize)

/-- `find_fdt`. -/
def findFdt (memory : Memory) : List ConfigTable → Outcome Status (Option (List UInt8))
  | [] => .ok none
  | table :: rest =>
    match fdtAt memory table with
    | .ok fdt => .ok (some fdt)
    -- a table that is no FDT is passed over
    | .error (.err ()) => findFdt memory rest
    | .error .panic => .panic
    | .error .fuel => .fuel

/-- `qemu_virt_memory_reg`. -/
def qemuVirtMemoryReg : List UInt8 := beBytes 8 0x40000000 ++ beBytes 8 0x40000000

/-- The tree `build_apple_device_tree` makes up when there is no FDT. -/
def builtinTree : Outcome Status AdtNode := do
  let name ← AdtProp.new "name" (asBytes "/")
  let compatible ← AdtProp.new "compatible" (asBytes "linux,dummy-virt")
  let model ← AdtProp.new "model" (asBytes "xnu-rs qemu virt")
  let addressCells ← AdtProp.new "#address-cells" (beBytes 4 2)
  let sizeCells ← AdtProp.new "#size-cells" (beBytes 4 2)
  let chosenName ← AdtProp.new "name" (asBytes "chosen")
  let bootargs ← AdtProp.new "bootargs" (asBytes "rd=*devfs")
  let memoryName ← AdtProp.new "name" (asBytes "memory")
  let deviceType ← AdtProp.new "device_type" (asBytes "memory")
  let reg ← AdtProp.newOwned "reg" qemuVirtMemoryReg
  .ok ⟨[name, compatible, model, addressCells, sizeCells],
    [⟨[chosenName, bootargs], []⟩, ⟨[memoryName, deviceType, reg], []⟩]⟩

/-- The tree `build_apple_device_tree` writes out. -/
def appleDeviceTree (fdt : Option (List UInt8)) : Outcome Status AdtNode :=
  match fdt with
  | some fdt => do
    let parser ← FdtParser.new fdt
    parser.parse
  | none => builtinTree

/-- `AppleDeviceTree`. -/
structure AppleDeviceTree where
  ptr : UInt64
  len : Nat
deriving DecidableEq, Repr

/-- `n.div_ceil(PAGE_SIZE)`. -/
def pagesOf (n : Nat) : Nat := (n + (pageSize.toNat - 1)) / pageSize.toNat

/-- `build_apple_device_tree`. -/
def buildAppleDeviceTree (env : Environment) : Loading AppleDeviceTree := do
  let fdt ← .lift (findFdt env.memory env.configTables)
  let root ← .lift (appleDeviceTree fdt)
  let bytes ← .lift (writeAdtNode root [])
  let len ← .lift (.okOr (u32TryFrom bytes.length) .loadError)
  let ptr ← .lift (answer (env.firmware.allocateAny 0 (pagesOf bytes.length)))
  .emit (.allocated ptr (pagesOf bytes.length))
  .emit (.mem (.copy ptr.toNat bytes))
  pure ⟨ptr, len⟩

/-! ## The hand-off -/

/-- `allocate_boot_args_page`. -/
def allocateBootArgsPage (env : Environment) : Loading UInt64 := do
  let ptr ← .lift (answer (env.firmware.allocateAny 1 1))
  .emit (.allocated ptr 1)
  pure ptr

/-- `STACK_PAGES`. -/
def stackPages : Nat := 16

/-- `allocate_kernel_stack`. -/
def allocateKernelStack (env : Environment) : Loading UInt64 := do
  let ptr ← .lift (answer (env.firmware.allocateAny 2 stackPages))
  .emit (.allocated ptr stackPages)
  let stackBytes := UInt64.ofNat (stackPages * pageSize.toNat)
  .lift (.okOr (checkedAdd ptr stackBytes) .loadError)

/-- The loop of `memory_extent`. -/
def memoryExtentLoop : List MemoryDescriptor → UInt64 → UInt64 →
    Outcome Status (UInt64 × UInt64)
  | [], min, max => .ok (min, max)
  | desc :: rest, min, max => do
    let start := desc.physStart
    let size ← .okOr (checkedMul desc.pageCount pageSize) .loadError
    let stop ← .okOr (checkedAdd start size) .loadError
    memoryExtentLoop rest (if start < min then start else min) (if stop > max then stop else max)

/-- `memory_extent`. -/
def memoryExtent (memoryMap : List MemoryDescriptor) : Outcome Status (UInt64 × UInt64) := do
  let (min, max) ← memoryExtentLoop memoryMap (.ofNat (2 ^ 64 - 1)) 0
  -- no descriptor, or none with memory
  if min = .ofNat (2 ^ 64 - 1) ∨ max ≤ min then .err .loadError else .ok (min, max - min)

/-- `fill_boot_args`; it returns what it stores. -/
def fillBootArgs (bootArgsPtr : UInt64) (memoryMap : List MemoryDescriptor)
    (topOfKernelData : UInt64) (appleDt : AppleDeviceTree) : Loading BootArgs := do
  let (physBase, memSizeActual) ← .lift (memoryExtent memoryMap)
  -- the fields not named are those of zeroed memory and the two version numbers
  let bootArgs := { BootArgs.zeroed with
    physBase
    memSize := memSizeActual
    memSizeActual
    topOfKernelData
    deviceTreeP := appleDt.ptr
    deviceTreeLength := appleDt.len }
  .emit (.bootArgs bootArgsPtr bootArgs)
  pure bootArgs

/-- The part of `load_and_jump_to_kernel` up to the parsed kernel. -/
def openKernel (env : Environment) : Loading MachO := do
  .lift (answer env.init)
  .emit (.println "loader: opening ESP filesystem")
  .lift (answer env.imageFileSystem)
  let kernelBytes ← .lift (.okOr env.kernelFile .notFound)
  .emit (.println s!"loader: parsing kernel Mach-O ({kernelBytes.length} bytes)")
  .lift (.okOr (env.machoParse kernelBytes) .loadError)

/-- `load_and_jump_to_kernel`. -/
def loadAndJumpToKernel (env : Environment) : Loading (KernelHandOff × BootArgs) := do
  let macho ← openKernel env
  allocateLoadRanges env.sort env.firmware macho
  loadSegments macho
  syncLoadedImage macho
  let topOfKernelData ← .lift (kernelTop macho)
  let appleDt ← buildAppleDeviceTree env
  let bootArgsPtr ← allocateBootArgsPage env
  let stackTop ← allocateKernelStack env
  .emit (.println ("loader: prepared kernel entry " ++ hex macho.entry.toNat ++ ", stack " ++
    hex stackTop.toNat ++ "; exiting boot services"))
  -- from here on nothing can be asked of the firmware
  .emit .exitBootServices
  let bootArgs ← fillBootArgs bootArgsPtr env.memoryMap topOfKernelData appleDt
  let handOff : KernelHandOff := ⟨macho.entry, bootArgsPtr, stackTop⟩
  .emit (.jump handOff)
  pure (handOff, bootArgs)

end XnuRs.Loader
