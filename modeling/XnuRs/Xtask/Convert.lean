/-
  XnuRs.Xtask.Convert

  The build tool's ELF to Mach-O converter (xtask/src/main.rs:
  `convert_elf_to_macho`).

  The bytes of the ELF file and what `Elf::parse` reports of it are inputs; the
  result is what is written to `dst`.  A `usize` has 64 bits, so its `try_from`
  of a `u64` returns the same number and is not written.  The tool is built with
  overflow checks, so a plain addition that overflows panics, as a slice out of
  range does.
-/

import XnuRs.Lib.Word
import XnuRs.Macho.Format

namespace XnuRs.Xtask

open XnuRs.Macho

/-- `PT_LOAD`. -/
def ptLoad : UInt32 := 1
/-- `VM_PROT_READ`. -/
def vmProtRead : UInt32 := 1
/-- `VM_PROT_WRITE`. -/
def vmProtWrite : UInt32 := 2
/-- `VM_PROT_EXECUTE`. -/
def vmProtExecute : UInt32 := 4

/-- `ProgramHeader`. -/
structure ProgramHeader where
  pType : UInt32
  pFlags : UInt32
  pOffset : UInt64
  pVaddr : UInt64
  pFilesz : UInt64
  pMemsz : UInt64
deriving DecidableEq, Repr

/-- What the converter uses of an `Elf`. -/
structure Elf where
  entry : UInt64
  programHeaders : List ProgramHeader
deriving DecidableEq, Repr

/-- `MachSegmentLayout`. -/
structure MachSegmentLayout where
  segname : List UInt8
  vmaddr : UInt64
  vmsize : UInt64
  fileoff : UInt64
  filesize : UInt64
  initprot : UInt32
  maxprot : UInt32
  sourceOffset : Nat
deriving DecidableEq, Repr

/-! ## Helpers -/

/-- The segment name `__TEXT`. -/
def textName : List UInt8 := asBytes "__TEXT" ++ List.replicate 10 0

/-- The segment name `__DATA`. -/
def dataName : List UInt8 := asBytes "__DATA" ++ List.replicate 10 0

/-- `segment_name`. -/
def segmentName (index : Nat) (flags : UInt32) : List UInt8 :=
  if flags &&& 0x1 ≠ 0 then textName
  else if flags &&& 0x2 ≠ 0 then dataName
  else
    -- the field has 16 bytes; a longer name is cut
    let bytes := asBytes ("__SEG" ++ toString index)
    bytes.take (min bytes.length 16) ++ List.replicate (16 - min bytes.length 16) 0

/-- `vm_prot`. -/
def vmProt (flags : UInt32) : UInt32 :=
  let prot := 0
  let prot := if flags &&& 0x4 ≠ 0 then prot ||| vmProtRead else prot
  let prot := if flags &&& 0x2 ≠ 0 then prot ||| vmProtWrite else prot
  if flags &&& 0x1 ≠ 0 then prot ||| vmProtExecute else prot

/-- `align_usize`; `/ align * align` clears the low bits of a power of two. -/
def alignUsize (value align : Nat) : Outcome String Nat := do
  let value ← .okOr (usizeAdd value (align - 1)) "alignment overflow"
  .ok (value / align * align)

/-- The output buffer and the position of the next write. -/
structure Output where
  buf : List UInt8
  cursor : Nat

/-- Replace the bytes of `buf` from `start` on by `bytes`. -/
def overwrite (buf : List UInt8) (start : Nat) (bytes : List UInt8) : List UInt8 :=
  buf.take start ++ bytes ++ buf.drop (start + bytes.length)

/-- `buf[cursor..cursor + n].copy_from_slice(..)`, then `cursor += n`. -/
def Output.put (out : Output) (bytes : List UInt8) : Outcome String Output := do
  let stop ← .orPanic (usizeAdd out.cursor bytes.length)
  if stop ≤ out.buf.length then .ok ⟨overwrite out.buf out.cursor bytes, stop⟩ else .panic

/-- `write_u32`. -/
def writeU32 (value : Nat) (out : Output) : Outcome String Output := out.put (leBytes 4 value)

/-- `write_u64`. -/
def writeU64 (value : Nat) (out : Output) : Outcome String Output := out.put (leBytes 8 value)

/-! ## The layout pass -/

/-- The program headers that become segments. -/
def Elf.loadable (elf : Elf) : List ProgramHeader :=
  elf.programHeaders.filter fun header => header.pType == ptLoad && header.pMemsz != 0

/-- The layout loop of `convert_elf_to_macho`, from the header with number
    `index` on: the segments, the end of the file, and `text_base`. -/
def layoutLoop : List ProgramHeader → Nat → Nat → List MachSegmentLayout →
    Option (UInt64 × UInt64) →
    Outcome String (List MachSegmentLayout × Nat × Option (UInt64 × UInt64))
  | [], _, fileOffset, layout, textBase => .ok (layout, fileOffset, textBase)
  | header :: rest, index, fileOffset, layout, textBase => do
    let fileOffset ← alignUsize fileOffset 0x1000
    let segname := segmentName index header.pFlags
    -- the last executable header wins
    let textBase :=
      if segname = textName then some (header.pVaddr, UInt64.ofNat fileOffset) else textBase
    let segment : MachSegmentLayout :=
      { segname
        vmaddr := header.pVaddr
        vmsize := header.pMemsz
        fileoff := UInt64.ofNat fileOffset
        filesize := header.pFilesz
        initprot := vmProt header.pFlags
        maxprot := vmProt header.pFlags
        sourceOffset := header.pOffset.toNat }
    let fileSize := header.pFilesz.toNat
    let fileOffset ← .okOr (usizeAdd fileOffset fileSize) "Mach-O file size overflow"
    layoutLoop rest (index + 1) fileOffset (layout ++ [segment]) textBase

/-! ## The emit passes -/

/-- The eight words of the header. -/
def writeHeader (commands sizeofcmds : Nat) (out : Output) : Outcome String Output := do
  let out ← writeU32 mhMagic64 out
  let out ← writeU32 cpuTypeArm64 out
  let out ← writeU32 cpuSubtypeArm64All out
  let out ← writeU32 mhExecute out
  let ncmds ← .okOr (u32TryFrom commands) "too many Mach-O commands"
  let out ← writeU32 ncmds out
  let size ← .okOr (u32TryFrom sizeofcmds) "Mach-O commands too large"
  let out ← writeU32 size out
  let out ← writeU32 0x1 out
  writeU32 0 out

/-- The load command of one segment. -/
def writeSegment (segment : MachSegmentLayout) (out : Output) : Outcome String Output := do
  let out ← writeU32 lcSegment64 out
  let size ← .okOr (u32TryFrom sizeofSegmentCommand64) "bad segment command size"
  let out ← writeU32 size out
  let out ← out.put segment.segname
  let out ← writeU64 segment.vmaddr.toNat out
  let out ← writeU64 segment.vmsize.toNat out
  let out ← writeU64 segment.fileoff.toNat out
  let out ← writeU64 segment.filesize.toNat out
  let out ← writeU32 segment.maxprot.toNat out
  let out ← writeU32 segment.initprot.toNat out
  let out ← writeU32 0 out
  writeU32 0 out

/-- The loop over the segments' load commands. -/
def writeSegments : List MachSegmentLayout → Output → Outcome String Output
  | [], out => .ok out
  | segment :: rest, out => do
    let out ← writeSegment segment out
    writeSegments rest out

/-- The `LC_MAIN` command. -/
def writeMain (entryoff : UInt64) (out : Output) : Outcome String Output := do
  let out ← writeU32 lcMain out
  let size ← .okOr (u32TryFrom sizeofEntryPointCommand) "bad entry command size"
  let out ← writeU32 size out
  let out ← writeU64 entryoff.toNat out
  writeU64 0 out

/-- Copy the file bytes of one segment. -/
def copySegment (elfBytes : List UInt8) (segment : MachSegmentLayout) (macho : List UInt8) :
    Outcome String (List UInt8) := do
  let srcStart := segment.sourceOffset
  let srcEnd ← .okOr (usizeAdd srcStart segment.filesize.toNat) "Mach-O segment range overflow"
  let dstStart := segment.fileoff.toNat
  let dstEnd ← .okOr (usizeAdd dstStart (srcEnd - srcStart)) "Mach-O output range overflow"
  -- slices of both buffers, which panic out of range
  let bytes ← indexRange elfBytes srcStart srcEnd
  if dstEnd ≤ macho.length then .ok (overwrite macho dstStart bytes) else .panic

/-- The loop over the segments' file bytes. -/
def copySegments (elfBytes : List UInt8) :
    List MachSegmentLayout → List UInt8 → Outcome String (List UInt8)
  | [], macho => .ok macho
  | segment :: rest, macho => do
    let macho ← copySegment elfBytes segment macho
    copySegments elfBytes rest macho

/-- `vec![0_u8; n]`; a buffer cannot hold more than `isizeMax` bytes. -/
def zeroedVec (n : Nat) : Outcome String (List UInt8) :=
  if n ≤ isizeMax then .ok (List.replicate n 0) else .panic

/-- `checked_mul`, then `checked_add`, of the sizes of the load commands. -/
def commandsSize (segments : Nat) : Option Nat :=
  if segments * sizeofSegmentCommand64 ≤ usizeMax then
    usizeAdd (segments * sizeofSegmentCommand64) sizeofEntryPointCommand
  else none

/-- `convert_elf_to_macho`: what it writes to `dst`. -/
def convertElfToMacho (elfBytes : List UInt8) (elf : Elf) : Outcome String (List UInt8) := do
  let loadable := elf.loadable
  if loadable.isEmpty then .err "ELF image has no PT_LOAD segments"
  else
    let sizeofcmds ← .okOr (commandsSize loadable.length) "Mach-O command size overflow"
    let headerSize := 32
    -- the one sum that is not checked
    let commandsEnd ← .orPanic (usizeAdd headerSize sizeofcmds)
    let fileOffset ← alignUsize commandsEnd 0x1000
    let (layout, fileOffset, textBase) ← layoutLoop loadable 0 fileOffset [] none
    let (textVmaddr, textFileoff) ← .okOr textBase "ELF image has no executable text segment"
    let entryoff ← .okOr (checkedSub elf.entry (saturatingSub textVmaddr textFileoff))
      "invalid ELF entry for Mach-O conversion"
    let finalSize := fileOffset
    let macho ← zeroedVec finalSize
    let out ← writeHeader (layout.length + 1) sizeofcmds ⟨macho, 0⟩
    let out ← writeSegments layout out
    let out ← writeMain entryoff out
    copySegments elfBytes layout out.buf

end XnuRs.Xtask
