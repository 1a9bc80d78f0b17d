/-
  XnuRs.Macho.Goblin

  What the Mach-O parser hands to the two loaders: the parts of goblin's `MachO`
  that they read.

  The parser itself is not modelled.  The loaders take any such value; the one
  fact about it that some results rest on is `MachO.DataExact`.  `parse` is a
  parser of that kind for the files `read` decodes, to run the loaders on.
-/

import XnuRs.Lib.Word
import XnuRs.Macho.Format

namespace XnuRs.Macho

/-- `Segment`. -/
structure Segment where
  segname : List UInt8
  vmaddr : UInt64
  vmsize : UInt64
  fileoff : UInt64
  filesize : UInt64
  data : List UInt8
deriving DecidableEq, Repr

/-- `Segment::name`: the text before the first NUL of the field. -/
def Segment.name (segment : Segment) : Option String := fromUtf8 (beforeNul segment.segname)

/-- A load command: its number and, for the variant `Main`, its entry offset. -/
structure LoadCommand where
  cmd : UInt32
  entryoff : Option UInt64
deriving DecidableEq, Repr

/-- `MachO`. -/
structure MachO where
  segments : List Segment
  loadCommands : List LoadCommand
  entry : UInt64
deriving DecidableEq, Repr

/-- A segment's data is the `filesize` bytes of the file the segment names. -/
def MachO.DataExact (macho : MachO) : Prop :=
  ∀ segment ∈ macho.segments, segment.data.length = segment.filesize.toNat

instance (macho : MachO) : Decidable macho.DataExact :=
  inferInstanceAs (Decidable (∀ segment ∈ macho.segments, _))

/-- The segment of a segment command of the file `bytes`. -/
def SegmentCommand.segment (bytes : List UInt8) (s : SegmentCommand) : Segment where
  segname := s.segname
  vmaddr := .ofNat s.vmaddr
  vmsize := .ofNat s.vmsize
  fileoff := .ofNat s.fileoff
  filesize := .ofNat s.filesize
  data := (bytes.drop s.fileoff).take s.filesize

/-- The load command of a command. -/
def Command.loadCommand : Command → LoadCommand
  | .segment64 _ => ⟨.ofNat lcSegment64, none⟩
  | .main entry => ⟨.ofNat lcMain, some (.ofNat entry.entryoff)⟩
  | .other cmd => ⟨.ofNat cmd, none⟩

/-- `MachO::parse`, on the files `read` decodes. -/
def parse (bytes : List UInt8) : Option MachO := do
  let file ← read bytes
  some
    { segments := file.segments.map (SegmentCommand.segment bytes)
      loadCommands := file.commands.map Command.loadCommand
      entry := .ofNat ((file.entryAddress.getD 0).toNat) }

end XnuRs.Macho
