/-
  XnuRs.Macho.Format

  The Mach-O 64 format: a header of 32 bytes, then `ncmds` load commands that
  take exactly `sizeofcmds` bytes.

  `read` decodes a file by the format alone.  `header`, `SegmentCommand.encode`
  and `EntryPointCommand.encode` are the bytes of the parts a writer emits, and
  `read_encode` decodes a file put together from them, whatever stands behind
  the commands.
-/

import XnuRs.Lib.Bytes

namespace XnuRs.Macho

/-- `MH_MAGIC_64`. -/
def mhMagic64 : Nat := 0xfeedfacf
/-- `CPU_TYPE_ARM64`. -/
def cpuTypeArm64 : Nat := 0x0100000c
/-- `CPU_SUBTYPE_ARM64_ALL`. -/
def cpuSubtypeArm64All : Nat := 0
/-- `MH_EXECUTE`. -/
def mhExecute : Nat := 2
/-- `LC_SEGMENT_64`. -/
def lcSegment64 : Nat := 0x19
/-- `LC_MAIN`. -/
def lcMain : Nat := 0x80000028
/-- `SIZEOF_SEGMENT_COMMAND_64`. -/
def sizeofSegmentCommand64 : Nat := 72
/-- `SIZEOF_ENTRY_POINT_COMMAND`. -/
def sizeofEntryPointCommand : Nat := 24

/-! ## Fields -/

/-- The little-endian number in `w` bytes at `offset`. -/
def field (bytes : List UInt8) (offset w : Nat) : Nat := leToNat ((bytes.drop offset).take w)

/-- A field at the start. -/
theorem field_leBytes {w n : Nat} (h : n < 256 ^ w) (rest : List UInt8) :
    field (leBytes w n ++ rest) 0 w = n := by
  rw [field, List.drop_zero, List.take_left' (leBytes_length w n), leToNat_leBytes h]

/-- A field behind the part `pre`. -/
theorem field_append {pre rest : List UInt8} {offset w : Nat} (h : pre.length ≤ offset) :
    field (pre ++ rest) offset w = field rest (offset - pre.length) w := by
  rw [field, List.drop_append, List.drop_of_length_le h, List.nil_append, field]

/-- A field that ends before `rest`. -/
theorem field_append_left {pre rest : List UInt8} {offset w : Nat} (h : offset + w ≤ pre.length) :
    field (pre ++ rest) offset w = field pre offset w := by
  rw [field, field, List.drop_append_of_le_length (by omega), List.take_append_of_le_length]
  rw [List.length_drop]
  omega

/-! ## Load commands -/

/-- `segment_command_64`, without its command number and size. -/
structure SegmentCommand where
  segname : List UInt8
  vmaddr : Nat
  vmsize : Nat
  fileoff : Nat
  filesize : Nat
  maxprot : Nat
  initprot : Nat
  nsects : Nat
  flags : Nat
deriving DecidableEq, Repr

/-- `entry_point_command`, without its command number and size. -/
structure EntryPointCommand where
  entryoff : Nat
  stacksize : Nat
deriving DecidableEq, Repr

/-- A load command; `other` is one of a kind not decoded here. -/
inductive Command where
  | segment64 (segment : SegmentCommand)
  | main (entry : EntryPointCommand)
  | other (cmd : Nat)
deriving DecidableEq, Repr

/-- Decode the bytes of one command. -/
def Command.decode (raw : List UInt8) : Command :=
  let cmd := field raw 0 4
  if cmd = lcSegment64 ∧ sizeofSegmentCommand64 ≤ raw.length then
    .segment64
      { segname := (raw.drop 8).take 16
        vmaddr := field raw 24 8
        vmsize := field raw 32 8
        fileoff := field raw 40 8
        filesize := field raw 48 8
        maxprot := field raw 56 4
        initprot := field raw 60 4
        nsects := field raw 64 4
        flags := field raw 68 4 }
  else if cmd = lcMain ∧ sizeofEntryPointCommand ≤ raw.length then
    .main { entryoff := field raw 8 8, stacksize := field raw 16 8 }
  else .other cmd

/-- Decode `n` commands, each of the size it declares, that take all the bytes. -/
def readCommands : Nat → List UInt8 → Option (List Command)
  | 0, bytes => if bytes = [] then some [] else none
  | n + 1, bytes =>
    let cmdsize := field bytes 4 4
    if 8 ≤ cmdsize ∧ cmdsize ≤ bytes.length then do
      let rest ← readCommands n (bytes.drop cmdsize)
      some (Command.decode (bytes.take cmdsize) :: rest)
    else none

/-! ## Files -/

/-- What the header and the load commands of a file say. -/
structure File where
  cputype : Nat
  cpusubtype : Nat
  filetype : Nat
  ncmds : Nat
  sizeofcmds : Nat
  flags : Nat
  commands : List Command
deriving DecidableEq, Repr

/-- Decode a file. -/
def read (bytes : List UInt8) : Option File :=
  let sizeofcmds := field bytes 20 4
  if field bytes 0 4 = mhMagic64 ∧ 32 + sizeofcmds ≤ bytes.length then do
    let commands ← readCommands (field bytes 16 4) ((bytes.drop 32).take sizeofcmds)
    some
      { cputype := field bytes 4 4
        cpusubtype := field bytes 8 4
        filetype := field bytes 12 4
        ncmds := field bytes 16 4
        sizeofcmds
        flags := field bytes 24 4
        commands }
  else none

/-- The segment of a segment command. -/
def Command.segment? : Command → Option SegmentCommand
  | .segment64 segment => some segment
  | _ => none

/-- The entry point of an entry point command. -/
def Command.main? : Command → Option EntryPointCommand
  | .main entry => some entry
  | _ => none

/-- The segments of a file, in order. -/
def File.segments (file : File) : List SegmentCommand := file.commands.filterMap Command.segment?

/-- The first `LC_MAIN` of a file. -/
def File.main? (file : File) : Option EntryPointCommand := file.commands.findSome? Command.main?

/-- The name of a segment, up to its first NUL, is `__TEXT`. -/
def SegmentCommand.IsText (segment : SegmentCommand) : Prop :=
  beforeNul segment.segname = asBytes "__TEXT"

instance (segment : SegmentCommand) : Decidable segment.IsText :=
  inferInstanceAs (Decidable (_ = _))

/-- The entry address: the first segment named `__TEXT` says where the file
    offset of `LC_MAIN` is in memory. -/
def File.entryAddress (file : File) : Option Int := do
  let text ← file.segments.find? fun segment => decide segment.IsText
  let entry ← file.main?
  some (text.vmaddr - text.fileoff + entry.entryoff)

/-! ## The bytes of the parts -/

/-- The bytes of a segment command. -/
def SegmentCommand.encode (s : SegmentCommand) : List UInt8 :=
  leBytes 4 lcSegment64 ++ (leBytes 4 sizeofSegmentCommand64 ++ (s.segname ++
    (leBytes 8 s.vmaddr ++ (leBytes 8 s.vmsize ++ (leBytes 8 s.fileoff ++
      (leBytes 8 s.filesize ++ (leBytes 4 s.maxprot ++ (leBytes 4 s.initprot ++
        (leBytes 4 s.nsects ++ leBytes 4 s.flags)))))))))

/-- The bytes of an entry point command. -/
def EntryPointCommand.encode (e : EntryPointCommand) : List UInt8 :=
  leBytes 4 lcMain ++ (leBytes 4 sizeofEntryPointCommand ++
    (leBytes 8 e.entryoff ++ leBytes 8 e.stacksize))

/-- The bytes of the header of an ARM64 executable. -/
def header (ncmds sizeofcmds flags : Nat) : List UInt8 :=
  leBytes 4 mhMagic64 ++ (leBytes 4 cpuTypeArm64 ++ (leBytes 4 cpuSubtypeArm64All ++
    (leBytes 4 mhExecute ++ (leBytes 4 ncmds ++ (leBytes 4 sizeofcmds ++
      (leBytes 4 flags ++ leBytes 4 0))))))

/-- The fields of a segment command have the widths of the format. -/
structure SegmentCommand.Fits (s : SegmentCommand) : Prop where
  segname : s.segname.length = 16
  vmaddr : s.vmaddr < 2 ^ 64
  vmsize : s.vmsize < 2 ^ 64
  fileoff : s.fileoff < 2 ^ 64
  filesize : s.filesize < 2 ^ 64
  maxprot : s.maxprot < 2 ^ 32
  initprot : s.initprot < 2 ^ 32
  nsects : s.nsects < 2 ^ 32
  flags : s.flags < 2 ^ 32

/-- The fields of an entry point command have the widths of the format. -/
structure EntryPointCommand.Fits (e : EntryPointCommand) : Prop where
  entryoff : e.entryoff < 2 ^ 64
  stacksize : e.stacksize < 2 ^ 64

@[simp] theorem header_length (ncmds sizeofcmds flags : Nat) :
    (header ncmds sizeofcmds flags).length = 32 := by
  simp [header]

theorem SegmentCommand.encode_length {s : SegmentCommand} (h : s.Fits) :
    s.encode.length = sizeofSegmentCommand64 := by
  simp [SegmentCommand.encode, h.segname, sizeofSegmentCommand64]

@[simp] theorem EntryPointCommand.encode_length (e : EntryPointCommand) :
    e.encode.length = sizeofEntryPointCommand := by
  simp [EntryPointCommand.encode, sizeofEntryPointCommand]

/-- The widths of the fields, as bounds on what their bytes hold. -/
theorem lt_bytes8 {n : Nat} (h : n < 2 ^ 64) : n < 256 ^ 8 := h

theorem lt_bytes4 {n : Nat} (h : n < 2 ^ 32) : n < 256 ^ 4 := h

/-- A field that takes all the bytes. -/
theorem field_all {w n : Nat} (h : n < 256 ^ w) : field (leBytes w n) 0 w = n := by
  have hfield := field_leBytes h []
  rwa [List.append_nil] at hfield

theorem SegmentCommand.decode_encode {s : SegmentCommand} (h : s.Fits) :
    Command.decode s.encode = .segment64 s := by
  have hlen := SegmentCommand.encode_length h
  have hcmd : field s.encode 0 4 = lcSegment64 := field_leBytes (by decide) _
  have hname : (s.encode.drop 8).take 16 = s.segname := by
    rw [SegmentCommand.encode, ← List.append_assoc, List.drop_left' (by simp),
      List.take_left' h.segname]
  rw [Command.decode, if_pos ⟨hcmd, Nat.le_of_eq hlen.symm⟩, hname]
  simp [SegmentCommand.encode, field_append, h.segname, field_leBytes (lt_bytes8 h.vmaddr),
    field_leBytes (lt_bytes8 h.vmsize), field_leBytes (lt_bytes8 h.fileoff),
    field_leBytes (lt_bytes8 h.filesize), field_leBytes (lt_bytes4 h.maxprot),
    field_leBytes (lt_bytes4 h.initprot), field_leBytes (lt_bytes4 h.nsects),
    field_all (lt_bytes4 h.flags)]

theorem EntryPointCommand.decode_encode {e : EntryPointCommand} (h : e.Fits) :
    Command.decode e.encode = .main e := by
  have hcmd : field e.encode 0 4 = lcMain := field_leBytes (by decide) _
  have hne : ¬ (lcMain = lcSegment64 ∧ sizeofSegmentCommand64 ≤ e.encode.length) := by
    rintro ⟨heq, _⟩
    revert heq
    decide
  rw [Command.decode, hcmd, if_neg hne, if_pos ⟨rfl, by simp⟩]
  simp [EntryPointCommand.encode, field_append, field_leBytes (lt_bytes8 h.entryoff),
    field_all (lt_bytes8 h.stacksize)]

/-! ## Whole files -/

/-- The bytes of the load commands: the segments, then the entry point. -/
def encodeCommands (segments : List SegmentCommand) (entry : EntryPointCommand) : List UInt8 :=
  segments.flatMap SegmentCommand.encode ++ entry.encode

theorem encodeCommands_length {segments : List SegmentCommand}
    (h : ∀ s ∈ segments, s.Fits) (entry : EntryPointCommand) :
    (encodeCommands segments entry).length =
      sizeofSegmentCommand64 * segments.length + sizeofEntryPointCommand := by
  induction segments with
  | nil => simp [encodeCommands]
  | cons s rest ih =>
      obtain ⟨hs, hrest⟩ := List.forall_mem_cons.mp h
      have hlen := ih hrest
      have hseg := SegmentCommand.encode_length hs
      simp only [encodeCommands, List.flatMap_cons, List.length_append, List.length_cons] at hlen ⊢
      rw [Nat.mul_add, Nat.mul_one]
      omega

/-- One command: its declared size is where the next one starts. -/
theorem readCommands_append {raw rest : List UInt8} {n : Nat} (hsize : field raw 4 4 = raw.length)
    (hlong : 8 ≤ raw.length) :
    readCommands (n + 1) (raw ++ rest) =
      (readCommands n rest).map (Command.decode raw :: ·) := by
  have hfield : field (raw ++ rest) 4 4 = raw.length := by
    rw [field_append_left (by omega), hsize]
  have hroom : 8 ≤ raw.length ∧ raw.length ≤ (raw ++ rest).length := by
    rw [List.length_append]
    omega
  rw [readCommands]
  simp only [hfield, if_pos hroom, List.take_left, List.drop_left]
  cases readCommands n rest <;> rfl

theorem readCommands_encode {segments : List SegmentCommand} {entry : EntryPointCommand}
    (h : ∀ s ∈ segments, s.Fits) (he : entry.Fits) :
    readCommands (segments.length + 1) (encodeCommands segments entry) =
      some (segments.map Command.segment64 ++ [Command.main entry]) := by
  induction segments with
  | nil =>
      have hlen := entry.encode_length
      -- the reader takes the size of a command from its second word
      have hsize : field entry.encode 4 4 = entry.encode.length := by
        rw [hlen, EntryPointCommand.encode, field_append (by simp)]
        exact field_leBytes (by decide) _
      have hread : readCommands (0 + 1) (entry.encode ++ []) = _ :=
        readCommands_append hsize (by rw [hlen]; decide)
      rw [List.append_nil, EntryPointCommand.decode_encode he] at hread
      exact hread
  | cons s rest ih =>
      obtain ⟨hs, hrest⟩ := List.forall_mem_cons.mp h
      have hlen := SegmentCommand.encode_length hs
      have hsize : field s.encode 4 4 = s.encode.length := by
        rw [hlen, SegmentCommand.encode, field_append (by simp)]
        exact field_leBytes (by decide) _
      rw [encodeCommands, List.flatMap_cons, List.append_assoc, List.length_cons,
        readCommands_append hsize (by rw [hlen]; decide), ← encodeCommands, ih hrest,
        SegmentCommand.decode_encode hs]
      rfl

/-- A header with its commands decodes to them, whatever stands behind. -/
theorem read_encode {segments : List SegmentCommand} {entry : EntryPointCommand}
    (h : ∀ s ∈ segments, s.Fits) (he : entry.Fits) (hncmds : segments.length + 1 < 2 ^ 32)
    {sizeofcmds flags : Nat} (hsize : sizeofcmds = (encodeCommands segments entry).length)
    (hlt : sizeofcmds < 2 ^ 32) (hflags : flags < 2 ^ 32) (rest : List UInt8) :
    read (header (segments.length + 1) sizeofcmds flags ++
        (encodeCommands segments entry ++ rest)) =
      some
        { cputype := cpuTypeArm64
          cpusubtype := cpuSubtypeArm64All
          filetype := mhExecute
          ncmds := segments.length + 1
          sizeofcmds
          flags
          commands := segments.map Command.segment64 ++ [Command.main entry] } := by
  have hmagic : mhMagic64 < 256 ^ 4 := by decide
  have hcpu : cpuTypeArm64 < 256 ^ 4 := by decide
  have hsub : cpuSubtypeArm64All < 256 ^ 4 := by decide
  have htype : mhExecute < 256 ^ 4 := by decide
  have hcommands : ((header (segments.length + 1) sizeofcmds flags ++
      (encodeCommands segments entry ++ rest)).drop 32).take sizeofcmds =
      encodeCommands segments entry := by
    rw [List.drop_left' (header_length ..), hsize, List.take_left]
  -- the words of the header are read off the header alone
  have hfields : ∀ {offset : Nat}, offset + 4 ≤ 32 →
      field (header (segments.length + 1) sizeofcmds flags ++
        (encodeCommands segments entry ++ rest)) offset 4 =
        field (header (segments.length + 1) sizeofcmds flags) offset 4 := fun hle =>
    field_append_left (by rw [header_length]; exact hle)
  have hlong : 32 + sizeofcmds ≤ (header (segments.length + 1) sizeofcmds flags ++
      (encodeCommands segments entry ++ rest)).length := by
    simp only [List.length_append, header_length, hsize]
    omega
  have hvalues : field (header (segments.length + 1) sizeofcmds flags) 0 4 = mhMagic64 ∧
      field (header (segments.length + 1) sizeofcmds flags) 4 4 = cpuTypeArm64 ∧
      field (header (segments.length + 1) sizeofcmds flags) 8 4 = cpuSubtypeArm64All ∧
      field (header (segments.length + 1) sizeofcmds flags) 12 4 = mhExecute ∧
      field (header (segments.length + 1) sizeofcmds flags) 16 4 = segments.length + 1 ∧
      field (header (segments.length + 1) sizeofcmds flags) 20 4 = sizeofcmds ∧
      field (header (segments.length + 1) sizeofcmds flags) 24 4 = flags := by
    refine ⟨?_, ?_, ?_, ?_, ?_, ?_, ?_⟩ <;>
      simp [header, field_append, field_leBytes hmagic, field_leBytes hcpu, field_leBytes hsub,
        field_leBytes htype, field_leBytes (lt_bytes4 hncmds), field_leBytes (lt_bytes4 hlt),
        field_leBytes (lt_bytes4 hflags)]
  obtain ⟨h0, h4, h8, h12, h16, h20, h24⟩ := hvalues
  have hread := readCommands_encode h he
  unfold read
  simp only [hfields (show 0 + 4 ≤ 32 by decide), hfields (show 4 + 4 ≤ 32 by decide),
    hfields (show 8 + 4 ≤ 32 by decide), hfields (show 12 + 4 ≤ 32 by decide),
    hfields (show 16 + 4 ≤ 32 by decide), hfields (show 20 + 4 ≤ 32 by decide),
    hfields (show 24 + 4 ≤ 32 by decide), h0, h4, h8, h12, h16, h20, h24, hcommands, hread]
  rw [if_pos ⟨trivial, hlong⟩]
  rfl

theorem segments_append_main (segments : List SegmentCommand) (entry : EntryPointCommand) :
    (segments.map Command.segment64 ++ [Command.main entry]).filterMap Command.segment? =
      segments := by
  induction segments with
  | nil => rfl
  | cons s rest ih =>
      rw [List.map_cons, List.cons_append, List.filterMap_cons, ih]
      rfl

theorem main_append_main (segments : List SegmentCommand) (entry : EntryPointCommand) :
    (segments.map Command.segment64 ++ [Command.main entry]).findSome? Command.main? =
      some entry := by
  induction segments with
  | nil => rfl
  | cons s rest ih =>
      rw [List.map_cons, List.cons_append, List.findSome?_cons, ih]
      rfl

end XnuRs.Macho
