/-
  XnuRs.Xtask.ConvertResults

  What the converted file holds, read back by the Mach-O format.

  The conversion loses nothing and overlaps nothing (`convert_carries`).  The
  entry address survives exactly when the first and the last executable segment
  agree on the distance between addresses and file offsets
  (`convert_entry_iff`): the converter measures the entry from the last one, a
  reader of the file from the first.
-/

import XnuRs.Xtask.ConvertFacts
import Mathlib.Data.List.Forall2
import Mathlib.Data.Nat.Bitwise

namespace XnuRs.Xtask

open XnuRs.Macho

/-! ## Protections -/

/-- The Mach-O protection bits of ELF segment flags: read, write, execute. -/
def protections (flags : UInt32) : Nat :=
  (flags.toNat.testBit 2).toNat + 2 * (flags.toNat.testBit 1).toNat +
    4 * (flags.toNat.testBit 0).toNat

theorem and_two_pow_ne_zero {flags mask : UInt32} {i : Nat} (hmask : mask.toNat = 2 ^ i) :
    flags &&& mask ≠ 0 ↔ flags.toNat.testBit i = true := by
  rw [Ne, ← UInt32.toNat_inj, UInt32.toNat_and, hmask, Nat.and_two_pow, UInt32.toNat_zero]
  have hpos := Nat.two_pow_pos i
  cases flags.toNat.testBit i
  · simp
  · simp

theorem vmProt_toNat (flags : UInt32) : (vmProt flags).toNat = protections flags := by
  have h2 : flags &&& 0x4 ≠ 0 ↔ flags.toNat.testBit 2 = true := and_two_pow_ne_zero rfl
  have h1 : flags &&& 0x2 ≠ 0 ↔ flags.toNat.testBit 1 = true := and_two_pow_ne_zero rfl
  have h0 : flags &&& 0x1 ≠ 0 ↔ flags.toNat.testBit 0 = true := and_two_pow_ne_zero rfl
  unfold vmProt protections
  simp only [h2, h1, h0]
  cases flags.toNat.testBit 2 <;> cases flags.toNat.testBit 1 <;>
    cases flags.toNat.testBit 0 <;> rfl

/-! ## Segments and their bytes -/

/-- The segment `s` of the file `out` is the loadable header `h` of the ELF file:
    its addresses, its protections and its bytes, on a page boundary. -/
structure Carries (elfBytes out : List UInt8) (s : SegmentCommand) (h : ProgramHeader) :
    Prop where
  vmaddr : s.vmaddr = h.pVaddr.toNat
  vmsize : s.vmsize = h.pMemsz.toNat
  filesize : s.filesize = h.pFilesz.toNat
  maxprot : s.maxprot = protections h.pFlags
  initprot : s.initprot = protections h.pFlags
  aligned : s.fileoff % 0x1000 = 0
  within : s.fileoff + s.filesize ≤ out.length
  bytes : (out.drop s.fileoff).take s.filesize =
    (elfBytes.drop h.pOffset.toNat).take h.pFilesz.toNat

/-- The file range of `s` ends where that of `t` starts, or before. -/
def Before (s t : SegmentCommand) : Prop := s.fileoff + s.filesize ≤ t.fileoff

/-- A segment carries its header when the file bytes stand at its file offset. -/
theorem segmentAt_carries {elfBytes out front back : List UInt8} {h : ProgramHeader} (index : Nat)
    {fileoff : Nat} (hfile : h.InFile elfBytes) (hpage : fileoff % 0x1000 = 0)
    (hfront : front.length = fileoff) (hout : out = front ++ h.fileBytes elfBytes ++ back)
    (hmax : out.length ≤ isizeMax) :
    Carries elfBytes out (segmentAt index fileoff h).toCommand h := by
  have husize : isizeMax ≤ usizeMax := by decide
  have hlen : fileoff + h.pFilesz.toNat ≤ out.length := by
    rw [hout, List.length_append, List.length_append, hfront, hfile.length]
    omega
  have hfileoff : (UInt64.ofNat fileoff).toNat = fileoff := toNat_ofNat_of_le (by omega)
  constructor
  · rfl
  · rfl
  · rfl
  · exact vmProt_toNat _
  · exact vmProt_toNat _
  · show (UInt64.ofNat _).toNat % 0x1000 = 0
    rw [hfileoff]
    exact hpage
  · show (UInt64.ofNat _).toNat + h.pFilesz.toNat ≤ _
    rw [hfileoff]
    exact hlen
  · exact slice_of_eq _ _ _ hout (hfileoff.trans hfront.symm) hfile.length.symm

/-- Behind `pre`, the data of the headers carries their segments, one after the
    other, from `offset` on. -/
theorem dataFrom_carries {elfBytes pre out : List UInt8} {headers : List ProgramHeader}
    (index : Nat) {offset : Nat} (hfiles : ∀ h ∈ headers, h.InFile elfBytes)
    (hpre : pre.length ≤ offset) (hout : out = pre ++ dataFrom elfBytes pre.length offset headers)
    (hmax : out.length ≤ isizeMax) :
    let segments := (layoutFrom index offset headers).map MachSegmentLayout.toCommand
    List.Forall₂ (Carries elfBytes out) segments headers ∧ segments.Pairwise Before ∧
      ∀ s ∈ segments, offset ≤ s.fileoff := by
  induction headers generalizing index offset pre with
  | nil => exact ⟨.nil, .nil, fun _ h => absurd h List.not_mem_nil⟩
  | cons h rest ih =>
      obtain ⟨hfile, hrest⟩ := List.forall_mem_cons.mp hfiles
      have hround := le_roundUp (n := offset) (a := 0x1000) (by decide)
      -- padding up to the next page, the first segment's bytes, and the rest
      have hsplit : out = (pre ++ List.replicate (roundUp offset 0x1000 - pre.length) 0) ++
          h.fileBytes elfBytes ++ dataFrom elfBytes (roundUp offset 0x1000 + h.pFilesz.toNat)
            (roundUp offset 0x1000 + h.pFilesz.toNat) rest := by
        rw [hout, dataFrom]
        simp only [List.append_assoc]
      have hgap : (pre ++ List.replicate (roundUp offset 0x1000 - pre.length) (0 : UInt8)).length =
          roundUp offset 0x1000 := by
        rw [List.length_append, List.length_replicate]
        omega
      have hnext : (pre ++ List.replicate (roundUp offset 0x1000 - pre.length) 0 ++
          h.fileBytes elfBytes).length = roundUp offset 0x1000 + h.pFilesz.toNat := by
        rw [List.length_append, hgap, hfile.length]
      have hlen : roundUp offset 0x1000 + h.pFilesz.toNat ≤ out.length := by
        rw [hsplit, List.length_append, hnext]
        omega
      have husize : isizeMax ≤ usizeMax := by decide
      have hfileoff : (UInt64.ofNat (roundUp offset 0x1000)).toNat = roundUp offset 0x1000 :=
        toNat_ofNat_of_le (by omega)
      obtain ⟨hcarries, hordered, hlater⟩ := ih (index + 1) hrest (Nat.le_of_eq hnext)
        (by rw [hnext]; exact hsplit)
      have hhere : Carries elfBytes out
          (segmentAt index (roundUp offset 0x1000) h).toCommand h :=
        segmentAt_carries index hfile (roundUp_mod ..) hgap hsplit hmax
      rw [layoutFrom, List.map_cons]
      refine ⟨.cons hhere hcarries, .cons ?_ hordered, ?_⟩
      · intro s hs
        show (UInt64.ofNat _).toNat + h.pFilesz.toNat ≤ s.fileoff
        rw [hfileoff]
        exact hlater s hs
      · intro s hs
        rcases List.mem_cons.mp hs with rfl | hs
        · show offset ≤ (UInt64.ofNat _).toNat
          rw [hfileoff]
          exact hround
        · have hle := hlater s hs
          omega

/-- What the output says by the format. -/
def fileOf (elf : Elf) (entryoff : UInt64) : File where
  cputype := cpuTypeArm64
  cpusubtype := cpuSubtypeArm64All
  filetype := mhExecute
  ncmds := elf.loadable.length + 1
  sizeofcmds := sizeofcmds elf.loadable.length
  flags := 1
  commands := elf.commands.map Command.segment64 ++ [Command.main ⟨entryoff.toNat, 0⟩]

theorem read_machoOf {elfBytes : List UInt8} {elf : Elf} {entryoff : UInt64}
    (h : sizeofcmds elf.loadable.length < 2 ^ 32) :
    read (machoOf elfBytes elf entryoff) = some (fileOf elf entryoff) := by
  have hentry : EntryPointCommand.Fits ⟨entryoff.toNat, 0⟩ :=
    ⟨entryoff.toNat_lt, Nat.two_pow_pos 64⟩
  have hcount : elf.commands.length + 1 < 2 ^ 32 := by
    rw [sizeofcmds, sizeofSegmentCommand64, sizeofEntryPointCommand] at h
    rw [elf.commands_length]
    omega
  rw [machoOf, read_encode elf.commands_fit hentry hcount (elf.encodeCommands_length _).symm h
    (by decide), fileOf, elf.commands_length]

theorem fileOf_segments (elf : Elf) (entryoff : UInt64) :
    (fileOf elf entryoff).segments = elf.commands := segments_append_main ..

/-- The segments of the output carry the loadable headers. -/
theorem machoOf_carries {elfBytes : List UInt8} {elf : Elf} {entryoff : UInt64}
    (h : Converts elfBytes elf entryoff) :
    List.Forall₂ (Carries elfBytes (machoOf elfBytes elf entryoff)) elf.commands elf.loadable ∧
      elf.commands.Pairwise Before ∧
      ∀ s ∈ elf.commands, 32 + sizeofcmds elf.loadable.length ≤ s.fileoff := by
  have hstart := commands_le_dataStart elf.loadable.length
  have hpre : (header (elf.commands.length + 1) (sizeofcmds elf.loadable.length) 1 ++
      encodeCommands elf.commands ⟨entryoff.toNat, 0⟩).length =
        32 + sizeofcmds elf.loadable.length := by
    rw [List.length_append, header_length, elf.encodeCommands_length]
  have hle : (header (elf.commands.length + 1) (sizeofcmds elf.loadable.length) 1 ++
      encodeCommands elf.commands ⟨entryoff.toNat, 0⟩).length ≤ dataStart elf.loadable.length := by
    rw [hpre]
    exact hstart
  -- the header and the load commands are what stands before the data
  have hsplit : machoOf elfBytes elf entryoff =
      (header (elf.commands.length + 1) (sizeofcmds elf.loadable.length) 1 ++
        encodeCommands elf.commands ⟨entryoff.toNat, 0⟩) ++
      dataFrom elfBytes (header (elf.commands.length + 1) (sizeofcmds elf.loadable.length) 1 ++
        encodeCommands elf.commands ⟨entryoff.toNat, 0⟩).length (dataStart elf.loadable.length)
        elf.loadable := by
    rw [hpre, machoOf, List.append_assoc]
  have hlen := dataFrom_length h.inFile hle
  have hmax := h.size
  obtain ⟨hcarries, hordered, hlater⟩ := dataFrom_carries 0 h.inFile hle hsplit
    (by rw [hsplit, List.length_append]; omega)
  refine ⟨hcarries, hordered, fun s hs => ?_⟩
  have hle := hlater s hs
  omega

/-- **The conversion loses nothing and overlaps nothing.**  By the format, the
    output is a segment command for each loadable header, in order, and one
    `LC_MAIN`; the segments carry the headers, their file ranges follow each
    other behind the load commands. -/
theorem convert_carries {elfBytes out : List UInt8} {elf : Elf}
    (h : convertElfToMacho elfBytes elf = .ok out) :
    ∃ file entry, read out = some file ∧
      file.ncmds = elf.loadable.length + 1 ∧
      file.sizeofcmds = 72 * elf.loadable.length + 24 ∧
      file.commands = file.segments.map Command.segment64 ++ [.main entry] ∧
      List.Forall₂ (Carries elfBytes out) file.segments elf.loadable ∧
      file.segments.Pairwise Before ∧
      ∀ s ∈ file.segments, 32 + file.sizeofcmds ≤ s.fileoff := by
  obtain ⟨entryoff, hconverts, rfl⟩ := convertElfToMacho_eq_ok.mp h
  have hread : read (machoOf elfBytes elf entryoff) = some (fileOf elf entryoff) :=
    read_machoOf hconverts.commands
  obtain ⟨hcarries, hordered, hstart⟩ := machoOf_carries hconverts
  refine ⟨fileOf elf entryoff, ⟨entryoff.toNat, 0⟩, hread, rfl, rfl, ?_⟩
  rw [fileOf_segments]
  exact ⟨rfl, hcarries, hordered, hstart⟩

/-- Two headers, the first with data and the second without, become a file. -/
theorem convert_carries_two_segments :
    ∃ file entry, read (machoOf (List.replicate 8 7)
        ⟨0x10000, [⟨1, 5, 2, 0x10000, 4, 4⟩, ⟨1, 6, 8, 0x20000, 0, 16⟩]⟩ 0x1000) = some file ∧
      file.ncmds = 3 ∧ file.sizeofcmds = 168 ∧
      file.commands = file.segments.map Command.segment64 ++ [.main entry] ∧
      List.Forall₂ (Carries (List.replicate 8 7) (machoOf (List.replicate 8 7)
        ⟨0x10000, [⟨1, 5, 2, 0x10000, 4, 4⟩, ⟨1, 6, 8, 0x20000, 0, 16⟩]⟩ 0x1000)) file.segments
        [⟨1, 5, 2, 0x10000, 4, 4⟩, ⟨1, 6, 8, 0x20000, 0, 16⟩] ∧
      file.segments.Pairwise Before ∧
      ∀ s ∈ file.segments, 32 + file.sizeofcmds ≤ s.fileoff :=
  convert_carries (convertElfToMacho_eq_ok.mpr ⟨0x1000,
    { nonempty := by decide
      commands := by decide
      size := by decide
      entry := ⟨0x10000, 0x1000, by decide, by decide⟩
      inFile := by decide }, rfl⟩)

/-! ## The entry address -/

/-- The header is of an executable segment. -/
def ProgramHeader.IsExec (h : ProgramHeader) : Prop := h.pFlags &&& 0x1 ≠ 0

instance (h : ProgramHeader) : Decidable h.IsExec := inferInstanceAs (Decidable (_ ≠ _))

/-- Only executable segments are called `__TEXT`: a data segment is `__DATA`, and
    the label of any other starts with `__S`. -/
theorem segmentName_take (index : Nat) {flags : UInt32} (h : ¬ flags &&& 0x1 ≠ 0) :
    (segmentName index flags).take 6 ≠ asBytes "__TEXT" := by
  unfold segmentName
  rw [if_neg h]
  split
  · decide
  · intro hname
    have hseg : asBytes ("__SEG" ++ toString index) = asBytes "__SEG" ++ asBytes (toString index) :=
      asBytes_append ..
    have hlen : (asBytes "__SEG").length = 5 := by decide
    have hthree := congrArg (List.take 3) hname
    rw [hseg, List.take_take, List.take_append_of_le_length
      (by rw [List.length_take, List.length_append]; omega), List.take_take,
      List.length_append, hlen, List.take_append_of_le_length (by rw [hlen]; omega),
      show min (min 3 6) (min (5 + (asBytes (toString index)).length) 16) = 3 by omega] at hthree
    revert hthree
    decide

theorem segmentName_eq_text (index : Nat) (flags : UInt32) :
    segmentName index flags = textName ↔ flags &&& 0x1 ≠ 0 := by
  constructor
  · intro hname
    by_cases h : flags &&& 0x1 ≠ 0
    · exact h
    · exfalso
      apply segmentName_take index h
      rw [hname]
      decide
  · intro h
    rw [segmentName, if_pos h]

theorem isText_segmentAt (index fileoff : Nat) (h : ProgramHeader) :
    (segmentAt index fileoff h).toCommand.IsText ↔ h.IsExec := by
  show beforeNul (segmentName index h.pFlags) = asBytes "__TEXT" ↔ _
  constructor
  · intro hname
    by_cases hexec : h.IsExec
    · exact hexec
    · exfalso
      apply segmentName_take index hexec
      have hpre := take_beforeNul_length (segmentName index h.pFlags)
      rwa [hname] at hpre
  · intro hexec
    rw [(segmentName_eq_text index h.pFlags).mpr hexec]
    decide

/-- For each executable header, from the one at `fileoff` on, how far its
    addresses are above its file offsets. -/
def anchors (fileoff : Nat) : List ProgramHeader → List Int
  | [] => []
  | h :: rest =>
    (if h.IsExec then [(h.pVaddr.toNat : Int) - fileoff] else []) ++
      anchors (fileoff + roundUp h.pFilesz.toNat 0x1000) rest

/-- The anchors of the loadable headers; the file starts with the load commands. -/
def Elf.anchors (elf : Elf) : List Int :=
  Xtask.anchors (dataStart elf.loadable.length) elf.loadable

/-- The first anchor is the last one, or 0 if that is negative. -/
def Elf.AnchorsAgree (elf : Elf) : Prop :=
  elf.anchors.head? = elf.anchors.getLast?.map (max 0)

instance (elf : Elf) : Decidable elf.AnchorsAgree := inferInstanceAs (Decidable (_ = _))

/-- The anchor of a segment of the layout. -/
def MachSegmentLayout.anchor (s : MachSegmentLayout) : Int :=
  (s.vmaddr.toNat : Int) - s.fileoff.toNat

/-- The layout has the anchors its headers promise. -/
theorem layoutFrom_anchors {headers : List ProgramHeader} (index : Nat) {offset : Nat}
    (hmax : dataEnd offset headers ≤ usizeMax) :
    ((layoutFrom index offset headers).filter (·.segname = textName)).map
        MachSegmentLayout.anchor = anchors (roundUp offset 0x1000) headers := by
  induction headers generalizing index offset with
  | nil => rfl
  | cons h rest ih =>
      have hfirst := dataEnd_cons_ge offset h rest
      have hfileoff : (UInt64.ofNat (roundUp offset 0x1000)).toNat = roundUp offset 0x1000 :=
        toNat_ofNat_of_le (by omega)
      have hnext := ih (index + 1) hmax
      rw [roundUp_add (by decide) (roundUp_mod ..)] at hnext
      have hname : (segmentAt index (roundUp offset 0x1000) h).segname = textName ↔ h.IsExec :=
        segmentName_eq_text ..
      rw [layoutFrom, anchors, List.filter_cons, ← hnext]
      by_cases hexec : h.IsExec
      · rw [if_pos (by simpa using hname.mpr hexec), if_pos hexec, List.map_cons,
          MachSegmentLayout.anchor]
        simp only [segmentAt, hfileoff, List.singleton_append]
      · rw [if_neg (by simpa using mt hname.mp hexec), if_neg hexec, List.nil_append]

/-- The base the layout loop ends with is that of the last `__TEXT` segment. -/
theorem lastText_eq (layout : List MachSegmentLayout) (textBase : Option (UInt64 × UInt64)) :
    lastText layout textBase =
      ((layout.filter (·.segname = textName)).getLast?.map fun s => (s.vmaddr, s.fileoff)).or
        textBase := by
  induction layout generalizing textBase with
  | nil => rfl
  | cons s rest ih =>
      have hstep : lastText (s :: rest) textBase = lastText rest
          (if s.segname = textName then some (s.vmaddr, s.fileoff) else textBase) := rfl
      rw [hstep, ih, List.filter_cons]
      by_cases hname : s.segname = textName
      · -- a later `__TEXT` wins over this one
        simp only [hname, decide_true, if_true, List.getLast?_cons]
        cases (rest.filter (·.segname = textName)).getLast? with
        | none => rfl
        | some t => rfl
      · simp only [hname, decide_false, if_false, Bool.false_eq_true]

/-- The converter measures the entry from the last anchor. -/
theorem lastText_anchor {layout : List MachSegmentLayout} {vmaddr fileoff : UInt64}
    (h : lastText layout none = some (vmaddr, fileoff)) :
    ((layout.filter (·.segname = textName)).map MachSegmentLayout.anchor).getLast? =
      some ((vmaddr.toNat : Int) - fileoff.toNat) := by
  rw [lastText_eq, Option.or_none, Option.map_eq_some_iff] at h
  obtain ⟨s, hs, heq⟩ := h
  obtain ⟨rfl, rfl⟩ := Prod.mk.inj heq
  rw [List.getLast?_map, hs]
  rfl

theorem Elf.layout_anchors {elf : Elf}
    (hmax : dataEnd (dataStart elf.loadable.length) elf.loadable ≤ usizeMax) :
    (elf.layout.filter (·.segname = textName)).map MachSegmentLayout.anchor = elf.anchors := by
  have hanchors := layoutFrom_anchors 0 hmax
  have hstart : roundUp (dataStart elf.loadable.length) 0x1000 = dataStart elf.loadable.length :=
    roundUp_of_mod (by decide) (roundUp_mod ..)
  rwa [hstart] at hanchors

/-- A reader measures the entry from the first anchor. -/
theorem entryAddress_fileOf {elf : Elf} {entryoff : UInt64}
    (hmax : dataEnd (dataStart elf.loadable.length) elf.loadable ≤ usizeMax) :
    (fileOf elf entryoff).entryAddress = elf.anchors.head?.map (· + (entryoff.toNat : Int)) := by
  have hmain : (fileOf elf entryoff).main? = some ⟨entryoff.toNat, 0⟩ := main_append_main ..
  -- the reader's test of the name is the converter's
  have htext : ∀ s ∈ elf.layout, decide s.toCommand.IsText = decide (s.segname = textName) := by
    intro s hs
    obtain ⟨index, fileoff, header, _, rfl⟩ := mem_layoutFrom hs
    have hiff : (segmentAt index fileoff header).toCommand.IsText ↔
        (segmentAt index fileoff header).segname = textName :=
      (isText_segmentAt index fileoff header).trans
        (segmentName_eq_text index header.pFlags).symm
    exact decide_eq_decide.mpr hiff
  have hfind : (fileOf elf entryoff).segments.find? (fun s => decide s.IsText) =
      (elf.layout.find? (·.segname = textName)).map MachSegmentLayout.toCommand := by
    rw [fileOf_segments, Elf.commands, List.find?_map]
    congr 1
    rw [← List.head?_filter, ← List.head?_filter]
    congr 1
    exact List.filter_congr htext
  rw [File.entryAddress, hfind, hmain, ← elf.layout_anchors hmax, List.head?_map,
    List.head?_filter]
  cases elf.layout.find? (·.segname = textName) with
  | none => rfl
  | some s => rfl

/-- **The entry address.**  A reader of the output computes the entry of the ELF
    file exactly when the first and the last anchor agree. -/
theorem convert_entry_iff {elfBytes out : List UInt8} {elf : Elf}
    (h : convertElfToMacho elfBytes elf = .ok out) :
    ∃ file, read out = some file ∧
      (file.entryAddress = some (elf.entry.toNat : Int) ↔ elf.AnchorsAgree) := by
  obtain ⟨entryoff, hconverts, rfl⟩ := convertElfToMacho_eq_ok.mp h
  have husize : isizeMax ≤ usizeMax := by decide
  have hmax : dataEnd (dataStart elf.loadable.length) elf.loadable ≤ usizeMax :=
    Nat.le_trans hconverts.size husize
  obtain ⟨vmaddr, fileoff, htext, hentry⟩ := hconverts.entry
  have hlast := lastText_anchor htext
  rw [elf.layout_anchors hmax] at hlast
  refine ⟨fileOf elf entryoff, read_machoOf hconverts.commands, ?_⟩
  rw [entryAddress_fileOf hmax, Elf.AnchorsAgree, hlast]
  cases elf.anchors.head? with
  | none => simp
  | some first =>
      simp only [Option.map_some, Option.some.injEq]
      omega

/-- Two executable segments on neighbouring pages, with the entry in the second. -/
theorem convert_entry_iff_two_segments :
    ∃ file, read (machoOf (List.replicate 8 7)
        ⟨0x11002, [⟨1, 5, 2, 0x10000, 4, 4⟩, ⟨1, 5, 4, 0x11000, 4, 4⟩]⟩ 0x2002) = some file ∧
      (file.entryAddress = some ((0x11002 : UInt64).toNat : Int) ↔
        Elf.AnchorsAgree
          ⟨0x11002, [⟨1, 5, 2, 0x10000, 4, 4⟩, ⟨1, 5, 4, 0x11000, 4, 4⟩]⟩) :=
  convert_entry_iff (convertElfToMacho_eq_ok.mpr ⟨0x2002,
    { nonempty := by decide
      commands := by decide
      size := by decide
      entry := ⟨0x11000, 0x2000, by decide, by decide⟩
      inFile := by decide }, rfl⟩)

/-- Two executable segments, the second further above its file offset than the
    first, with the entry in the second. -/
def twoTexts : Elf := ⟨0x410000, [⟨1, 5, 0xb0, 0x400000, 4, 4⟩, ⟨1, 5, 0xb4, 0x410000, 4, 4⟩]⟩

/-- The entry lies inside an executable loadable segment. -/
def Elf.EntryInside (elf : Elf) : Prop :=
  ∃ h ∈ elf.loadable, h.IsExec ∧ h.pVaddr ≤ elf.entry ∧
    elf.entry.toNat < h.pVaddr.toNat + h.pMemsz.toNat

/-- The output of `twoTexts` sends a reader to another address than its entry. -/
theorem twoTexts_entry_moves :
    ¬ ∀ elfBytes elf out, convertElfToMacho elfBytes elf = .ok out → elf.EntryInside →
      ∃ file, read out = some file ∧ file.entryAddress = some (elf.entry.toNat : Int) := by
  intro hclaim
  have hconvert : convertElfToMacho (List.replicate 0xb8 0) twoTexts =
      .ok (machoOf (List.replicate 0xb8 0) twoTexts 0x2000) :=
    convertElfToMacho_eq_ok.mpr ⟨0x2000,
      { nonempty := by decide
        commands := by decide
        size := by decide
        entry := ⟨0x410000, 0x2000, by decide, by decide⟩
        inFile := by
          simp only [ProgramHeader.InFile, List.length_replicate]
          decide }, rfl⟩
  -- entry and base are the second executable segment's, a reader takes the first one's
  have hinside : twoTexts.EntryInside :=
    ⟨⟨1, 5, 0xb4, 0x410000, 4, 4⟩, by decide, by decide, by decide, by decide⟩
  obtain ⟨file, hread, hentry⟩ := hclaim _ _ _ hconvert hinside
  have hfile : read (machoOf (List.replicate 0xb8 0) twoTexts 0x2000) =
      some (fileOf twoTexts 0x2000) := read_machoOf (by decide)
  obtain rfl := Option.some.inj (hfile.symm.trans hread)
  rw [entryAddress_fileOf (by decide)] at hentry
  revert hentry
  decide

end XnuRs.Xtask
