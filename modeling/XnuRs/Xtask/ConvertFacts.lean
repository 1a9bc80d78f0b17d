/-
  XnuRs.Xtask.ConvertFacts

  The converter in closed form.

  The layout pass is `layoutFrom`, the two emit passes write the header and the
  load commands of the format one behind the other (`Puts`) and then the
  segments' file bytes into the zeros behind them (`dataFrom`).
  `convertElfToMacho_eq_ok` puts the passes together: when the converter
  succeeds, and every byte of what it then writes.
-/

import XnuRs.Xtask.Convert

namespace XnuRs.Xtask

open XnuRs.Macho

/-! ## Layout -/

theorem alignUsize_page {value r : Nat} :
    alignUsize value 0x1000 = .ok r ↔ r = roundUp value 0x1000 ∧ r ≤ usizeMax := by
  simp only [alignUsize, Outcome.bind_eq_ok, Outcome.okOr_eq_ok, usizeAdd_eq_some]
  constructor
  · rintro ⟨_, ⟨rfl, hmax⟩, h⟩
    obtain rfl := Except.ok.inj h
    refine ⟨rfl, ?_⟩
    have hle := Nat.div_mul_le_self (value + (0x1000 - 1)) 0x1000
    omega
  · rintro ⟨rfl, hmax⟩
    refine ⟨_, ⟨rfl, ?_⟩, rfl⟩
    rw [roundUp, usizeMax] at hmax
    rw [usizeMax]
    omega

/-- The segment that the header with number `index` becomes, at `fileoff`. -/
def segmentAt (index fileoff : Nat) (h : ProgramHeader) : MachSegmentLayout where
  segname := segmentName index h.pFlags
  vmaddr := h.pVaddr
  vmsize := h.pMemsz
  fileoff := UInt64.ofNat fileoff
  filesize := h.pFilesz
  initprot := vmProt h.pFlags
  maxprot := vmProt h.pFlags
  sourceOffset := h.pOffset.toNat

/-- The segments of a list of headers, with the file filled up to `offset`. -/
def layoutFrom (index offset : Nat) : List ProgramHeader → List MachSegmentLayout
  | [] => []
  | h :: rest =>
    segmentAt index (roundUp offset 0x1000) h ::
      layoutFrom (index + 1) (roundUp offset 0x1000 + h.pFilesz.toNat) rest

/-- Where the file bytes of a list of headers end. -/
def dataEnd (offset : Nat) : List ProgramHeader → Nat
  | [] => offset
  | h :: rest => dataEnd (roundUp offset 0x1000 + h.pFilesz.toNat) rest

/-- The address and the file offset of the last `__TEXT` segment. -/
def lastText (layout : List MachSegmentLayout) (textBase : Option (UInt64 × UInt64)) :
    Option (UInt64 × UInt64) :=
  layout.foldl (fun textBase segment =>
    if segment.segname = textName then some (segment.vmaddr, segment.fileoff) else textBase) textBase

theorem le_dataEnd (offset : Nat) (headers : List ProgramHeader) :
    offset ≤ dataEnd offset headers := by
  induction headers generalizing offset with
  | nil => exact Nat.le_refl _
  | cons h rest ih =>
      have hle := ih (roundUp offset 0x1000 + h.pFilesz.toNat)
      have hround := le_roundUp (n := offset) (a := 0x1000) (by decide)
      rw [dataEnd]
      omega

/-- The first segment starts and ends before the end of the data. -/
theorem dataEnd_cons_ge (offset : Nat) (h : ProgramHeader) (rest : List ProgramHeader) :
    roundUp offset 0x1000 + h.pFilesz.toNat ≤ dataEnd offset (h :: rest) := le_dataEnd ..

theorem layoutLoop_eq_ok {headers : List ProgramHeader} {index offset : Nat}
    {layout : List MachSegmentLayout} {textBase : Option (UInt64 × UInt64)}
    {r : List MachSegmentLayout × Nat × Option (UInt64 × UInt64)} (hoffset : offset ≤ usizeMax) :
    layoutLoop headers index offset layout textBase = .ok r ↔
      dataEnd offset headers ≤ usizeMax ∧
      r = (layout ++ layoutFrom index offset headers, dataEnd offset headers,
        lastText (layoutFrom index offset headers) textBase) := by
  induction headers generalizing index offset layout textBase with
  | nil =>
      rw [layoutLoop, layoutFrom, dataEnd, List.append_nil, lastText]
      simp [hoffset, eq_comm]
  | cons h rest ih =>
      simp only [layoutLoop, Outcome.bind_eq_ok, alignUsize_page, Outcome.okOr_eq_ok,
        usizeAdd_eq_some]
      constructor
      · rintro ⟨_, ⟨rfl, _⟩, _, ⟨rfl, hsum⟩, hloop⟩
        obtain ⟨hend, rfl⟩ := (ih hsum).mp hloop
        refine ⟨hend, ?_⟩
        rw [List.append_assoc]
        rfl
      · rintro ⟨hend, rfl⟩
        -- the end of the first segment is not past the end of all
        have hfirst := dataEnd_cons_ge offset h rest
        refine ⟨_, ⟨rfl, by omega⟩, _, ⟨rfl, by omega⟩, ?_⟩
        refine (ih (by omega)).mpr ⟨hend, ?_⟩
        rw [List.append_assoc]
        rfl

/-! ## Writing one thing behind the other -/

/-- The output after `written`, in a buffer of `total` bytes. -/
def Output.after (written : List UInt8) (total : Nat) : Output :=
  ⟨written ++ List.replicate (total - written.length) 0, written.length⟩

/-- `f` writes `enc` behind what is already written when `fits` holds and there is
    room, and fails otherwise. -/
structure Puts (fits : Prop) (f : Output → Outcome String Output) (enc : List UInt8) : Prop where
  eq_ok : ∀ {written : List UInt8} {total : Nat} {r : Output}, written.length ≤ total →
    total ≤ isizeMax →
    (f (.after written total) = .ok r ↔
      fits ∧ (written ++ enc).length ≤ total ∧ r = .after (written ++ enc) total)

namespace Puts

variable {f g : Output → Outcome String Output} {P Q : Prop} {enc enc' : List UInt8}

theorem put (enc : List UInt8) : Puts True (fun out => out.put enc) enc := by
  refine ⟨?_⟩
  intro written total r hle hmax
  have hroom : isizeMax + isizeMax ≤ usizeMax := by decide
  simp only [Output.put, Outcome.bind_eq_ok, Outcome.orPanic_eq_ok, usizeAdd_eq_some,
    Output.after, true_and, List.length_append, List.length_replicate]
  -- what is behind the cursor shrinks by what is written
  have hput : written.length + enc.length ≤ total →
      overwrite (written ++ List.replicate (total - written.length) 0) written.length enc =
        written ++ enc ++ List.replicate (total - (written.length + enc.length)) 0 := by
    intro hfit
    rw [overwrite, List.take_left, List.drop_append, List.drop_of_length_le (by omega),
      List.nil_append, List.drop_replicate]
    congr 2
    omega
  constructor
  · rintro ⟨_, ⟨rfl, _⟩, h⟩
    split at h
    · rename_i hfit
      have hfit' : written.length + enc.length ≤ total := by omega
      rw [hput hfit'] at h
      exact ⟨hfit', (Except.ok.inj h).symm⟩
    · exact absurd h Outcome.panic_ne_ok
  · rintro ⟨hfit, rfl⟩
    refine ⟨_, ⟨rfl, by omega⟩, ?_⟩
    rw [if_pos (by omega), hput hfit]

theorem seq (hf : Puts P f enc) (hg : Puts Q g enc') :
    Puts (P ∧ Q) (fun out => f out >>= g) (enc ++ enc') := by
  refine ⟨?_⟩
  intro written total r hle hmax
  rw [Outcome.bind_eq_ok]
  constructor
  · rintro ⟨_, hfirst, hsecond⟩
    obtain ⟨hP, hroom, rfl⟩ := (hf.eq_ok hle hmax).mp hfirst
    obtain ⟨hQ, hend, rfl⟩ := (hg.eq_ok hroom hmax).mp hsecond
    rw [List.append_assoc] at hend ⊢
    exact ⟨⟨hP, hQ⟩, hend, rfl⟩
  · rintro ⟨⟨hP, hQ⟩, hend, rfl⟩
    have hroom : (written ++ enc).length ≤ total := by
      rw [← List.append_assoc, List.length_append] at hend
      omega
    refine ⟨_, (hf.eq_ok hle hmax).mpr ⟨hP, hroom, rfl⟩, ?_⟩
    rw [← List.append_assoc] at hend ⊢
    exact (hg.eq_ok hroom hmax).mpr ⟨hQ, hend, rfl⟩

/-- A number that has to fit 32 bits before it is written. -/
theorem guard {n : Nat} {error : String} {k : Nat → Output → Outcome String Output}
    (hk : Puts Q (k n) enc) :
    Puts (n < 2 ^ 32 ∧ Q) (fun out => Outcome.okOr (u32TryFrom n) error >>= fun m => k m out)
      enc := by
  refine ⟨?_⟩
  intro written total r hle hmax
  simp only [Outcome.bind_eq_ok, Outcome.okOr_eq_ok, u32TryFrom_eq_some]
  constructor
  · rintro ⟨_, ⟨rfl, hn⟩, h⟩
    obtain ⟨hQ, hrest⟩ := (hk.eq_ok hle hmax).mp h
    exact ⟨⟨hn, hQ⟩, hrest⟩
  · rintro ⟨⟨hn, hQ⟩, hrest⟩
    exact ⟨n, ⟨rfl, hn⟩, (hk.eq_ok hle hmax).mpr ⟨hQ, hrest⟩⟩

theorem nil : Puts True (fun out => .ok out) [] := by
  refine ⟨?_⟩
  intro written total r hle _
  rw [List.append_nil]
  simp [hle, eq_comm]

/-- What it means to fit may be restated. -/
theorem congr_fits (h : Puts P f enc) (hPQ : P ↔ Q) : Puts Q f enc := propext hPQ ▸ h

end Puts

theorem writeU32_puts (value : Nat) : Puts True (writeU32 value) (leBytes 4 value) := Puts.put _

theorem writeU64_puts (value : Nat) : Puts True (writeU64 value) (leBytes 8 value) := Puts.put _

theorem writeHeader_puts (commands sizeofcmds : Nat) :
    Puts (commands < 2 ^ 32 ∧ sizeofcmds < 2 ^ 32) (writeHeader commands sizeofcmds)
      (header commands sizeofcmds 1) := by
  have hfits : (True ∧ True ∧ True ∧ True ∧ commands < 2 ^ 32 ∧ True ∧ sizeofcmds < 2 ^ 32 ∧
      True ∧ True ∧ True) ↔ commands < 2 ^ 32 ∧ sizeofcmds < 2 ^ 32 := by simp
  refine Puts.congr_fits ?_ hfits
  exact (writeU32_puts _).seq ((writeU32_puts _).seq ((writeU32_puts _).seq ((writeU32_puts _).seq
    (.guard ((writeU32_puts _).seq (.guard ((writeU32_puts _).seq ((writeU32_puts _).seq
      (writeU32_puts _)))))))))

/-- The load command of a segment, as the format has it. -/
def MachSegmentLayout.toCommand (s : MachSegmentLayout) : SegmentCommand where
  segname := s.segname
  vmaddr := s.vmaddr.toNat
  vmsize := s.vmsize.toNat
  fileoff := s.fileoff.toNat
  filesize := s.filesize.toNat
  maxprot := s.maxprot.toNat
  initprot := s.initprot.toNat
  nsects := 0
  flags := 0

theorem writeSegment_puts (s : MachSegmentLayout) :
    Puts True (writeSegment s) s.toCommand.encode := by
  have hsize : (sizeofSegmentCommand64 < 2 ^ 32) ↔ True := by decide
  refine Puts.congr_fits ((writeU32_puts _).seq (.guard ((writeU32_puts _).seq ((Puts.put _).seq
    ((writeU64_puts _).seq ((writeU64_puts _).seq ((writeU64_puts _).seq ((writeU64_puts _).seq
      ((writeU32_puts _).seq ((writeU32_puts _).seq ((writeU32_puts _).seq
        (writeU32_puts _)))))))))))) ?_
  simp only [hsize, and_self]

theorem writeSegments_puts (layout : List MachSegmentLayout) :
    Puts True (writeSegments layout)
      ((layout.map MachSegmentLayout.toCommand).flatMap SegmentCommand.encode) := by
  induction layout with
  | nil => exact Puts.nil
  | cons s rest ih =>
      rw [List.map_cons, List.flatMap_cons]
      exact ((writeSegment_puts s).seq ih).congr_fits (by simp)

theorem writeMain_puts (entryoff : UInt64) :
    Puts True (writeMain entryoff) (EntryPointCommand.encode ⟨entryoff.toNat, 0⟩) := by
  have hsize : (sizeofEntryPointCommand < 2 ^ 32) ↔ True := by decide
  refine Puts.congr_fits ((writeU32_puts _).seq (.guard ((writeU32_puts _).seq
    ((writeU64_puts _).seq (writeU64_puts _))))) ?_
  simp only [hsize, and_self]

/-! ## The file bytes -/

/-- The file bytes of a header. -/
def ProgramHeader.fileBytes (elfBytes : List UInt8) (h : ProgramHeader) : List UInt8 :=
  (elfBytes.drop h.pOffset.toNat).take h.pFilesz.toNat

/-- The file range of a header lies in the ELF file (and ends at a `usize`, as it
    does in every file that fits the memory). -/
def ProgramHeader.InFile (elfBytes : List UInt8) (h : ProgramHeader) : Prop :=
  h.pOffset.toNat + h.pFilesz.toNat ≤ elfBytes.length ∧
    h.pOffset.toNat + h.pFilesz.toNat ≤ usizeMax

instance (elfBytes : List UInt8) (h : ProgramHeader) : Decidable (h.InFile elfBytes) :=
  inferInstanceAs (Decidable (_ ∧ _))

theorem ProgramHeader.InFile.length {elfBytes : List UInt8} {h : ProgramHeader}
    (hfile : h.InFile elfBytes) : (h.fileBytes elfBytes).length = h.pFilesz.toNat := by
  have hle := hfile.1
  rw [fileBytes, List.length_take, List.length_drop]
  omega

/-- What stands behind the load commands: from `pos` on, the file bytes of each
    header at its offset, with zeros between them. -/
def dataFrom (elfBytes : List UInt8) (pos offset : Nat) : List ProgramHeader → List UInt8
  | [] => List.replicate (offset - pos) 0
  | h :: rest =>
    List.replicate (roundUp offset 0x1000 - pos) 0 ++ (h.fileBytes elfBytes ++
      dataFrom elfBytes (roundUp offset 0x1000 + h.pFilesz.toNat)
        (roundUp offset 0x1000 + h.pFilesz.toNat) rest)

theorem dataFrom_length {elfBytes : List UInt8} {headers : List ProgramHeader}
    (h : ∀ header ∈ headers, header.InFile elfBytes) {pos offset : Nat} (hpos : pos ≤ offset) :
    pos + (dataFrom elfBytes pos offset headers).length = dataEnd offset headers := by
  induction headers generalizing pos offset with
  | nil =>
      rw [dataFrom, dataEnd, List.length_replicate]
      omega
  | cons header rest ih =>
      obtain ⟨hfile, hrest⟩ := List.forall_mem_cons.mp h
      have hround := le_roundUp (n := offset) (a := 0x1000) (by decide)
      have hnext := ih hrest (Nat.le_refl (roundUp offset 0x1000 + header.pFilesz.toNat))
      rw [dataFrom, dataEnd, List.length_append, List.length_append, List.length_replicate,
        hfile.length]
      omega

/-- The file bytes of a header at `start`, behind `pre` and a gap of zeros. -/
theorem ProgramHeader.InFile.copied_length {elfBytes pre : List UInt8} {h : ProgramHeader}
    (hfile : h.InFile elfBytes) {start : Nat} (hpre : pre.length ≤ start) :
    (pre ++ (List.replicate (start - pre.length) 0 ++ h.fileBytes elfBytes)).length =
      start + h.pFilesz.toNat := by
  rw [List.length_append, List.length_append, List.length_replicate, hfile.length]
  omega

/-- Overwriting zeros behind `pre`, with a gap of `gap` zeros. -/
theorem overwrite_zeros {pre bytes : List UInt8} {zeros start : Nat} (hstart : pre.length ≤ start)
    (hroom : start + bytes.length ≤ pre.length + zeros) :
    overwrite (pre ++ List.replicate zeros 0) start bytes =
      pre ++ (List.replicate (start - pre.length) 0 ++ bytes) ++
        List.replicate (pre.length + zeros - (start + bytes.length)) 0 := by
  rw [overwrite, List.take_append, List.take_of_length_le hstart, List.take_replicate,
    List.drop_append, List.drop_of_length_le (by omega), List.nil_append, List.drop_replicate,
    Nat.min_eq_left (by omega), List.append_assoc pre]
  congr 2
  omega

theorem copySegment_eq_ok {elfBytes pre r : List UInt8} {zeros index fileoff : Nat}
    {h : ProgramHeader} (hpre : pre.length ≤ fileoff)
    (hroom : fileoff + h.pFilesz.toNat ≤ pre.length + zeros)
    (hmax : pre.length + zeros ≤ isizeMax) :
    copySegment elfBytes (segmentAt index fileoff h) (pre ++ List.replicate zeros 0) = .ok r ↔
      h.InFile elfBytes ∧
        r = pre ++ (List.replicate (fileoff - pre.length) 0 ++ h.fileBytes elfBytes) ++
          List.replicate (pre.length + zeros - (fileoff + h.pFilesz.toNat)) 0 := by
  have husize : isizeMax ≤ usizeMax := by decide
  have hsource := toNat_le_usizeMax h.pOffset
  have hfileoff : (UInt64.ofNat fileoff).toNat = fileoff := toNat_ofNat_of_le (by omega)
  -- the destination is always in range; the source has to be in the file
  simp only [copySegment, segmentAt, hfileoff, Outcome.bind_eq_ok, Outcome.okOr_eq_ok,
    usizeAdd_eq_some, indexRange, Outcome.orPanic_eq_ok, getRange_eq_some, List.length_append,
    List.length_replicate]
  constructor
  · rintro ⟨_, ⟨rfl, husz⟩, _, ⟨rfl, _⟩, _, ⟨⟨_, hfile⟩, rfl⟩, hcopy⟩
    rw [Nat.add_sub_cancel_left, if_pos hroom] at hcopy
    have hinFile : h.InFile elfBytes := ⟨hfile, husz⟩
    refine ⟨hinFile, ?_⟩
    rw [← Except.ok.inj hcopy, ← ProgramHeader.fileBytes, overwrite_zeros hpre
      (by rw [hinFile.length]; exact hroom), hinFile.length]
  · rintro ⟨hfile, rfl⟩
    refine ⟨_, ⟨rfl, hfile.2⟩, _, ⟨rfl, ?_⟩, _, ⟨⟨Nat.le_add_right .., hfile.1⟩, rfl⟩, ?_⟩
    · rw [Nat.add_sub_cancel_left]
      omega
    · rw [Nat.add_sub_cancel_left, if_pos hroom, ← ProgramHeader.fileBytes,
        overwrite_zeros hpre (by rw [hfile.length]; exact hroom), hfile.length]

/-- The copy pass fills the zeros behind `pre` with the segments' file bytes. -/
theorem copySegments_eq_ok {elfBytes pre r : List UInt8} {headers : List ProgramHeader}
    {zeros index offset : Nat} (hpre : pre.length ≤ offset)
    (hzeros : pre.length + zeros = dataEnd offset headers) (hmax : pre.length + zeros ≤ isizeMax) :
    copySegments elfBytes (layoutFrom index offset headers) (pre ++ List.replicate zeros 0) =
        .ok r ↔
      (∀ h ∈ headers, h.InFile elfBytes) ∧
        r = pre ++ dataFrom elfBytes pre.length offset headers := by
  induction headers generalizing index offset pre zeros with
  | nil =>
      have hgap : zeros = offset - pre.length := by
        rw [dataEnd] at hzeros
        omega
      rw [layoutFrom, copySegments, dataFrom, hgap]
      simp [eq_comm]
  | cons h rest ih =>
      have hround := le_roundUp (n := offset) (a := 0x1000) (by decide)
      have hend := dataEnd_cons_ge offset h rest
      have hfirst : ∀ {r}, copySegment elfBytes (segmentAt index (roundUp offset 0x1000) h)
          (pre ++ List.replicate zeros 0) = .ok r ↔ _ := fun {r} =>
        copySegment_eq_ok (r := r) (by omega) (by omega) hmax
      -- the first segment leaves a longer prefix and fewer zeros
      have hrest : h.InFile elfBytes →
          (copySegments elfBytes
              (layoutFrom (index + 1) (roundUp offset 0x1000 + h.pFilesz.toNat) rest)
              (pre ++ (List.replicate (roundUp offset 0x1000 - pre.length) 0 ++
                h.fileBytes elfBytes) ++ List.replicate
                  (pre.length + zeros - (roundUp offset 0x1000 + h.pFilesz.toNat)) 0) = .ok r ↔
            (∀ header ∈ rest, header.InFile elfBytes) ∧
              r = pre ++ dataFrom elfBytes pre.length offset (h :: rest)) := by
        intro hfile
        have hlen := hfile.copied_length (show pre.length ≤ roundUp offset 0x1000 by omega)
        rw [dataEnd] at hzeros hend
        rw [ih (by omega) (by rw [hlen]; omega) (by rw [hlen]; omega), hlen, dataFrom]
        simp only [List.append_assoc]
      rw [layoutFrom, copySegments, Outcome.bind_eq_ok, List.forall_mem_cons]
      constructor
      · rintro ⟨_, hcopy, hloop⟩
        obtain ⟨hfile, rfl⟩ := hfirst.mp hcopy
        obtain ⟨hfiles, rfl⟩ := (hrest hfile).mp hloop
        exact ⟨⟨hfile, hfiles⟩, rfl⟩
      · rintro ⟨⟨hfile, hfiles⟩, rfl⟩
        exact ⟨_, hfirst.mpr ⟨hfile, rfl⟩, (hrest hfile).mpr ⟨hfiles, rfl⟩⟩

/-! ## The whole converter -/

/-- The size of the load commands of `n` segments. -/
def sizeofcmds (n : Nat) : Nat := sizeofSegmentCommand64 * n + sizeofEntryPointCommand

/-- The first file offset after the load commands of `n` segments. -/
def dataStart (n : Nat) : Nat := roundUp (32 + sizeofcmds n) 0x1000

/-- The segments of the output. -/
def Elf.layout (elf : Elf) : List MachSegmentLayout :=
  layoutFrom 0 (dataStart elf.loadable.length) elf.loadable

/-- The segment commands of the output. -/
def Elf.commands (elf : Elf) : List SegmentCommand :=
  elf.layout.map MachSegmentLayout.toCommand

/-- The output: the header, the load commands, and the segments' file bytes. -/
def machoOf (elfBytes : List UInt8) (elf : Elf) (entryoff : UInt64) : List UInt8 :=
  header (elf.commands.length + 1) (sizeofcmds elf.loadable.length) 1 ++
    (encodeCommands elf.commands ⟨entryoff.toNat, 0⟩ ++
      dataFrom elfBytes (32 + sizeofcmds elf.loadable.length) (dataStart elf.loadable.length)
        elf.loadable)

/-- What the converter needs to succeed, with `entryoff` the entry it writes. -/
structure Converts (elfBytes : List UInt8) (elf : Elf) (entryoff : UInt64) : Prop where
  nonempty : elf.loadable ≠ []
  commands : sizeofcmds elf.loadable.length < 2 ^ 32
  size : dataEnd (dataStart elf.loadable.length) elf.loadable ≤ isizeMax
  entry : ∃ vmaddr fileoff, lastText elf.layout none = some (vmaddr, fileoff) ∧
    elf.entry.toNat = (vmaddr.toNat - fileoff.toNat) + entryoff.toNat
  inFile : ∀ h ∈ elf.loadable, h.InFile elfBytes

theorem layoutFrom_length (index offset : Nat) (headers : List ProgramHeader) :
    (layoutFrom index offset headers).length = headers.length := by
  induction headers generalizing index offset with
  | nil => rfl
  | cons h rest ih => rw [layoutFrom, List.length_cons, List.length_cons, ih]

theorem Elf.commands_length (elf : Elf) : elf.commands.length = elf.loadable.length := by
  rw [Elf.commands, List.length_map, Elf.layout, layoutFrom_length]

theorem segmentName_length (index : Nat) (flags : UInt32) :
    (segmentName index flags).length = 16 := by
  unfold segmentName
  split
  · decide
  split
  · decide
  · dsimp only
    rw [List.length_append, List.length_take, List.length_replicate]
    omega

/-- Every segment of the layout is one of a header. -/
theorem mem_layoutFrom {index offset : Nat} {headers : List ProgramHeader}
    {s : MachSegmentLayout} (h : s ∈ layoutFrom index offset headers) :
    ∃ i fileoff header, header ∈ headers ∧ s = segmentAt i fileoff header := by
  induction headers generalizing index offset with
  | nil => cases h
  | cons header rest ih =>
      rw [layoutFrom] at h
      rcases List.mem_cons.mp h with hs | hs
      · exact ⟨_, _, header, List.mem_cons_self .., hs⟩
      · obtain ⟨i, fileoff, header', hmem, hs⟩ := ih hs
        exact ⟨i, fileoff, header', List.mem_cons_of_mem _ hmem, hs⟩

theorem Elf.commands_fit (elf : Elf) : ∀ s ∈ elf.commands, s.Fits := by
  intro s hs
  obtain ⟨segment, hsegment, rfl⟩ := List.mem_map.mp hs
  obtain ⟨index, fileoff, header, _, rfl⟩ := mem_layoutFrom hsegment
  exact
    { segname := segmentName_length ..
      vmaddr := UInt64.toNat_lt _
      vmsize := UInt64.toNat_lt _
      fileoff := UInt64.toNat_lt _
      filesize := UInt64.toNat_lt _
      maxprot := UInt32.toNat_lt _
      initprot := UInt32.toNat_lt _
      nsects := Nat.two_pow_pos 32
      flags := Nat.two_pow_pos 32 }

theorem commandsSize_eq_some {n size : Nat} :
    commandsSize n = some size ↔ size = sizeofcmds n ∧ sizeofcmds n ≤ usizeMax := by
  unfold commandsSize sizeofcmds
  rw [Nat.mul_comm n]
  split
  · exact usizeAdd_eq_some
  · rename_i hmul
    simp only [reduceCtorEq, false_iff]
    rintro ⟨_, hle⟩
    omega

/-- The emit pass over the header and the load commands. -/
theorem writeCommands_puts (commands size : Nat) (layout : List MachSegmentLayout)
    (entryoff : UInt64) :
    Puts (commands < 2 ^ 32 ∧ size < 2 ^ 32)
      (fun out => writeHeader commands size out >>= fun out =>
        writeSegments layout out >>= fun out => writeMain entryoff out)
      (header commands size 1 ++
        encodeCommands (layout.map MachSegmentLayout.toCommand) ⟨entryoff.toNat, 0⟩) :=
  ((writeHeader_puts commands size).seq
    ((writeSegments_puts layout).seq (writeMain_puts entryoff))).congr_fits (by simp)

theorem zeroedVec_eq_ok {n : Nat} {r : List UInt8} :
    zeroedVec n = .ok r ↔ n ≤ isizeMax ∧ r = List.replicate n 0 := by
  unfold zeroedVec
  split
  · simp [*, eq_comm]
  · simp [*]

/-- The load commands end before the first segment's file bytes. -/
theorem commands_le_dataStart (n : Nat) : 32 + sizeofcmds n ≤ dataStart n :=
  le_roundUp (by decide)

theorem Elf.encodeCommands_length (elf : Elf) (entry : EntryPointCommand) :
    (encodeCommands elf.commands entry).length = sizeofcmds elf.loadable.length := by
  rw [Macho.encodeCommands_length elf.commands_fit, elf.commands_length, sizeofcmds]

/-- The header and the load commands, written into a zeroed buffer. -/
theorem emit_eq_ok {elf : Elf} {total : Nat} {entryoff : UInt64} {r : Output}
    (hmax : total ≤ isizeMax) :
    (writeHeader (elf.layout.length + 1) (sizeofcmds elf.loadable.length)
        ⟨List.replicate total 0, 0⟩ >>= fun out =>
      writeSegments elf.layout out >>= fun out => writeMain entryoff out) = .ok r ↔
      sizeofcmds elf.loadable.length < 2 ^ 32 ∧
        32 + sizeofcmds elf.loadable.length ≤ total ∧
        r = .after (header (elf.commands.length + 1) (sizeofcmds elf.loadable.length) 1 ++
          encodeCommands elf.commands ⟨entryoff.toNat, 0⟩) total := by
  have hputs := (writeCommands_puts (elf.layout.length + 1) (sizeofcmds elf.loadable.length)
    elf.layout entryoff).eq_ok (r := r) (show ([] : List UInt8).length ≤ total from Nat.zero_le _)
      hmax
  have hlayout : elf.layout.length = elf.loadable.length := layoutFrom_length ..
  rw [List.nil_append, ← Elf.commands, List.length_append, header_length,
    elf.encodeCommands_length, hlayout, ← elf.commands_length] at hputs
  rw [hlayout, ← elf.commands_length]
  refine hputs.trans ?_
  rw [elf.commands_length]
  constructor
  · rintro ⟨⟨_, hsize⟩, hroom, hr⟩
    exact ⟨hsize, hroom, hr⟩
  · rintro ⟨hsize, hroom, hr⟩
    -- each command takes more than one byte
    have hcount : elf.loadable.length + 1 < 2 ^ 32 := by
      rw [sizeofcmds, sizeofSegmentCommand64, sizeofEntryPointCommand] at hsize
      omega
    exact ⟨⟨hcount, hsize⟩, hroom, hr⟩

/-- The copy pass behind the load commands. -/
theorem copy_eq_ok {elfBytes r : List UInt8} {elf : Elf} {entryoff : UInt64}
    (hmax : dataEnd (dataStart elf.loadable.length) elf.loadable ≤ isizeMax) :
    copySegments elfBytes elf.layout
        (Output.after (header (elf.commands.length + 1) (sizeofcmds elf.loadable.length) 1 ++
          encodeCommands elf.commands ⟨entryoff.toNat, 0⟩)
            (dataEnd (dataStart elf.loadable.length) elf.loadable)).buf = .ok r ↔
      (∀ h ∈ elf.loadable, h.InFile elfBytes) ∧ r = machoOf elfBytes elf entryoff := by
  have hstart := commands_le_dataStart elf.loadable.length
  have hend := le_dataEnd (dataStart elf.loadable.length) elf.loadable
  have hlen : (header (elf.commands.length + 1) (sizeofcmds elf.loadable.length) 1 ++
      encodeCommands elf.commands ⟨entryoff.toNat, 0⟩).length =
        32 + sizeofcmds elf.loadable.length := by
    rw [List.length_append, header_length, elf.encodeCommands_length]
  rw [Output.after, Elf.layout, copySegments_eq_ok (by rw [hlen]; exact hstart)
    (by rw [hlen]; omega) (by rw [hlen]; omega), hlen, machoOf, List.append_assoc]

/-! ## The passes together -/

variable {elfBytes : List UInt8} {elf : Elf} {entryoff : UInt64}

/-- The size of the output. -/
def Elf.outputSize (elf : Elf) : Nat := dataEnd (dataStart elf.loadable.length) elf.loadable

/-- The layout pass gets through, with `entryoff` the entry: there is a segment, the output has
    a size, and the entry is not below the base of the text. -/
structure Elf.LaysOut (elf : Elf) (entryoff : UInt64) : Prop where
  nonempty : elf.loadable ≠ []
  size : elf.outputSize ≤ usizeMax
  entry : ∃ vmaddr fileoff, lastText elf.layout none = some (vmaddr, fileoff) ∧
    elf.entry.toNat = (vmaddr.toNat - fileoff.toNat) + entryoff.toNat

/-- The header and the load commands, and then the file bytes. -/
def emitPass (elfBytes : List UInt8) (elf : Elf) (entryoff : UInt64) :
    Outcome String (List UInt8) :=
  zeroedVec elf.outputSize >>= fun macho =>
    (writeHeader (elf.layout.length + 1) (sizeofcmds elf.loadable.length) ⟨macho, 0⟩ >>= fun out =>
      writeSegments elf.layout out >>= fun out => writeMain entryoff out) >>= fun out =>
        copySegments elfBytes elf.layout out.buf

theorem convert_of_laysOut (h : elf.LaysOut entryoff) :
    convertElfToMacho elfBytes elf = emitPass elfBytes elf entryoff := by
  have hstart := commands_le_dataStart elf.loadable.length
  have hend := le_dataEnd (dataStart elf.loadable.length) elf.loadable
  have hsize := h.size
  rw [Elf.outputSize] at hsize
  have hnonempty : ¬ elf.loadable.isEmpty = true := by simpa using h.nonempty
  have hcommands : commandsSize elf.loadable.length = some (sizeofcmds elf.loadable.length) :=
    commandsSize_eq_some.mpr ⟨rfl, by omega⟩
  have hpage : alignUsize (32 + sizeofcmds elf.loadable.length) 0x1000 =
      .ok (dataStart elf.loadable.length) := alignUsize_page.mpr ⟨rfl, by omega⟩
  have hloop : layoutLoop elf.loadable 0 (dataStart elf.loadable.length) [] none =
      .ok (elf.layout, elf.outputSize, lastText elf.layout none) := by
    refine (layoutLoop_eq_ok (by omega)).mpr ⟨hsize, ?_⟩
    rw [List.nil_append, Elf.layout, Elf.outputSize]
  obtain ⟨vmaddr, fileoff, htext, hentry⟩ := h.entry
  have hentryoff : checkedSub elf.entry (saturatingSub vmaddr fileoff) = some entryoff := by
    rw [checkedSub_eq_some, saturatingSub_toNat]
    exact hentry
  unfold convertElfToMacho
  dsimp only
  rw [if_neg hnonempty, hcommands, Outcome.okOr_some, Outcome.ok_bind,
    usizeAdd_of_le (show 32 + sizeofcmds elf.loadable.length ≤ usizeMax by omega),
    Outcome.orPanic_some, Outcome.ok_bind, hpage, Outcome.ok_bind, hloop, Outcome.ok_bind]
  dsimp only
  rw [htext, Outcome.okOr_some, Outcome.ok_bind]
  dsimp only
  rw [hentryoff, Outcome.okOr_some, Outcome.ok_bind, emitPass]
  simp only [bind_assoc]

/-- A converter that succeeds has got through its layout pass. -/
theorem laysOut_of_convert {out : List UInt8} (h : convertElfToMacho elfBytes elf = .ok out) :
    ∃ entryoff, elf.LaysOut entryoff := by
  unfold convertElfToMacho at h
  -- every check of the pass, in the order of the source
  by_cases hempty : elf.loadable = []
  · simp only [hempty, List.isEmpty_nil, if_true, Outcome.err_ne_ok] at h
  have hnonempty : ¬ elf.loadable.isEmpty = true := by simpa using hempty
  dsimp only at h
  rw [if_neg hnonempty] at h
  simp only [Outcome.bind_eq_ok, Outcome.okOr_eq_ok, Outcome.orPanic_eq_ok,
    commandsSize_eq_some, usizeAdd_eq_some, alignUsize_page, checkedSub_eq_some,
    Prod.exists] at h
  obtain ⟨_, ⟨rfl, _⟩, _, ⟨rfl, _⟩, _, ⟨rfl, hpage⟩, layout, fileEnd, textBase, hlayout,
    vmaddr, fileoff, htext, entryoff, hentry, -⟩ := h
  obtain ⟨hend, heq⟩ := (layoutLoop_eq_ok hpage).mp hlayout
  obtain ⟨rfl, -, rfl⟩ : layout = elf.layout ∧ fileEnd = elf.outputSize ∧
      textBase = lastText elf.layout none := by
    simpa [Elf.layout, Elf.outputSize, dataStart] using heq
  rw [saturatingSub_toNat] at hentry
  exact ⟨entryoff, hempty, hend, vmaddr, fileoff, htext, hentry⟩

theorem emitPass_eq_ok {out : List UInt8} :
    emitPass elfBytes elf entryoff = .ok out ↔
      elf.outputSize ≤ isizeMax ∧ sizeofcmds elf.loadable.length < 2 ^ 32 ∧
        (∀ h ∈ elf.loadable, h.InFile elfBytes) ∧ out = machoOf elfBytes elf entryoff := by
  have hstart := commands_le_dataStart elf.loadable.length
  have hend := le_dataEnd (dataStart elf.loadable.length) elf.loadable
  rw [emitPass, Outcome.bind_eq_ok]
  constructor
  · rintro ⟨macho, hvec, h⟩
    obtain ⟨hmax, rfl⟩ := zeroedVec_eq_ok.mp hvec
    obtain ⟨written, hwritten, hcopy⟩ := Outcome.bind_eq_ok.mp h
    obtain ⟨hsize, -, rfl⟩ := (emit_eq_ok hmax).mp hwritten
    exact ⟨hmax, hsize, (copy_eq_ok hmax).mp hcopy⟩
  · rintro ⟨hmax, hsize, hcopy⟩
    have hroom : 32 + sizeofcmds elf.loadable.length ≤ elf.outputSize := hstart.trans hend
    have hwritten := (@emit_eq_ok elf elf.outputSize entryoff _ hmax).mpr ⟨hsize, hroom, rfl⟩
    refine ⟨_, zeroedVec_eq_ok.mpr ⟨hmax, rfl⟩, ?_⟩
    exact Outcome.bind_eq_ok.mpr ⟨_, hwritten, (copy_eq_ok hmax).mpr hcopy⟩

/-- **The converter in closed form.** -/
theorem convertElfToMacho_eq_ok {elfBytes out : List UInt8} {elf : Elf} :
    convertElfToMacho elfBytes elf = .ok out ↔
      ∃ entryoff, Converts elfBytes elf entryoff ∧ out = machoOf elfBytes elf entryoff := by
  have husize : isizeMax ≤ usizeMax := by decide
  constructor
  · intro h
    obtain ⟨entryoff, hlays⟩ := laysOut_of_convert h
    rw [convert_of_laysOut hlays] at h
    obtain ⟨hmax, hsize, hfiles, hout⟩ := emitPass_eq_ok.mp h
    exact ⟨entryoff, ⟨hlays.nonempty, hsize, hmax, hlays.entry, hfiles⟩, hout⟩
  · rintro ⟨entryoff, h, hout⟩
    have hlays : elf.LaysOut entryoff := ⟨h.nonempty, h.size.trans husize, h.entry⟩
    rw [convert_of_laysOut hlays]
    exact emitPass_eq_ok.mpr ⟨h.size, h.commands, h.inFile, hout⟩

end XnuRs.Xtask
