/-
  XnuRs.Xtask.ConvertFaults

  Which ELF files make the converter panic.

  The layout pass checks every sum (`layoutLoop_clean`), the load commands fit
  the buffer by construction (`emit_clean`), and so do the copies in it.  What is
  not checked is the other side of a copy, the slice of the ELF file
  (`copySegment_panics`), and the size of the buffer itself.
  `failsCleanly_iff` puts the passes together.
-/

import XnuRs.Xtask.ConvertFacts

namespace XnuRs.Xtask

open XnuRs.Macho

/-! ## Layout -/

theorem alignUsize_clean (value align : Nat) : (alignUsize value align).Clean :=
  .bind (.okOr _ _) fun _ _ => .ok _

theorem layoutLoop_clean (headers : List ProgramHeader) (index offset : Nat)
    (layout : List MachSegmentLayout) (textBase : Option (UInt64 × UInt64)) :
    (layoutLoop headers index offset layout textBase).Clean := by
  induction headers generalizing index offset layout textBase with
  | nil => exact .ok _
  | cons h rest ih =>
      refine .bind (alignUsize_clean _ _) fun _ _ => ?_
      exact .bind (.okOr _ _) fun _ _ => ih ..

/-! ## Writing -/

/-- With room for `enc` behind what is written, `f` does not panic. -/
def WritesCleanly (f : Output → Outcome String Output) (enc : List UInt8) : Prop :=
  ∀ (written : List UInt8) (total : Nat), (written ++ enc).length ≤ total → total ≤ isizeMax →
    (f (.after written total)).Clean

variable {f g : Output → Outcome String Output} {P : Prop} {enc enc' : List UInt8}

theorem le_of_append_le {written enc : List UInt8} {total : Nat}
    (h : (written ++ enc).length ≤ total) : written.length ≤ total := by
  rw [List.length_append] at h
  omega

/-- What writes without a condition returns. -/
theorem Puts.writesCleanly (h : Puts True f enc) : WritesCleanly f enc := by
  intro written total hroom hmax
  exact .inl ⟨_, (h.eq_ok (le_of_append_le hroom) hmax).mpr ⟨trivial, hroom, rfl⟩⟩

theorem WritesCleanly.seq (hf : WritesCleanly f enc) (hputs : Puts P f enc)
    (hg : WritesCleanly g enc') : WritesCleanly (fun out => f out >>= g) (enc ++ enc') := by
  intro written total hroom hmax
  rw [← List.append_assoc] at hroom
  have hfirst := le_of_append_le hroom
  refine .bind (hf written total hfirst hmax) fun out hout => ?_
  obtain ⟨-, -, rfl⟩ := (hputs.eq_ok (le_of_append_le hfirst) hmax).mp hout
  exact hg (written ++ enc) total hroom hmax

/-- A number that does not fit 32 bits is an error. -/
theorem WritesCleanly.guard {n : Nat} {error : String} {k : Nat → Output → Outcome String Output}
    (hk : WritesCleanly (k n) enc) :
    WritesCleanly (fun out => Outcome.okOr (u32TryFrom n) error >>= fun m => k m out) enc := by
  intro written total hroom hmax
  refine .bind (.okOr _ _) fun m hm => ?_
  obtain ⟨rfl, -⟩ := u32TryFrom_eq_some.mp (Outcome.okOr_eq_ok.mp hm)
  exact hk written total hroom hmax

theorem writeU32_seq (value : Nat) (hg : WritesCleanly g enc) :
    WritesCleanly (fun out => writeU32 value out >>= g) (leBytes 4 value ++ enc) :=
  (writeU32_puts value).writesCleanly.seq (writeU32_puts value) hg

theorem writeHeader_writesCleanly (commands sizeofcmds : Nat) :
    WritesCleanly (writeHeader commands sizeofcmds) (header commands sizeofcmds 1) := by
  -- eight words, the fifth and the sixth of which are checked before they are written
  have hlast : WritesCleanly (writeU32 0) (leBytes 4 0) := (writeU32_puts 0).writesCleanly
  exact writeU32_seq _ (writeU32_seq _ (writeU32_seq _ (writeU32_seq _ (.guard (writeU32_seq _
    (.guard (writeU32_seq _ (writeU32_seq _ hlast))))))))

/-- The emit pass over the header and the load commands is clean in a buffer they fit. -/
theorem emit_clean {elf : Elf} {total : Nat} {entryoff : UInt64} (hmax : total ≤ isizeMax)
    (hroom : 32 + sizeofcmds elf.loadable.length ≤ total) :
    (writeHeader (elf.layout.length + 1) (sizeofcmds elf.loadable.length)
        ⟨List.replicate total 0, 0⟩ >>= fun out =>
      writeSegments elf.layout out >>= fun out => writeMain entryoff out).Clean := by
  have hlayout : elf.layout.length = elf.loadable.length := layoutFrom_length ..
  have hsegments := writeSegments_puts elf.layout
  have hrest := hsegments.writesCleanly.seq hsegments (writeMain_puts entryoff).writesCleanly
  have hall := (writeHeader_writesCleanly (elf.layout.length + 1)
    (sizeofcmds elf.loadable.length)).seq (writeHeader_puts _ _) hrest
  refine hall [] total ?_ hmax
  rw [← Elf.commands, ← encodeCommands, List.nil_append, List.length_append, header_length,
    elf.encodeCommands_length]
  exact hroom

/-! ## The file bytes -/

variable {elfBytes : List UInt8} {elf : Elf} {entryoff : UInt64}

/-- The file range of a header ends past the end of the ELF file, at a `usize`. -/
def ProgramHeader.PastEnd (elfBytes : List UInt8) (h : ProgramHeader) : Prop :=
  elfBytes.length < h.pOffset.toNat + h.pFilesz.toNat ∧
    h.pOffset.toNat + h.pFilesz.toNat ≤ usizeMax

/-- The first header whose file range is not in the ELF file. -/
def firstOutside (elfBytes : List UInt8) (headers : List ProgramHeader) : Option ProgramHeader :=
  headers.find? fun h => !decide (h.InFile elfBytes)

/-- That header exists, and its file range ends past the end of the file. -/
def ReadsPastEnd (elfBytes : List UInt8) (headers : List ProgramHeader) : Prop :=
  ∃ h, firstOutside elfBytes headers = some h ∧ h.PastEnd elfBytes

/-- A range past the end is sliced. -/
theorem copySegment_panics {index fileoff : Nat} {h : ProgramHeader} {macho : List UInt8}
    (hroom : fileoff + h.pFilesz.toNat ≤ usizeMax) (hpast : h.PastEnd elfBytes) :
    copySegment elfBytes (segmentAt index fileoff h) macho = .panic := by
  have hfileoff : (UInt64.ofNat fileoff).toNat = fileoff := toNat_ofNat_of_le (by omega)
  have hnone : getRange elfBytes h.pOffset.toNat (h.pOffset.toNat + h.pFilesz.toNat) = none := by
    cases hrange : getRange elfBytes h.pOffset.toNat (h.pOffset.toNat + h.pFilesz.toNat) with
    | none => rfl
    | some r =>
        have hle := (getRange_eq_some.mp hrange).1.2
        exact absurd hpast.1 (Nat.not_lt.mpr hle)
  simp only [copySegment, segmentAt, hfileoff, usizeAdd_of_le hpast.2, Nat.add_sub_cancel_left,
    usizeAdd_of_le hroom, Outcome.okOr_some, Outcome.ok_bind, indexRange, hnone,
    Outcome.orPanic_none]
  rfl

/-- A range without an end is an error. -/
theorem copySegment_overflows {segment : MachSegmentLayout} {macho : List UInt8}
    (hover : usizeMax < segment.sourceOffset + segment.filesize.toNat) :
    copySegment elfBytes segment macho = .err "Mach-O segment range overflow" := by
  have hnone : usizeAdd segment.sourceOffset segment.filesize.toNat = none :=
    if_neg (Nat.not_le.mpr hover)
  rw [copySegment, hnone]
  rfl

/-- The copy pass panics for a range past the end of the file that comes before every other
    fault, and for nothing else. -/
theorem copySegments_clean_iff {pre : List UInt8} {headers : List ProgramHeader}
    {zeros index offset : Nat} (hpre : pre.length ≤ offset)
    (hzeros : pre.length + zeros = dataEnd offset headers) (hmax : pre.length + zeros ≤ isizeMax) :
    (copySegments elfBytes (layoutFrom index offset headers)
        (pre ++ List.replicate zeros 0)).Clean ↔ ¬ ReadsPastEnd elfBytes headers := by
  induction headers generalizing index offset pre zeros with
  | nil =>
      refine ⟨fun _ => ?_, fun _ => .ok _⟩
      rintro ⟨h, hfirst, -⟩
      cases hfirst
  | cons h rest ih =>
      have husize : isizeMax ≤ usizeMax := by decide
      have hround := le_roundUp (n := offset) (a := 0x1000) (by decide)
      have hend := dataEnd_cons_ge offset h rest
      rw [layoutFrom, copySegments]
      by_cases hfile : h.InFile elfBytes
      · have hskip : firstOutside elfBytes (h :: rest) = firstOutside elfBytes rest :=
          List.find?_cons_of_neg (by simpa using hfile)
        have hcopy := (@copySegment_eq_ok elfBytes pre _ zeros index (roundUp offset 0x1000) h
          (by omega) (by omega) hmax).mpr ⟨hfile, rfl⟩
        have hlen := hfile.copied_length (show pre.length ≤ roundUp offset 0x1000 by omega)
        rw [dataEnd] at hzeros hend
        rw [hcopy, Outcome.ok_bind, ih (by omega) (by rw [hlen]; omega) (by rw [hlen]; omega),
          ReadsPastEnd, ReadsPastEnd, hskip]
      · have hfirst : firstOutside elfBytes (h :: rest) = some h :=
          List.find?_cons_of_pos (by simpa using hfile)
        by_cases husz : h.pOffset.toNat + h.pFilesz.toNat ≤ usizeMax
        · have hpast : h.PastEnd elfBytes := ⟨by
            by_contra hle
            exact hfile ⟨by omega, husz⟩, husz⟩
          rw [copySegment_panics (by omega) hpast]
          refine iff_of_false Outcome.Clean.not_panic fun hnot => hnot ⟨h, hfirst, hpast⟩
        · rw [copySegment_overflows (by exact Nat.not_le.mp husz)]
          refine iff_of_true (.err _) ?_
          rintro ⟨h', hfirst', hpast⟩
          obtain rfl := Option.some.inj (hfirst.symm.trans hfirst')
          exact husz hpast.2

/-! ## The whole converter -/

/-- What makes the converter panic: the size of the load commands is a `usize` and with the
    header in front it is not; or the layout pass gets through and the output is larger than
    a buffer can be, or an ELF range is sliced past the end of the file. -/
def Elf.Overruns (elfBytes : List UInt8) (elf : Elf) : Prop :=
  (sizeofcmds elf.loadable.length ≤ usizeMax ∧
    usizeMax < 32 + sizeofcmds elf.loadable.length) ∨
  (∃ entryoff, elf.LaysOut entryoff) ∧
    (isizeMax < elf.outputSize ∨
      sizeofcmds elf.loadable.length < 2 ^ 32 ∧ ReadsPastEnd elfBytes elf.loadable)

/-- When the layout pass does not get through, it says so. -/
theorem convert_clean_of_not_laysOut (hnot : ∀ entryoff, ¬ elf.LaysOut entryoff)
    (hcommands : sizeofcmds elf.loadable.length ≤ usizeMax →
      32 + sizeofcmds elf.loadable.length ≤ usizeMax) :
    (convertElfToMacho elfBytes elf).Clean := by
  unfold convertElfToMacho
  by_cases hempty : elf.loadable = []
  · simp only [hempty, List.isEmpty_nil, if_true]
    exact .err _
  have hnonempty : ¬ elf.loadable.isEmpty = true := by simpa using hempty
  dsimp only
  rw [if_neg hnonempty]
  refine .bind (.okOr _ _) fun size hsize => ?_
  obtain ⟨rfl, hle⟩ := commandsSize_eq_some.mp (Outcome.okOr_eq_ok.mp hsize)
  rw [usizeAdd_of_le (hcommands hle), Outcome.orPanic_some, Outcome.ok_bind]
  refine .bind (alignUsize_clean _ _) fun fileOffset hpage => ?_
  obtain ⟨rfl, hmax⟩ := alignUsize_page.mp hpage
  refine .bind (layoutLoop_clean ..) fun r hloop => ?_
  obtain ⟨hend, rfl⟩ := (layoutLoop_eq_ok hmax).mp hloop
  refine .bind (.okOr _ _) fun text htext => ?_
  refine .bind (.okOr _ _) fun entryoff hentry => ?_
  -- all checks passed, so the layout pass did get through
  rw [Outcome.okOr_eq_ok] at htext hentry
  rw [checkedSub_eq_some, saturatingSub_toNat] at hentry
  exact absurd ⟨hempty, hend, text.1, text.2, htext, hentry⟩ (hnot entryoff)

theorem emitPass_clean_iff (elfBytes : List UInt8) (elf : Elf) (entryoff : UInt64) :
    (emitPass elfBytes elf entryoff).Clean ↔
      ¬ (isizeMax < elf.outputSize ∨
        sizeofcmds elf.loadable.length < 2 ^ 32 ∧ ReadsPastEnd elfBytes elf.loadable) := by
  have hstart := commands_le_dataStart elf.loadable.length
  have hend : dataStart elf.loadable.length ≤ elf.outputSize := le_dataEnd ..
  by_cases hmax : elf.outputSize ≤ isizeMax
  · have hvec : zeroedVec elf.outputSize = .ok (List.replicate elf.outputSize 0) :=
      zeroedVec_eq_ok.mpr ⟨hmax, rfl⟩
    rw [emitPass, hvec, Outcome.ok_bind]
    by_cases hsize : sizeofcmds elf.loadable.length < 2 ^ 32
    · have hlen : (header (elf.commands.length + 1) (sizeofcmds elf.loadable.length) 1 ++
          encodeCommands elf.commands ⟨entryoff.toNat, 0⟩).length =
            32 + sizeofcmds elf.loadable.length := by
        rw [List.length_append, header_length, elf.encodeCommands_length]
      have hemit := (@emit_eq_ok elf elf.outputSize entryoff _ hmax).mpr ⟨hsize, by omega, rfl⟩
      rw [hemit, Outcome.ok_bind, Output.after, Elf.layout,
        copySegments_clean_iff (by rw [hlen]; exact hstart) (by rw [hlen, ← Elf.outputSize]; omega)
          (by rw [hlen]; omega),
        or_iff_right (Nat.not_lt.mpr hmax), and_iff_right hsize]
    · -- the size of the commands is refused before anything is copied
      refine iff_of_true ?_ ?_
      · refine .bind (emit_clean hmax (by omega)) fun out hout => ?_
        exact absurd ((emit_eq_ok hmax).mp hout).1 hsize
      · rintro (hover | ⟨hlt, -⟩)
        · exact absurd hmax (Nat.not_le.mpr hover)
        · exact hsize hlt
  · have hvec : zeroedVec elf.outputSize = .panic := if_neg hmax
    rw [emitPass, hvec]
    exact iff_of_false Outcome.Clean.not_panic fun hnot => hnot (.inl (Nat.not_le.mp hmax))

/-- The converter ends with the whole output, or with an error. -/
def FailsCleanly (elfBytes : List UInt8) (elf : Elf) : Prop :=
  (∃ entryoff, Converts elfBytes elf entryoff ∧
    convertElfToMacho elfBytes elf = .ok (machoOf elfBytes elf entryoff)) ∨
  ∃ message, convertElfToMacho elfBytes elf = .err message

theorem failsCleanly_iff_clean :
    FailsCleanly elfBytes elf ↔ (convertElfToMacho elfBytes elf).Clean := by
  constructor
  · rintro (⟨entryoff, -, hok⟩ | herr)
    · exact .inl ⟨_, hok⟩
    · exact .inr herr
  · rintro (⟨out, hok⟩ | herr)
    · obtain ⟨entryoff, hconverts, rfl⟩ := convertElfToMacho_eq_ok.mp hok
      exact .inl ⟨entryoff, hconverts, hok⟩
    · exact .inr herr

/-- The size of the load commands leaves no room for the header. -/
theorem convert_panics_of_commands (hsize : sizeofcmds elf.loadable.length ≤ usizeMax)
    (hover : usizeMax < 32 + sizeofcmds elf.loadable.length) :
    convertElfToMacho elfBytes elf = .panic := by
  have hnonempty : ¬ elf.loadable.isEmpty = true := by
    intro hempty
    rw [List.isEmpty_iff.mp hempty] at hover
    exact absurd hover (by decide)
  have hcommands : commandsSize elf.loadable.length = some (sizeofcmds elf.loadable.length) :=
    commandsSize_eq_some.mpr ⟨rfl, hsize⟩
  have hnone : usizeAdd 32 (sizeofcmds elf.loadable.length) = none := if_neg (Nat.not_le.mpr hover)
  unfold convertElfToMacho
  dsimp only
  rw [if_neg hnonempty, hcommands, Outcome.okOr_some, Outcome.ok_bind, hnone]
  rfl

/-- **When the converter fails cleanly**: always, but for the inputs that overrun. -/
theorem failsCleanly_iff (elfBytes : List UInt8) (elf : Elf) :
    FailsCleanly elfBytes elf ↔ ¬ elf.Overruns elfBytes := by
  rw [failsCleanly_iff_clean, Elf.Overruns]
  by_cases hcommands : sizeofcmds elf.loadable.length ≤ usizeMax ∧
      usizeMax < 32 + sizeofcmds elf.loadable.length
  · rw [convert_panics_of_commands hcommands.1 hcommands.2]
    exact iff_of_false Outcome.Clean.not_panic fun hnot => hnot (.inl hcommands)
  rw [or_iff_right hcommands]
  by_cases hlaysOut : ∃ entryoff, elf.LaysOut entryoff
  · rw [and_iff_right hlaysOut]
    obtain ⟨entryoff, h⟩ := hlaysOut
    rw [convert_of_laysOut h, emitPass_clean_iff]
  · refine iff_of_true ?_ fun hover => hlaysOut hover.1
    refine convert_clean_of_not_laysOut (fun entryoff h => hlaysOut ⟨entryoff, h⟩) fun hsize => ?_
    by_contra hover
    exact hcommands ⟨hsize, Nat.not_le.mp hover⟩

/-- An ELF file of its two headers: one executable segment, with 4 bytes at offset 0x1000. -/
def truncatedElf : List UInt8 :=
  [0x7f, 0x45, 0x4c, 0x46, 2, 1, 1] ++ List.replicate 9 0 ++ leBytes 2 2 ++ leBytes 2 183 ++
    leBytes 4 1 ++ leBytes 8 0x10000 ++ leBytes 8 64 ++ leBytes 8 0 ++ leBytes 4 0 ++
    leBytes 2 64 ++ leBytes 2 56 ++ leBytes 2 1 ++ List.replicate 6 0 ++
  leBytes 4 1 ++ leBytes 4 5 ++ leBytes 8 0x1000 ++ leBytes 8 0x10000 ++ leBytes 8 0x10000 ++
    leBytes 8 4 ++ leBytes 8 4 ++ leBytes 8 0x1000

/-- The slice of the 4 bytes panics. -/
theorem truncatedElf_panics :
    ¬ FailsCleanly truncatedElf ⟨0x10000, [⟨1, 5, 0x1000, 0x10000, 4, 4⟩]⟩ := by
  have hlaysOut : Elf.LaysOut ⟨0x10000, [⟨1, 5, 0x1000, 0x10000, 4, 4⟩]⟩ 0x1000 :=
    { nonempty := by decide
      size := by decide
      entry := ⟨0x10000, 0x1000, by decide, by decide⟩ }
  have hlen : truncatedElf.length = 120 := by decide +kernel
  have hpast : ReadsPastEnd truncatedElf [⟨1, 5, 0x1000, 0x10000, 4, 4⟩] := by
    refine ⟨_, List.find?_cons_of_pos ?_, ?_, by decide⟩
    · simp only [ProgramHeader.InFile, hlen]
      decide
    · rw [hlen]
      decide
  rw [failsCleanly_iff_clean, convert_of_laysOut hlaysOut, emitPass_clean_iff]
  intro hfits
  exact hfits (.inr ⟨by decide, hpast⟩)

end XnuRs.Xtask
