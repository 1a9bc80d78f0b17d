/-
  XnuRs.Boot.ElfImage

  From the linked kernel to the running one.

  The build tool turns the ELF file of the kernel into a Mach-O file, and the
  loader places what that file says.  `Loaded` is what an ELF file means: the
  bytes of its segments at their addresses, and zeros behind them.  Through the
  whole chain that meaning is kept (`boot_loads_elf`).
-/

import XnuRs.Boot.JumpMemory
import XnuRs.Xtask.ConvertResults

namespace XnuRs.Boot

open XnuRs.Loader XnuRs.Macho XnuRs.Xtask

/-! ## ELF files -/

/-- The memory ranges of two program headers share no byte. -/
def HeadersApart (h h' : ProgramHeader) : Prop :=
  ∀ a, ¬ ((h.pVaddr.toNat ≤ a ∧ a < h.pVaddr.toNat + h.pMemsz.toNat) ∧
    (h'.pVaddr.toNat ≤ a ∧ a < h'.pVaddr.toNat + h'.pMemsz.toNat))

/-- The segments of an ELF file do not overlap, and no segment has more bytes in the file than
    in memory. -/
structure WellFormed (elf : Elf) : Prop where
  fits : ∀ h ∈ elf.loadable, h.pFilesz ≤ h.pMemsz
  apart : elf.loadable.Pairwise HeadersApart

/-- The segments of an ELF file are in memory. -/
def Loaded (elfBytes : List UInt8) (elf : Elf) (m : Memory) : Prop :=
  ∀ h ∈ elf.loadable,
    (∀ k < h.pFilesz.toNat,
      elfBytes[h.pOffset.toNat + k]? = some (m (h.pVaddr.toNat + k))) ∧
    ∀ k, h.pFilesz.toNat ≤ k → k < h.pMemsz.toNat → m (h.pVaddr.toNat + k) = 0

/-! ## Lists in step -/

section

variable {α β : Type} {R : α → β → Prop} {l : List α} {l' : List β}

theorem exists_of_forall₂ (h : List.Forall₂ R l l') {a : α} (ha : a ∈ l) : ∃ b ∈ l', R a b := by
  induction h with
  | nil => cases ha
  | cons hhead _ ih =>
      rcases List.mem_cons.mp ha with rfl | ha
      · exact ⟨_, List.mem_cons_self .., hhead⟩
      · obtain ⟨b, hb, hab⟩ := ih ha
        exact ⟨b, List.mem_cons_of_mem _ hb, hab⟩

/-- What holds of each two elements of one list carries over to the other one. -/
theorem pairwise_of_forall₂ {P : α → α → Prop} {Q : β → β → Prop}
    (hPQ : ∀ {a b a' b'}, R a b → R a' b' → Q b b' → P a a')
    (h : List.Forall₂ R l l') (hQ : l'.Pairwise Q) : l.Pairwise P := by
  induction h with
  | nil => exact .nil
  | cons hhead hrest ih =>
      obtain ⟨hfirst, hpairs⟩ := List.pairwise_cons.mp hQ
      refine List.pairwise_cons.mpr ⟨fun a ha => ?_, ih hpairs⟩
      obtain ⟨b, hb, hab⟩ := exists_of_forall₂ hrest ha
      exact hPQ hhead hab (hfirst b hb)

end

/-! ## The Mach-O file of an ELF file -/

variable {elfBytes : List UInt8} {elf : Elf} {entryoff : UInt64}

/-- The segment that a parser of the format finds for a program header. -/
structure Stands (elfBytes : List UInt8) (s : Segment) (h : ProgramHeader) : Prop where
  vmaddr : s.vmaddr = h.pVaddr
  vmsize : s.vmsize = h.pMemsz
  filesize : s.filesize = h.pFilesz
  data : s.data = h.fileBytes elfBytes

theorem Carries.stands {out : List UInt8} {s : SegmentCommand} {h : ProgramHeader}
    (hcarries : Carries elfBytes out s h) : Stands elfBytes (s.segment out) h where
  vmaddr := by
    show UInt64.ofNat s.vmaddr = h.pVaddr
    rw [hcarries.vmaddr, UInt64.ofNat_toNat]
  vmsize := by
    show UInt64.ofNat s.vmsize = h.pMemsz
    rw [hcarries.vmsize, UInt64.ofNat_toNat]
  filesize := by
    show UInt64.ofNat s.filesize = h.pFilesz
    rw [hcarries.filesize, UInt64.ofNat_toNat]
  data := hcarries.bytes

/-- The entry that a reader of the output computes, when it agrees with the converter on where
    the text is. -/
theorem entryAddress_of_agree (h : Converts elfBytes elf entryoff) (hagree : elf.AnchorsAgree) :
    (fileOf elf entryoff).entryAddress = some (elf.entry.toNat : Int) := by
  have husize : isizeMax ≤ usizeMax := by decide
  have hmax : dataEnd (dataStart elf.loadable.length) elf.loadable ≤ usizeMax :=
    Nat.le_trans h.size husize
  obtain ⟨vmaddr, fileoff, htext, hentry⟩ := h.entry
  have hlast := lastText_anchor htext
  rw [elf.layout_anchors hmax] at hlast
  rw [entryAddress_fileOf hmax, hagree, hlast]
  simp only [Option.map_some, Option.some.injEq]
  omega

/-- The parsed output. -/
theorem parse_machoOf (h : Converts elfBytes elf entryoff) :
    ∃ macho, Macho.parse (machoOf elfBytes elf entryoff) = some macho ∧
      List.Forall₂ (Stands elfBytes) macho.segments elf.loadable ∧
      (elf.AnchorsAgree → macho.entry = elf.entry) := by
  have hread : Macho.read (machoOf elfBytes elf entryoff) = some (fileOf elf entryoff) :=
    read_machoOf h.commands
  refine ⟨_, by rw [Macho.parse, hread]; rfl, ?_, fun hagree => ?_⟩
  · rw [fileOf_segments]
    exact List.forall₂_map_left_iff.mpr ((machoOf_carries h).1.imp fun _ _ => Carries.stands)
  · show UInt64.ofNat ((fileOf elf entryoff).entryAddress.getD 0).toNat = elf.entry
    rw [entryAddress_of_agree h hagree, Option.getD_some, Int.toNat_natCast, UInt64.ofNat_toNat]

/-! ## The segments of a well-formed file -/

section Parsed

variable {segments : List Segment} (hstands : List.Forall₂ (Stands elfBytes) segments elf.loadable)
include hstands

theorem data_length (hfile : ∀ h ∈ elf.loadable, h.InFile elfBytes) :
    ∀ s ∈ segments, s.data.length = s.filesize.toNat := by
  intro s hs
  obtain ⟨h, hmem, hs⟩ := exists_of_forall₂ hstands hs
  rw [hs.data, hs.filesize, (hfile h hmem).length]

theorem data_fits (hwf : WellFormed elf) : ∀ s ∈ segments, s.filesize ≤ s.vmsize := by
  intro s hs
  obtain ⟨h, hmem, hs⟩ := exists_of_forall₂ hstands hs
  rw [hs.filesize, hs.vmsize]
  exact hwf.fits h hmem

theorem segments_apart (hwf : WellFormed elf) : segments.Pairwise Apart := by
  refine pairwise_of_forall₂ ?_ hstands hwf.apart
  rintro s h s' h' hs hs' hapart a ⟨⟨hle, hlt⟩, hle', hlt'⟩
  rw [stopOf] at hlt hlt'
  rw [hs.vmaddr] at hle hlt
  rw [hs'.vmaddr] at hle' hlt'
  rw [hs.vmsize] at hlt
  rw [hs'.vmsize] at hlt'
  exact hapart a ⟨⟨hle, hlt⟩, hle', hlt'⟩

end Parsed

/-- What the image holds at the address of a program header: its bytes of the file, then
    zeros. -/
theorem imageMemory_header {sort : SortByStart} {firmware : Firmware} {macho : MachO}
    (hstands : List.Forall₂ (Stands elfBytes) macho.segments elf.loadable)
    (hfile : ∀ h ∈ elf.loadable, h.InFile elfBytes) (hwf : WellFormed elf)
    (hplaced : (allocateLoadRanges sort firmware macho).result = .ok ()) (m : Memory)
    {h : ProgramHeader} (hmem : h ∈ elf.loadable) {k : Nat} (hk : k < h.pMemsz.toNat) :
    InPages macho.segments (h.pVaddr.toNat + k) ∧
      imageMemory sort firmware macho m (h.pVaddr.toNat + k) =
        ((h.fileBytes elfBytes)[k]?).getD 0 := by
  obtain ⟨s, hs, hstand⟩ := exists_of_forall₂ hstands.flip hmem
  have hin : InSegment s (h.pVaddr.toNat + k) := by
    refine ⟨?_, ?_⟩
    · rw [hstand.vmaddr]
      omega
    · rw [stopOf, hstand.vmaddr, hstand.vmsize]
      omega
  have hpages := inPages_of_inSegment hs hin
  have hlength := data_length hstands hfile
  have hwritten := writtenAt_of_apart hlength (data_fits hstands hwf) (segments_apart hstands hwf)
    hs (k := k) (by rwa [hstand.vmsize])
  rw [hstand.vmaddr, hstand.data] at hwritten
  refine ⟨hpages, ?_⟩
  rw [imageMemory_inside hlength hplaced m hpages, hwritten]
  cases (h.fileBytes elfBytes)[k]? <;> rfl

/-! ## The boot chain -/

variable {env : Environment} {macho : MachO} {handOff : KernelHandOff} {args : BootArgs}

/-- **The boot chain keeps the meaning of the kernel's ELF file.**  The build tool converts the
    file, the loader reads and places what it finds, and at the jump the segments of the ELF
    file are in memory, below the end of the kernel that the boot arguments name; the jump goes
    to the entry of the ELF file where converter and reader agree on the text. -/
theorem boot_loads_elf {out : List UInt8} (hconvert : convertElfToMacho elfBytes elf = .ok out)
    (hwf : WellFormed elf) (hfile : env.kernelFile = some out)
    (hparser : env.machoParse out = Macho.parse out)
    (hloaded : (loadAndJumpToKernel env).result = .ok (handOff, args))
    (hkernel : kernelOf env = some macho)
    (hplaced : PlacedApart env macho (liveRegions handOff args)) (pad : Nat → UInt8) (m : Memory) :
    Loaded elfBytes elf (jumpMemory pad env m) ∧
      (∀ h ∈ elf.loadable,
        h.pVaddr.toNat + h.pMemsz.toNat ≤ args.topOfKernelData.toNat) ∧
      (elf.AnchorsAgree → handOff.entry = elf.entry) := by
  obtain ⟨macho', h⟩ := loadAndJumpToKernel_ok.mp hloaded
  obtain rfl : macho' = macho := Option.some.inj (h.kernel.symm.trans hkernel)
  obtain ⟨entryoff, hconverts, rfl⟩ := convertElfToMacho_eq_ok.mp hconvert
  obtain ⟨parsed, hparse, hstands, hentry⟩ := parse_machoOf hconverts
  have hsame : kernelOf env = some parsed := by
    rw [kernelOf, hfile, Option.bind_some, hparser, hparse]
  obtain rfl : parsed = macho' := Option.some.inj (hsame.symm.trans h.kernel)
  -- what stands behind the image leaves its pages alone
  have hbyte : ∀ header ∈ elf.loadable, ∀ k < header.pMemsz.toNat,
      jumpMemory pad env m (header.pVaddr.toNat + k) =
        ((header.fileBytes elfBytes)[k]?).getD 0 := by
    intro header hmem k hk
    obtain ⟨hpages, himage⟩ :=
      imageMemory_header hstands hconverts.inFile hwf h.placed m hmem hk
    obtain ⟨htree, hargs⟩ := image_apart hplaced h.placed hpages
    rw [jumpMemory_outside h m htree hargs, himage]
  refine ⟨fun header hmem => ⟨fun k hk => ?_, fun k hle hlt => ?_⟩, fun header hmem => ?_,
    fun hagree => h.entry.trans (hentry hagree)⟩
  · have hfits := UInt64.le_iff_toNat_le.mp (hwf.fits header hmem)
    have hlen := (hconverts.inFile header hmem).length
    have hin : k < (header.fileBytes elfBytes).length := by omega
    rw [hbyte header hmem k (by omega), List.getElem?_eq_getElem hin, Option.getD_some,
      ← List.getElem?_eq_getElem hin, ProgramHeader.fileBytes, List.getElem?_take_of_lt hk,
      List.getElem?_drop]
  · have hlen := (hconverts.inFile header hmem).length
    rw [hbyte header hmem k hlt, List.getElem?_eq_none (by omega), Option.getD_none]
  · obtain ⟨s, hs, hstand⟩ := exists_of_forall₂ hstands.flip hmem
    have htop := (kernelTopLoop_spec h.top).2 s hs
    rwa [stopOf, hstand.vmaddr, hstand.vmsize] at htop

/-! ## A linked kernel -/

/-- One executable segment of four bytes of the file and sixteen of memory. -/
def linkedElf : Elf := ⟨0x40000000, [⟨1, 5, 0, 0x40000000, 4, 16⟩]⟩

theorem linkedElf_converts : Converts [1, 2, 3, 4] linkedElf 0x1000 where
  nonempty := by decide
  commands := by decide
  size := by decide
  entry := ⟨0x40000000, 0x1000, by decide, by decide⟩
  inFile := by decide

/-- A machine with that kernel on its disk. -/
def linkedMachine (stack : UInt64) : Environment :=
  { machine stack with kernelFile := some (machoOf [1, 2, 3, 4] linkedElf 0x1000) }

/-- The loader gets as far there as on the machine with another kernel of that size. -/
theorem LowStack.linked {stack stackTop : UInt64} (h : LowStack stack stackTop) :
    ∃ macho, HandedOver (linkedMachine stack) macho ⟨0x40000000, 0x47fff000, stackTop⟩ machineArgs ∧
      PlacedApart (linkedMachine stack) macho
        (liveRegions ⟨0x40000000, 0x47fff000, stackTop⟩ machineArgs) := by
  obtain ⟨macho, hparse, hstands, hentry⟩ := parse_machoOf linkedElf_converts
  obtain ⟨s, rest, hs, hrest, hsegments⟩ := List.forall₂_cons_right_iff.mp hstands
  rw [List.forall₂_nil_right_iff.mp hrest] at hsegments
  have hpage : ∀ segment ∈ macho.segments,
      segment.vmaddr = 0x40000000 ∧ segment.vmsize = 16 := by
    intro segment hmem
    rw [hsegments, List.mem_singleton] at hmem
    rw [hmem]
    exact ⟨hs.vmaddr, hs.vmsize⟩
  have hplaced : (allocateLoadRanges (linkedMachine stack).sort (linkedMachine stack).firmware
      macho).result = .ok () := by
    refine allocateLoadRanges_ok (fun segment hmem _ => ?_) fun _ _ => rfl
    rw [stopOf, (hpage segment hmem).1, (hpage segment hmem).2]
    decide
  refine ⟨macho, ?_, ?_⟩
  · exact
      { h.handedOver with
        kernel := by
          rw [kernelOf, linkedMachine, Option.bind_some]
          exact hparse
        placed := hplaced
        top := by
          rw [kernelTop, hsegments, kernelTopLoop, hs.vmaddr, hs.vmsize]
          decide
        entry := (hentry (by decide)).symm }
  · refine { h.placedApart with image := fun r hr a ha hallocated => ?_ }
    -- the one segment takes the page of the other kernel's
    refine h.placedApart.image r hr a ha ((allocated_iff (machine_placed stack)).mpr ?_)
    obtain ⟨segment, hmem, -, hle, hlt⟩ := (allocated_iff hplaced).mp hallocated
    rw [(hpage segment hmem).1] at hle
    rw [stopOf, (hpage segment hmem).1, (hpage segment hmem).2] at hlt
    exact ⟨_, List.mem_cons_self .., by decide, hle, hlt⟩

/-- Behind the four bytes of its file, the linked kernel is zero when it is entered. -/
theorem boot_loads_elf_linked :
    Loaded [1, 2, 3, 4] linkedElf
      (jumpMemory (fun _ => 0xcc) (linkedMachine 0x47000000) fun _ => 0xff) := by
  have hlow : LowStack 0x47000000 0x47010000 := ⟨by decide, by decide, by decide, by decide⟩
  obtain ⟨macho, hhanded, hplaced⟩ := hlow.linked
  have hwf : WellFormed linkedElf := ⟨by decide, List.pairwise_singleton ..⟩
  have hparser : (linkedMachine 0x47000000).machoParse = Macho.parse := rfl
  exact (boot_loads_elf (convertElfToMacho_eq_ok.mpr ⟨0x1000, linkedElf_converts, rfl⟩) hwf rfl
    (congrFun hparser _) (loadAndJumpToKernel_ok.mpr ⟨macho, hhanded⟩) hhanded.kernel hplaced _ _).1

end XnuRs.Boot
