/-
  XnuRs.Loader.ImageResults

  The memory image the loader leaves (`load_places_image`), and when its copies
  stay inside the memory it allocated and synchronised (`copies_inside_iff`).

  Allocation zeroes the pages of all segments before the first copy, so a byte of
  those pages holds what the last copy over it wrote, and zero when there is none
  (`imageMemory_eq`).
-/

import XnuRs.Loader.ImageFacts

namespace XnuRs.Loader

open XnuRs.Macho

variable {sort : SortByStart} {firmware : Firmware} {macho : MachO}

/-! ## The memory the two passes leave -/

/-- The memory after `allocate_load_ranges` and `load_segments`. -/
def imageMemory (sort : SortByStart) (firmware : Firmware) (macho : MachO) (m : Memory) : Memory :=
  m.run (memOps ((allocateLoadRanges sort firmware macho).log ++ (loadSegments macho).log))

/-- The bytes the segments put at the address `a`, in file order. -/
def writtenAt (segments : List Segment) (a : Nat) : List UInt8 :=
  segments.filterMap fun segment => (MemOp.copy segment.vmaddr.toNat segment.data).byteAt a

/-- A segment that `load_segments` skips has no data to write. -/
theorem filterMap_memOps_loadSegments (hdata : macho.DataExact) (a : Nat) :
    (memOps (loadSegments macho).log).filterMap (·.byteAt a) = writtenAt macho.segments a := by
  rw [memOps_loadSegments, List.filterMap_map, List.filterMap_filter, writtenAt]
  apply List.filterMap_congr
  intro segment hmem
  by_cases hzero : segment.filesize = 0
  · have hnil : segment.data.length = 0 := by rw [hdata segment hmem, hzero, UInt64.toNat_zero]
    have hskip : (MemOp.copy segment.vmaddr.toNat segment.data).byteAt a = none := by
      rw [MemOp.byteAt_copy_eq_none]
      omega
    simp [hzero, hskip]
  · simp [hzero]

/-- Allocation leaves the pages of the segments zero. -/
theorem run_allocate_inside (h : (allocateLoadRanges sort firmware macho).result = .ok ())
    (m : Memory) {a : Nat} (hin : InPages macho.segments a) :
    m.run (memOps (allocateLoadRanges sort firmware macho).log) a = 0 := by
  obtain ⟨hfill, htouched⟩ := memOps_allocate h a
  obtain ⟨op, hop, hbyte⟩ := htouched.mp hin
  rw [Memory.run_eq]
  -- the last write exists, and like every other one it is a zero
  cases hlast : ((memOps (allocateLoadRanges sort firmware macho).log).filterMap
      (·.byteAt a)).getLast? with
  | none =>
      rw [List.getLast?_eq_none_iff, List.filterMap_eq_nil_iff] at hlast
      rw [hlast op hop] at hbyte
      cases hbyte
  | some byte =>
      obtain ⟨op', hop', hbyte'⟩ := List.mem_filterMap.mp (List.mem_of_getLast? hlast)
      obtain ⟨start, len, hzero⟩ := hfill op' hop'
      rw [hzero, MemOp.byteAt_fill] at hbyte'
      exact hbyte'.2.symm

/-- Allocation leaves every other byte. -/
theorem run_allocate_outside (h : (allocateLoadRanges sort firmware macho).result = .ok ())
    (m : Memory) {a : Nat} (hout : ¬ InPages macho.segments a) :
    m.run (memOps (allocateLoadRanges sort firmware macho).log) a = m a := by
  obtain ⟨hfill, htouched⟩ := memOps_allocate h a
  apply Memory.run_of_untouched
  intro op hop
  cases hbyte : op.byteAt a with
  | none => rfl
  | some byte =>
      obtain ⟨start, len, hzero⟩ := hfill op hop
      have hbyte' := hbyte
      rw [hzero, MemOp.byteAt_fill] at hbyte'
      rw [← hbyte'.2] at hbyte
      exact absurd (htouched.mpr ⟨op, hop, hbyte⟩) hout

/-- The last copy over a byte decides it. -/
theorem imageMemory_eq (hdata : macho.DataExact) (m : Memory) (a : Nat) :
    imageMemory sort firmware macho m a = ((writtenAt macho.segments a).getLast?).getD
      (m.run (memOps (allocateLoadRanges sort firmware macho).log) a) := by
  rw [imageMemory, memOps_append, Memory.run_append, Memory.run_eq,
    filterMap_memOps_loadSegments hdata]

/-- In the pages of the segments, zero stands where no copy writes. -/
theorem imageMemory_inside (hdata : macho.DataExact)
    (h : (allocateLoadRanges sort firmware macho).result = .ok ()) (m : Memory) {a : Nat}
    (hin : InPages macho.segments a) :
    imageMemory sort firmware macho m a = ((writtenAt macho.segments a).getLast?).getD 0 := by
  rw [imageMemory_eq hdata, run_allocate_inside h m hin]

/-! ## Segments that do not overlap -/

/-- `a` lies in the memory range of the segment. -/
def InSegment (segment : Segment) (a : Nat) : Prop :=
  segment.vmaddr.toNat ≤ a ∧ a < stopOf segment

/-- The memory ranges of two segments share no byte. -/
def Apart (s t : Segment) : Prop := ∀ a, ¬ (InSegment s a ∧ InSegment t a)

/-- Each segment's data fits its memory range. -/
def DataFits (macho : MachO) : Prop := ∀ segment ∈ macho.segments, segment.filesize ≤ segment.vmsize

instance (macho : MachO) : Decidable (DataFits macho) :=
  inferInstanceAs (Decidable (∀ segment ∈ macho.segments, _))

theorem inPages_of_inSegment {segments : List Segment} {segment : Segment} {a : Nat}
    (hmem : segment ∈ segments) (hin : InSegment segment a) : InPages segments a := by
  obtain ⟨hle, hlt⟩ := hin
  have hsize : segment.vmsize ≠ 0 := by
    intro hzero
    unfold stopOf at hlt
    rw [hzero, UInt64.toNat_zero] at hlt
    omega
  have hdown := roundDown_le segment.vmaddr.toNat 4096
  have hup := le_roundUp (n := stopOf segment) (a := 4096) (by decide)
  exact ⟨segment, hmem, hsize, by omega, by omega⟩

/-- Data that fits is written inside the memory range only. -/
theorem byteAt_eq_none_of_outside {segment : Segment} {a : Nat}
    (hdata : segment.data.length = segment.filesize.toNat)
    (hfits : segment.filesize ≤ segment.vmsize) (hout : ¬ InSegment segment a) :
    (MemOp.copy segment.vmaddr.toNat segment.data).byteAt a = none := by
  have hle := UInt64.le_iff_toNat_le.mp hfits
  rw [MemOp.byteAt_copy_eq_none]
  intro hin
  apply hout
  unfold InSegment stopOf
  omega

/-- A byte of one segment is written by that segment alone. -/
theorem writtenAt_of_apart {segments : List Segment}
    (hdata : ∀ segment ∈ segments, segment.data.length = segment.filesize.toNat)
    (hfits : ∀ segment ∈ segments, segment.filesize ≤ segment.vmsize)
    (hapart : segments.Pairwise Apart) {segment : Segment} (hmem : segment ∈ segments) {k : Nat}
    (hk : k < segment.vmsize.toNat) :
    writtenAt segments (segment.vmaddr.toNat + k) = (segment.data[k]?).toList := by
  have hin : InSegment segment (segment.vmaddr.toNat + k) := ⟨by omega, by unfold stopOf; omega⟩
  induction segments with
  | nil => cases hmem
  | cons head rest ih =>
      obtain ⟨hhead, hrest⟩ := List.pairwise_cons.mp hapart
      obtain ⟨hdatahead, hdatarest⟩ := List.forall_mem_cons.mp hdata
      obtain ⟨hfitshead, hfitsrest⟩ := List.forall_mem_cons.mp hfits
      rw [writtenAt, List.filterMap_cons, ← writtenAt]
      -- the address is in one segment, so no other one writes there
      rcases List.mem_cons.mp hmem with heq | hmem'
      · subst heq
        have hnone : writtenAt rest (segment.vmaddr.toNat + k) = [] := by
          rw [writtenAt, List.filterMap_eq_nil_iff]
          intro other hother
          apply byteAt_eq_none_of_outside (hdatarest other hother) (hfitsrest other hother)
          intro hother'
          exact hhead other hother _ ⟨hin, hother'⟩
        rw [MemOp.byteAt_copy_add, hnone]
        cases segment.data[k]? <;> rfl
      · have hnone := byteAt_eq_none_of_outside hdatahead hfitshead fun hhead' =>
          hhead segment hmem' _ ⟨hhead', hin⟩
        rw [hnone]
        exact ih hdatarest hfitsrest hrest hmem'

/-- **The loader places the image.**  Where the segments' memory ranges share no byte
    and each segment's data fits its range, the bytes of a segment are its data and
    then zeros, the rest of the allocated pages is zero, and no other byte changes. -/
theorem load_places_image (hdata : macho.DataExact) (hfits : DataFits macho)
    (hapart : macho.segments.Pairwise Apart)
    (h : (allocateLoadRanges sort firmware macho).result = .ok ()) (m : Memory) :
    (∀ segment ∈ macho.segments,
      (∀ k < segment.filesize.toNat,
        segment.data[k]? = some (imageMemory sort firmware macho m (segment.vmaddr.toNat + k))) ∧
      ∀ k, segment.filesize.toNat ≤ k → k < segment.vmsize.toNat →
        imageMemory sort firmware macho m (segment.vmaddr.toNat + k) = 0) ∧
    (∀ a, Allocated (allocateLoadRanges sort firmware macho).log a →
      (∀ segment ∈ macho.segments, ¬ InSegment segment a) →
        imageMemory sort firmware macho m a = 0) ∧
    ∀ a, ¬ Allocated (allocateLoadRanges sort firmware macho).log a →
      imageMemory sort firmware macho m a = m a := by
  -- a byte of a segment is its data, and zero behind the data
  have hinside : ∀ segment ∈ macho.segments, ∀ k < segment.vmsize.toNat,
      imageMemory sort firmware macho m (segment.vmaddr.toNat + k) = (segment.data[k]?).getD 0 := by
    intro segment hmem k hk
    have hin : InSegment segment (segment.vmaddr.toNat + k) := ⟨by omega, by unfold stopOf; omega⟩
    rw [imageMemory_inside hdata h m (inPages_of_inSegment hmem hin),
      writtenAt_of_apart hdata hfits hapart hmem hk]
    cases segment.data[k]? <;> rfl
  -- outside all segments nothing is copied
  have hnone : ∀ a, (∀ segment ∈ macho.segments, ¬ InSegment segment a) →
      writtenAt macho.segments a = [] := by
    intro a hout
    rw [writtenAt, List.filterMap_eq_nil_iff]
    intro segment hmem
    exact byteAt_eq_none_of_outside (hdata segment hmem) (hfits segment hmem) (hout segment hmem)
  refine ⟨?_, ?_, ?_⟩
  · intro segment hmem
    have hle := UInt64.le_iff_toNat_le.mp (hfits segment hmem)
    have hlen := hdata segment hmem
    refine ⟨?_, ?_⟩
    · intro k hk
      have hk' : k < segment.data.length := by omega
      rw [hinside segment hmem k (by omega), List.getElem?_eq_getElem hk', Option.getD_some]
    · intro k hk hlt
      rw [hinside segment hmem k hlt, List.getElem?_eq_none (by omega), Option.getD_none]
  · intro a halloc hout
    rw [imageMemory_inside hdata h m ((allocated_iff h).mp halloc), hnone a hout]
    rfl
  · intro a halloc
    have hpages : ¬ InPages macho.segments a := fun hin => halloc ((allocated_iff h).mpr hin)
    have hout : ∀ segment ∈ macho.segments, ¬ InSegment segment a :=
      fun segment hmem hin => hpages (inPages_of_inSegment hmem hin)
    rw [imageMemory_eq hdata, hnone a hout, run_allocate_outside h m hpages]
    rfl

/-- A firmware that grants every request it is asked for. -/
def grantingFirmware : Firmware where
  allocateAt _ _ := .ok ()
  allocateAny _ _ := .ok 0x10000000

/-- Two segments of one page, the higher one first. -/
def sharedPage : MachO where
  segments := [
    { segname := [], vmaddr := 0x40000010, vmsize := 8, fileoff := 0, filesize := 2, data := [1, 2] },
    { segname := [], vmaddr := 0x40000000, vmsize := 4, fileoff := 2, filesize := 4,
      data := [3, 4, 5, 6] }]
  loadCommands := []
  entry := 0x40000000

theorem sharedPage_apart : sharedPage.segments.Pairwise Apart := by
  refine List.pairwise_pair.mpr ?_
  rintro a ⟨⟨hle, -⟩, ⟨-, hlt⟩⟩
  exact absurd (hle.trans_lt hlt) (by decide)

theorem sharedPage_allocated :
    (allocateLoadRanges insertionSortByStart grantingFirmware sharedPage).result = .ok () := by
  decide

/-- The second byte of the lower segment is data; behind the data of the higher one stand
    zeros. -/
theorem load_places_image_sharedPage :
    imageMemory insertionSortByStart grantingFirmware sharedPage (fun _ => 0xff) 0x40000001 = 4 ∧
      imageMemory insertionSortByStart grantingFirmware sharedPage (fun _ => 0xff) 0x40000012 = 0 := by
  have hplaced := (load_places_image (by decide) (by decide) sharedPage_apart sharedPage_allocated
    fun _ => 0xff).1
  obtain ⟨hhigh, hlow, -⟩ := List.forall_mem_cons.mp hplaced |>.imp id List.forall_mem_cons.mp
  exact ⟨(Option.some.inj (hlow.1 1 (by decide))).symm, hhigh.2 2 (by decide) (by decide)⟩

/-! ## Copies inside what is allocated and synchronised -/

/-- A copy wrote the byte at `a`. -/
def Copied (log : List LoadOp) (a : Nat) : Prop :=
  ∃ start bytes, .mem (.copy start bytes) ∈ log ∧ start ≤ a ∧ a < start + bytes.length

/-- What `load_segments` writes is the segments' data. -/
theorem copied_iff (hdata : macho.DataExact) {a : Nat} :
    Copied (loadSegments macho).log a ↔ ∃ segment ∈ macho.segments,
      segment.vmaddr.toNat ≤ a ∧ a < segment.vmaddr.toNat + segment.data.length := by
  rw [loadSegments_log]
  constructor
  · rintro ⟨start, bytes, hmem, hle, hlt⟩
    obtain ⟨segment, hsegment, hop⟩ := List.mem_map.mp hmem
    obtain ⟨hstart, hbytes⟩ := MemOp.copy.inj (LoadOp.mem.inj hop)
    subst hstart hbytes
    exact ⟨segment, (List.mem_filter.mp hsegment).1, hle, hlt⟩
  · rintro ⟨segment, hmem, hle, hlt⟩
    have hlen := hdata segment hmem
    have hsize : segment.filesize ≠ 0 := by
      intro hzero
      rw [hzero, UInt64.toNat_zero] at hlen
      omega
    refine ⟨segment.vmaddr.toNat, segment.data, List.mem_map.mpr ⟨segment, ?_, rfl⟩, hle, hlt⟩
    exact List.mem_filter.mpr ⟨hmem, by simpa using hsize⟩

/-- Every byte of file data behind the memory range of its segment lies on a cache line
    of some segment that takes memory. -/
def ExcessOnLines (macho : MachO) : Prop :=
  ∀ segment ∈ macho.segments, ∀ a, stopOf segment ≤ a →
    a < segment.vmaddr.toNat + segment.filesize.toNat →
      ∃ other ∈ macho.segments, other.vmsize ≠ 0 ∧ OnLineOf other a

theorem excessOnLines_of_dataFits (hfits : DataFits macho) : ExcessOnLines macho := by
  intro segment hmem a hle hlt
  have hsize := UInt64.le_iff_toNat_le.mp (hfits segment hmem)
  unfold stopOf at hle
  omega

/-- A line of a segment lies in its pages. -/
theorem inPages_of_onLineOf {segments : List Segment} {segment : Segment} {a : Nat}
    (hmem : segment ∈ segments) (hsize : segment.vmsize ≠ 0) (hon : OnLineOf segment a) :
    InPages segments a := by
  obtain ⟨hle, hlt⟩ := hon
  have hup := le_roundUp (n := stopOf segment) (a := 4096) (by decide)
  have hmod := roundUp_mod (stopOf segment) 4096
  refine ⟨segment, hmem, hsize, ?_, ?_⟩
  · unfold roundDown at hle ⊢
    omega
  · unfold roundDown at hlt
    omega

theorem onLineOf_of_inSegment {segment : Segment} {a : Nat} (hin : InSegment segment a) :
    OnLineOf segment a := by
  obtain ⟨hle, hlt⟩ := hin
  have hdown := roundDown_le segment.vmaddr.toNat 64
  have hdown' := roundDown_le a 64
  exact ⟨by omega, by omega⟩

/-- **When the copies stay inside.**  Every byte `load_segments` writes is allocated,
    zeroed, cleaned and invalidated exactly when no segment's data runs behind its
    memory range onto a cache line of no segment. -/
theorem copies_inside_iff (hdata : macho.DataExact)
    (h : (allocateLoadRanges sort firmware macho).result = .ok ()) :
    (∀ a, Copied (loadSegments macho).log a →
      Allocated (allocateLoadRanges sort firmware macho).log a ∧
      Zeroed (allocateLoadRanges sort firmware macho).log a ∧
      Cleaned (syncLoadedImage macho).log a ∧ Invalidated (syncLoadedImage macho).log a) ↔
        ExcessOnLines macho := by
  have hstop : ∀ segment ∈ macho.segments, segment.vmsize ≠ 0 → stopOf segment < 2 ^ 64 := by
    intro segment hmem hsize
    exact (le_roundUp (by decide)).trans_lt (stopOf_lt h hmem hsize)
  simp only [allocated_iff h, zeroed_iff h, invalidated_iff_cleaned, cleaned_iff hstop,
    copied_iff hdata]
  constructor
  · intro hinside segment hmem a hle hlt
    have hlen := hdata segment hmem
    have hstart : segment.vmaddr.toNat ≤ a := (Nat.le_add_right ..).trans hle
    exact (hinside a ⟨segment, hmem, hstart, by omega⟩).2.2.1
  · rintro hexcess a ⟨segment, hmem, hle, hlt⟩
    have hlen := hdata segment hmem
    -- every copied byte is on a line that some segment has cleaned
    have hline : ∃ other ∈ macho.segments, other.vmsize ≠ 0 ∧ OnLineOf other a := by
      by_cases hin : a < stopOf segment
      · -- inside the memory range the segment's own lines serve
        refine ⟨segment, hmem, ?_, onLineOf_of_inSegment ⟨hle, hin⟩⟩
        intro hzero
        rw [stopOf, hzero, UInt64.toNat_zero] at hin
        omega
      · exact hexcess segment hmem a (Nat.le_of_not_lt hin) (by omega)
    have hpages : InPages macho.segments a := by
      obtain ⟨other, hother, hsize, hon⟩ := hline
      exact inPages_of_onLineOf hother hsize hon
    exact ⟨hpages, hpages, hline, hline⟩

/-- The data of the two segments fits, so its second byte is written to allocated memory. -/
theorem copies_inside_iff_sharedPage :
    Allocated (allocateLoadRanges insertionSortByStart grantingFirmware sharedPage).log
      0x40000011 := by
  have hinside := (copies_inside_iff (by decide) sharedPage_allocated).mpr
    (excessOnLines_of_dataFits (by decide))
  have hcopied : Copied (loadSegments sharedPage).log 0x40000011 :=
    (copied_iff (by decide)).mpr ⟨_, List.mem_cons_self .., by decide, by decide⟩
  exact (hinside _ hcopied).1

/-- One segment whose data is a byte longer than its memory range, which ends at a page
    boundary. -/
def longData : MachO where
  segments := [
    { segname := [], vmaddr := 0x40000ff0, vmsize := 0x10, fileoff := 0, filesize := 0x11,
      data := List.replicate 0x11 0xff }]
  loadCommands := []
  entry := 0x40000ff0

theorem longData_allocated :
    (allocateLoadRanges insertionSortByStart grantingFirmware longData).result = .ok () := by
  decide

/-- The byte at `0x40001000` is written and no page of it was ever asked for. -/
theorem longData_outside :
    ¬ ∀ (sort : SortByStart) (firmware : Firmware) (macho : MachO), macho.DataExact →
      (allocateLoadRanges sort firmware macho).result = .ok () →
        ∀ a, Copied (loadSegments macho).log a →
          Allocated (allocateLoadRanges sort firmware macho).log a ∧
          Zeroed (allocateLoadRanges sort firmware macho).log a ∧
          Cleaned (syncLoadedImage macho).log a ∧ Invalidated (syncLoadedImage macho).log a := by
  intro hall
  have hcopied : Copied (loadSegments longData).log 0x40001000 :=
    (copied_iff (by decide)).mpr ⟨_, List.mem_singleton_self .., by decide, by decide⟩
  have hin := hall insertionSortByStart grantingFirmware longData (by decide) longData_allocated
    0x40001000 hcopied
  obtain ⟨segment, hmem, -, -, hlt⟩ := (allocated_iff longData_allocated).mp hin.1
  rw [List.mem_singleton.mp hmem] at hlt
  exact absurd hlt (by decide)

end XnuRs.Loader
