/-
  XnuRs.Macho.LoadersAgree

  The two loaders of the repository leave the same image (`loaders_agree`).

  The UEFI loader zeroes pages and copies in place, the kernel zeroes one span
  and copies to a moved address.  Over a byte of a segment both write the same
  bytes in the same order, so the last write is the same one.
-/

import XnuRs.Kernel.Exec.LoaderResults
import XnuRs.Loader.ImageResults

namespace XnuRs.Macho

open XnuRs.Loader (InSegment DataFits SortByStart Firmware allocateLoadRanges imageMemory writtenAt
  stopOf)
open XnuRs.Kernel.Exec (UserImage dstOf copied kept mem_kept loadAndRun memOps_loadAndRun)

variable {machoParse : List UInt8 → Option MachO} {bytes : List UInt8} {macho : MachO}
  {image : UserImage} {loadBase : UInt64}

/-- The memory after the kernel's `load_and_run`. -/
def userMemory (machoParse : List UInt8 → Option MachO) (bytes : List UInt8) (loadBase : UInt64)
    (m : Memory) : Memory :=
  m.run (Kernel.Exec.memOps (loadAndRun machoParse bytes loadBase).log)

/-- The address the kernel moves `va` to. -/
def moved (image : UserImage) (loadBase : UInt64) (va : Nat) : Nat :=
  loadBase.toNat + (va - image.linkBase.toNat)

/-- Data that fits its segment is copied whole. -/
theorem copied_of_fits {segment : Segment} (hlen : segment.data.length = segment.filesize.toNat)
    (hfits : segment.filesize ≤ segment.vmsize) : copied (.of segment) = segment.data := by
  have hle := UInt64.le_iff_toNat_le.mp hfits
  apply List.take_of_length_le
  show segment.data.length ≤ min segment.data.length segment.vmsize.toNat
  omega

/-- A kept segment writes the same byte to the moved address as to the address itself. -/
theorem byteAt_moved (loadBase : UInt64) {segment : Segment}
    (hlen : segment.data.length = segment.filesize.toNat)
    (hfits : segment.filesize ≤ segment.vmsize) (hlink : image.linkBase ≤ segment.vmaddr)
    {va : Nat} (hva : image.linkBase.toNat ≤ va) :
    (MemOp.copy (dstOf image loadBase (.of segment)) (copied (.of segment))).byteAt
        (moved image loadBase va) =
      (MemOp.copy segment.vmaddr.toNat segment.data).byteAt va := by
  have hle := UInt64.le_iff_toNat_le.mp hlink
  rw [copied_of_fits hlen hfits, MemOp.byteAt, MemOp.byteAt]
  have hdst : dstOf image loadBase (.of segment) =
      loadBase.toNat + (segment.vmaddr.toNat - image.linkBase.toNat) := rfl
  -- both loaders write the same byte of the data, one at a shifted place
  have hstart : dstOf image loadBase (.of segment) ≤ moved image loadBase va ↔
      segment.vmaddr.toNat ≤ va := by
    rw [hdst, moved]
    omega
  have hindex : moved image loadBase va - dstOf image loadBase (.of segment) =
      va - segment.vmaddr.toNat := by
    rw [hdst, moved]
    omega
  simp only [hstart, hindex]

/-- The kernel's copies put the same bytes over the moved address, in the same order. -/
theorem filterMap_moved (hdata : macho.DataExact) (hfits : DataFits macho)
    (hbased : ∀ seg ∈ kept macho.segments, image.linkBase ≤ seg.vmaddr) {va : Nat}
    (hva : image.linkBase.toNat ≤ va) :
    ((kept macho.segments).map fun seg => MemOp.copy (dstOf image loadBase seg) (copied seg)).filterMap
        (·.byteAt (moved image loadBase va)) = writtenAt macho.segments va := by
  rw [kept, List.map_map, List.filterMap_map, List.filterMap_filter, writtenAt]
  apply List.filterMap_congr
  intro segment hmem
  have hlen := hdata segment hmem
  have hle := UInt64.le_iff_toNat_le.mp (hfits segment hmem)
  by_cases hsize : segment.vmsize = 0
  · -- a skipped segment has no data, so the other loader writes nothing of it
    have hnone : (MemOp.copy segment.vmaddr.toNat segment.data).byteAt va = none := by
      rw [hsize, UInt64.toNat_zero] at hle
      rw [MemOp.byteAt_copy_eq_none]
      omega
    simp [hsize, hnone]
  · have hlink := hbased _ (mem_kept.mpr ⟨segment, hmem, hsize, rfl⟩)
    have hbyte := byteAt_moved loadBase hlen (hfits segment hmem) hlink hva
    simpa [hsize] using hbyte

/-- **The loaders agree.**  At every address inside a segment that takes memory, the
    UEFI loader leaves the byte that the kernel leaves at the moved address, whatever
    the two memories held before. -/
theorem loaders_agree {sort : SortByStart} {firmware : Firmware}
    (hmacho : machoParse bytes = some macho) (hdata : macho.DataExact) (hfits : DataFits macho)
    (hparse : (Kernel.Exec.parse machoParse bytes).result = .ok (some image))
    (hplaced : (allocateLoadRanges sort firmware macho).result = .ok ())
    (hroom : loadBase.toNat + image.span.toNat < 2 ^ 64) (m m' : Memory) {segment : Segment}
    (hmem : segment ∈ macho.segments) (hsize : segment.vmsize ≠ 0) {va : Nat}
    (hva : InSegment segment va) :
    userMemory machoParse bytes loadBase m' (loadBase.toNat + (va - image.linkBase.toNat)) =
      imageMemory sort firmware macho m va := by
  obtain ⟨macho', hmacho', hsegments, -, hbased⟩ := Kernel.Exec.parse_ok hparse
  have hsame : macho' = macho := Option.some.inj (hmacho'.symm.trans hmacho)
  subst hsame
  have hseg : Kernel.Exec.Segment.of segment ∈ image.segments := by
    rw [hsegments]
    exact mem_kept.mpr ⟨segment, hmem, hsize, rfl⟩
  -- the address lies in the span, so the fill reaches its moved place
  have hlink := UInt64.le_iff_toNat_le.mp (hbased _ hseg)
  obtain ⟨-, hmin, -⟩ := (Kernel.Exec.based_of_parse hparse).span_ge hseg
  have hstop := (le_roundUp (by decide)).trans_lt (Loader.stopOf_lt hplaced hmem hsize)
  have hrange : image.linkBase.toNat ≤ va ∧
      va < image.linkBase.toNat + image.span.toNat := by
    obtain ⟨hle, hlt⟩ := hva
    unfold stopOf at hlt hstop
    simp only [Kernel.Exec.Segment.of] at hlink hmin
    omega
  have hfill : (MemOp.fill loadBase.toNat image.span.toNat 0).byteAt (moved image loadBase va) =
      some 0 := by
    rw [MemOp.byteAt_fill, moved]
    exact ⟨⟨by omega, by omega⟩, rfl⟩
  rw [hsegments] at hbased
  show m'.run _ (moved image loadBase va) = _
  rw [memOps_loadAndRun hparse hroom, Memory.run_eq, Kernel.Exec.imageOps, hsegments,
    List.filterMap_cons_some (f := fun op : MemOp => op.byteAt (moved image loadBase va)) hfill,
    filterMap_moved hdata hfits hbased hrange.1, List.getLast?_cons, Option.getD_some,
    Loader.imageMemory_inside hdata hplaced m (Loader.inPages_of_inSegment hmem hva)]

open XnuRs.Loader (insertionSortByStart grantingFirmware) in
open XnuRs.Kernel.Exec (overlappingFile overlappingMacho overlappingImage) in
/-- A file of two segments that overlap, loaded over two different memories. -/
theorem loaders_agree_overlapping :
    userMemory parse overlappingFile 0x44000000 (fun _ => 0xaa)
        ((0x44000000 : UInt64).toNat + (0x10000000a - (0x100000000 : UInt64).toNat)) =
      imageMemory insertionSortByStart grantingFirmware overlappingMacho (fun _ => 0x55)
        0x10000000a := by
  have hparse : (Kernel.Exec.parse parse overlappingFile).result = .ok (some overlappingImage) := by
    decide +kernel
  exact loaders_agree (by decide +kernel) (by decide +kernel) (by decide +kernel) hparse
    (by decide +kernel) (by decide) _ _ (List.mem_cons_self ..) (by decide)
    ⟨by decide, by decide⟩

end XnuRs.Macho
