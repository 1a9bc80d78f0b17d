/-
  XnuRs.Kernel.Exec.LoaderResults

  When the kernel's loader stays inside the region it declares
  (`load_stays_inside_iff`).

  The span ends at a maximum of saturating sums and the copies end at exact ones.
  The two differ for a segment that runs past the top of the words only.
-/

import XnuRs.Kernel.Exec.LoaderFacts

namespace XnuRs.Kernel.Exec

variable {machoParse : List UInt8 → Option Macho.MachO} {bytes : List UInt8}
  {image : UserImage} {loadBase : UInt64}

/-! ## The stack -/

/-- `align_up` gives the rounded number, when there is room for a whole unit above. -/
theorem alignUp_eq_ok {value align r : UInt64} {k : Nat} (hk : k < 64)
    (halign : align.toNat = 2 ^ k) :
    alignUp value align = .ok r ↔
      value.toNat + 2 ^ k < 2 ^ 64 ∧ r.toNat = roundUp value.toNat (2 ^ k) := by
  have hpos : 0 < 2 ^ k := Nat.two_pow_pos k
  have hone : (1 : UInt64).toNat = 1 := rfl
  simp only [alignUp, Outcome.bind_eq_ok, Outcome.orPanic_eq_ok, checkedAdd_eq_some,
    checkedSub_eq_some, halign, hone, Except.ok.injEq]
  constructor
  · rintro ⟨sum, hsum, less, hless, hr⟩
    have hlt := sum.toNat_lt
    refine ⟨by omega, ?_⟩
    rw [← hr, maskDown_toNat hk halign, roundUp, roundDown]
    congr 2
    omega
  · rintro ⟨hroom, hr⟩
    -- the sum before the 1 is taken off is what must not overflow
    have hsum : (UInt64.ofNat (value.toNat + 2 ^ k)).toNat = value.toNat + 2 ^ k :=
      UInt64.toNat_ofNat_of_lt' hroom
    have hless : (UInt64.ofNat (value.toNat + (2 ^ k - 1))).toNat = value.toNat + (2 ^ k - 1) :=
      UInt64.toNat_ofNat_of_lt' (show _ < 2 ^ 64 by omega)
    refine ⟨.ofNat (value.toNat + 2 ^ k), hsum, .ofNat (value.toNat + (2 ^ k - 1)), ?_, ?_⟩
    · rw [hsum, hless]
      omega
    · rw [← UInt64.toNat_inj, maskDown_toNat hk halign, hless, hr, roundUp, roundDown]

/-- The stack starts at the first page behind the span, and takes 64 KiB. -/
theorem placeStack_eq_ok {imageSpan stackBase stackTop : UInt64} :
    placeStack loadBase imageSpan = .ok (stackBase, stackTop) ↔
      loadBase.toNat + imageSpan.toNat + 4096 < 2 ^ 64 ∧
      stackBase.toNat = roundUp (loadBase.toNat + imageSpan.toNat) 4096 ∧
      stackTop.toNat = stackBase.toNat + 64 * 1024 := by
  have hsize : stackSize.toNat = 64 * 1024 := rfl
  have hpage : pageSize.toNat = 2 ^ 12 := rfl
  simp only [placeStack, Outcome.bind_eq_ok, Outcome.orPanic_eq_ok, checkedAdd_eq_some,
    alignUp_eq_ok (show 12 < 64 by decide) hpage, hsize, Except.ok.injEq, Prod.mk.injEq]
  constructor
  · rintro ⟨stop, hstop, base, ⟨hroom, hbase⟩, top, htop, hbase', htop'⟩
    subst hbase' htop'
    rw [hstop] at hroom hbase
    exact ⟨hroom, hbase, htop⟩
  · rintro ⟨hroom, hbase, htop⟩
    have hstop : (UInt64.ofNat (loadBase.toNat + imageSpan.toNat)).toNat =
        loadBase.toNat + imageSpan.toNat := UInt64.toNat_ofNat_of_lt' (show _ < 2 ^ 64 by omega)
    refine ⟨.ofNat (loadBase.toNat + imageSpan.toNat), hstop, stackBase, ?_, stackTop, htop, rfl,
      rfl⟩
    rw [hstop]
    exact ⟨hroom, hbase⟩

/-- With room for it, there is a stack. -/
theorem exists_placeStack {imageSpan : UInt64}
    (hroom : loadBase.toNat + imageSpan.toNat + 64 * 1024 + 4095 ≤ 2 ^ 64 - 1) :
    ∃ stackBase stackTop, placeStack loadBase imageSpan = .ok (stackBase, stackTop) := by
  have hlt := roundUp_lt (n := loadBase.toNat + imageSpan.toNat) (a := 4096) (by decide)
  have hbase : (UInt64.ofNat (roundUp (loadBase.toNat + imageSpan.toNat) 4096)).toNat =
      roundUp (loadBase.toNat + imageSpan.toNat) 4096 :=
    UInt64.toNat_ofNat_of_lt' (show _ < 2 ^ 64 by omega)
  refine ⟨.ofNat (roundUp (loadBase.toNat + imageSpan.toNat) 4096),
    .ofNat (roundUp (loadBase.toNat + imageSpan.toNat) 4096 + 64 * 1024), ?_⟩
  rw [placeStack_eq_ok, hbase]
  refine ⟨by omega, rfl, ?_⟩
  exact UInt64.toNat_ofNat_of_lt' (show _ < 2 ^ 64 by omega)

/-! ## The region -/

/-- What the loader promises: it zeroes the span and copies into it only, the addresses
    of the copies do not overflow, and the stack holds no byte of a segment. -/
structure StaysInside (machoParse : List UInt8 → Option Macho.MachO) (bytes : List UInt8)
    (image : UserImage) (loadBase : UInt64) : Prop where
  computed : ∀ seg ∈ image.segments, ∃ offset dst,
    checkedSub seg.vmaddr image.linkBase = some offset ∧ checkedAdd loadBase offset = some dst
  zeroed : .mem (.fill loadBase.toNat image.span.toNat 0) ∈
    (loadAndRun machoParse bytes loadBase).log
  inside : ∀ a, Copied (loadAndRun machoParse bytes loadBase).log a →
    loadBase.toNat ≤ a ∧ a < loadBase.toNat + image.span.toNat
  stackApart : ∃ stackBase stackTop, placeStack loadBase image.span = .ok (stackBase, stackTop) ∧
    stackTop.toNat = stackBase.toNat + 64 * 1024 ∧
    ∀ a, Copied (loadAndRun machoParse bytes loadBase).log a →
      ¬ (stackBase.toNat ≤ a ∧ a < stackTop.toNat)

/-- No byte that is copied of a segment belongs past the top of the words. -/
def CopiesEndBelowTop (macho : Macho.MachO) : Prop :=
  ∀ seg ∈ macho.segments, seg.vmsize ≠ 0 →
    seg.vmaddr.toNat + min seg.data.length seg.vmsize.toNat ≤ 2 ^ 64 - 1

/-- The copies stay in the span exactly when the ends of their segments are words. -/
theorem copied_inSpan_iff {macho : Macho.MachO} (hmacho : machoParse bytes = some macho)
    (h : (parse machoParse bytes).result = .ok (some image))
    (hspan : loadBase.toNat + image.span.toNat < 2 ^ 64) :
    (∀ a, Copied (loadAndRun machoParse bytes loadBase).log a →
      loadBase.toNat ≤ a ∧ a < loadBase.toNat + image.span.toNat) ↔ CopiesEndBelowTop macho := by
  have hbased := based_of_parse h
  obtain ⟨macho', hmacho', hsegments, -, -⟩ := parse_ok h
  obtain rfl := Option.some.inj (hmacho'.symm.trans hmacho)
  constructor
  · intro hinside s hs hsize
    have hseg : Segment.of s ∈ image.segments := by
      rw [hsegments]
      exact mem_kept.mpr ⟨s, hs, hsize, rfl⟩
    obtain ⟨hle, hmin, hmax⟩ := hbased.span_ge hseg
    -- otherwise the last copied byte lies behind the span
    by_contra hover
    have hcopied := (copied_iff h hspan
      (a := dstOf image loadBase (Segment.of s) + (min s.data.length s.vmsize.toNat - 1))).mpr
      ⟨Segment.of s, hseg, by omega, by
        have hlt := s.vmaddr.toNat_lt
        show _ < _ + min s.data.length s.vmsize.toNat
        omega⟩
    have hlt := (hinside _ hcopied).2
    unfold dstOf at hlt
    simp only [Segment.of] at hle hlt
    omega
  · intro hends a hcopied
    obtain ⟨seg, hseg, hle, hlt⟩ := (copied_iff h hspan).mp hcopied
    obtain ⟨hlink, hmin, hmax⟩ := hbased.span_ge hseg
    rw [hsegments] at hseg
    obtain ⟨s, hs, hsize, rfl⟩ := mem_kept.mp hseg
    have hend := hends s hs hsize
    unfold dstOf at hle hlt
    simp only [Segment.of] at hlink hmin hle hlt
    omega

/-- **When the loader stays inside its region.** -/
theorem load_stays_inside_iff {macho : Macho.MachO} (hmacho : machoParse bytes = some macho)
    (h : (parse machoParse bytes).result = .ok (some image))
    (hroom : loadBase.toNat + image.span.toNat + 64 * 1024 + 4095 ≤ 2 ^ 64 - 1) :
    StaysInside machoParse bytes image loadBase ↔ CopiesEndBelowTop macho := by
  have hspan : loadBase.toNat + image.span.toNat < 2 ^ 64 := by omega
  constructor
  · intro hstays
    exact (copied_inSpan_iff hmacho h hspan).mp hstays.inside
  · intro hends
    have hinside := (copied_inSpan_iff hmacho h hspan).mpr hends
    refine ⟨?_, ?_, hinside, ?_⟩
    · intro seg hseg
      obtain ⟨offset, dst, hsub, hadd, -, -⟩ := (based_of_parse h).segmentDst_eq hspan hseg
      exact ⟨offset, dst, hsub, hadd⟩
    · rw [← mem_memOps, memOps_loadAndRun h hspan]
      exact List.mem_cons_self ..
    · -- the stack starts at a page behind the span
      obtain ⟨stackBase, stackTop, hstack⟩ := exists_placeStack hroom
      obtain ⟨-, hbase, htop⟩ := placeStack_eq_ok.mp hstack
      refine ⟨stackBase, stackTop, hstack, htop, ?_⟩
      rintro a hcopied ⟨hle, -⟩
      have hup := le_roundUp (n := loadBase.toNat + image.span.toNat) (a := 4096) (by decide)
      have hlt := (hinside a hcopied).2
      omega

/-! ## A file at the edge -/

/-- A `__TEXT` segment of 16 bytes at `vmaddr`; its data is the start of the file. -/
def textSegment (vmaddr : Nat) : Macho.SegmentCommand where
  segname := [95, 95, 84, 69, 88, 84, 0, 0, 0, 0, 0, 0, 0, 0, 0, 0]
  vmaddr := vmaddr
  vmsize := 16
  fileoff := 0
  filesize := 16
  maxprot := 5
  initprot := 5
  nsects := 0
  flags := 0

/-- A file with that one segment, and its entry at the start. -/
def textFile (vmaddr : Nat) : List UInt8 :=
  Macho.header 2 96 0 ++ Macho.encodeCommands [textSegment vmaddr] { entryoff := 0, stacksize := 0 }

/-- What the parser makes of it. -/
def textMacho (vmaddr : Nat) : Macho.MachO where
  segments := [(textSegment vmaddr).segment (textFile vmaddr)]
  loadCommands := [⟨0x19, none⟩, ⟨0x80000028, some 0⟩]
  entry := .ofNat vmaddr

/-- What the kernel makes of that. -/
def textImage (vmaddr : Nat) : UserImage where
  segments := [⟨.ofNat vmaddr, 16, (textFile vmaddr).take 16⟩]
  entryVa := .ofNat vmaddr
  linkBase := .ofNat vmaddr

/-- A `__DATA` segment over the second half of the text: 8 bytes of the file, 24 of memory. -/
def overlappingSegment : Macho.SegmentCommand where
  segname := [95, 95, 68, 65, 84, 65, 0, 0, 0, 0, 0, 0, 0, 0, 0, 0]
  vmaddr := 0x100000008
  vmsize := 24
  fileoff := 16
  filesize := 8
  maxprot := 3
  initprot := 3
  nsects := 0
  flags := 0

/-- A file with both segments. -/
def overlappingFile : List UInt8 :=
  Macho.header 3 168 0 ++ Macho.encodeCommands [textSegment 0x100000000, overlappingSegment]
    { entryoff := 0, stacksize := 0 }

/-- What the parser makes of it. -/
def overlappingMacho : Macho.MachO where
  segments := [(textSegment 0x100000000).segment overlappingFile,
    overlappingSegment.segment overlappingFile]
  loadCommands := [⟨0x19, none⟩, ⟨0x19, none⟩, ⟨0x80000028, some 0⟩]
  entry := 0x100000000

/-- What the kernel makes of that. -/
def overlappingImage : UserImage where
  segments := [⟨0x100000000, 16, overlappingFile.take 16⟩,
    ⟨0x100000008, 24, (overlappingFile.drop 16).take 8⟩]
  entryVa := 0x100000000
  linkBase := 0x100000000

/-- Two segments far below the top. -/
theorem load_stays_inside_iff_overlapping :
    StaysInside Macho.parse overlappingFile overlappingImage 0x44000000 ↔
      CopiesEndBelowTop overlappingMacho :=
  load_stays_inside_iff (by decide +kernel) (by decide +kernel) (by decide)

/-- A segment that ends at the top: the span is a byte short, and the last byte of the
    segment is copied behind it. -/
theorem textFile_leaves_region :
    ¬ ∀ machoParse bytes image loadBase, (parse machoParse bytes).result = .ok (some image) →
      loadBase.toNat % (2 * 1024 * 1024) = 0 →
      loadBase.toNat + image.span.toNat + 64 * 1024 + 4095 ≤ 2 ^ 64 - 1 →
        StaysInside machoParse bytes image loadBase := by
  intro hall
  have hparse : (parse Macho.parse (textFile 0xfffffffffffffff0)).result =
      .ok (some (textImage 0xfffffffffffffff0)) := by decide +kernel
  have hstays := hall _ _ _ 0x44000000 hparse (by decide) (by decide)
  have hcopied : Copied (loadAndRun Macho.parse (textFile 0xfffffffffffffff0) 0x44000000).log
      0x4400000f :=
    (copied_iff hparse (by decide)).mpr ⟨_, List.mem_singleton_self _, by decide, by decide⟩
  exact absurd (hstays.inside _ hcopied).2 (by decide)

end XnuRs.Kernel.Exec
