/-
  XnuRs.Loader.ImageFacts

  What the loader's placement of the kernel image does, pass by pass.

  The ranges are the segments' memory ranges rounded to pages
  (`loadRanges_eq_ok`); merging keeps their union, so what is allocated and what
  is zeroed are the pages of the segments (`allocated_iff`, `zeroed_iff`); the
  cache loops visit the 64-byte lines of the segments (`cleaned_iff`).
-/

import XnuRs.Loader.Image
import Mathlib.Data.List.Forall2
import Mathlib.Data.List.Sort

namespace XnuRs.Loader

open XnuRs.Macho

/-- A sort of the kind the loader uses. -/
def insertionSortByStart : SortByStart where
  run ranges := ranges.insertionSort fun a b => a.start ≤ b.start
  perm _ := List.perm_insertionSort ..
  sorted _ := by
    have : Std.Total fun a b : LoadRange => a.start ≤ b.start := ⟨fun a b => le_total ..⟩
    have : IsTrans LoadRange fun a b => a.start ≤ b.start := ⟨fun _ _ _ => le_trans⟩
    exact List.pairwise_insertionSort ..

/-! ## Rounding -/

theorem alignDown_page (value : UInt64) :
    (alignDown value pageSize).toNat = roundDown value.toNat 4096 :=
  maskDown_toNat (k := 12) (by decide) rfl

theorem maskDown_line (value : UInt64) : (maskDown value 64).toNat = roundDown value.toNat 64 :=
  maskDown_toNat (k := 6) (by decide) rfl

/-- `align_up` gives the rounded number, when that is still a word. -/
theorem alignUp_page {value r : UInt64} :
    alignUp value pageSize = .ok r ↔ r.toNat = roundUp value.toNat 4096 := by
  have hsub : (pageSize - 1).toNat = 4095 := by decide
  have hr := r.toNat_lt
  simp only [alignUp, Outcome.bind_eq_ok, Outcome.okOr_eq_ok, checkedAdd_eq_some, hsub]
  constructor
  · rintro ⟨sum, hsum, h⟩
    rw [← Except.ok.inj h, alignDown_page, hsum]
    simp only [roundUp, roundDown, Nat.reduceSub]
  · intro h
    have hlt : value.toNat + 4095 < 2 ^ 64 := by
      rw [roundUp] at h
      omega
    have hsum : (UInt64.ofNat (value.toNat + 4095)).toNat = value.toNat + 4095 :=
      UInt64.toNat_ofNat_of_lt' hlt
    refine ⟨UInt64.ofNat (value.toNat + 4095), hsum, ?_⟩
    rw [Except.ok.injEq, ← UInt64.toNat_inj, alignDown_page, hsum, h]
    simp only [roundUp, roundDown, Nat.reduceSub]

/-! ## Ranges -/

/-- The memory range of a segment ends here. -/
def stopOf (segment : Segment) : Nat := segment.vmaddr.toNat + segment.vmsize.toNat

/-- The range is the memory range of the segment, rounded to pages. -/
structure PageRange (segment : Segment) (range : LoadRange) : Prop where
  start : range.start.toNat = roundDown segment.vmaddr.toNat 4096
  stop : range.stop.toNat = roundUp (stopOf segment) 4096

/-- The segments that take memory. -/
def sized (segments : List Segment) : List Segment := segments.filter (·.vmsize != 0)

theorem mem_sized {segments : List Segment} {segment : Segment} :
    segment ∈ sized segments ↔ segment ∈ segments ∧ segment.vmsize ≠ 0 := by
  simp [sized]

theorem loadRangesLoop_eq_ok {segments : List Segment} {ranges r : List LoadRange} :
    loadRangesLoop segments ranges = .ok r ↔
      ∃ new, r = ranges ++ new ∧ List.Forall₂ PageRange (sized segments) new := by
  induction segments generalizing ranges with
  | nil =>
      rw [loadRangesLoop]
      constructor
      · intro h
        exact ⟨[], by rw [List.append_nil, Except.ok.inj h], .nil⟩
      · rintro ⟨new, rfl, hnew⟩
        cases hnew
        rw [List.append_nil]
  | cons segment rest ih =>
      rw [loadRangesLoop]
      -- the loop passes over the segments that `sized` leaves out
      by_cases hzero : segment.vmsize = 0
      · have hskip : sized (segment :: rest) = sized rest := by simp [sized, hzero]
        rw [if_pos hzero, hskip, ih]
      · have htake : sized (segment :: rest) = segment :: sized rest := by simp [sized, hzero]
        rw [if_neg hzero, htake]
        simp only [Outcome.bind_eq_ok, Outcome.okOr_eq_ok, checkedAdd_eq_some, alignUp_page, ih]
        constructor
        · rintro ⟨sum, hsum, stop, hstop, new, rfl, hnew⟩
          refine ⟨⟨alignDown segment.vmaddr pageSize, stop⟩ :: new, by simp, .cons ?_ hnew⟩
          exact ⟨alignDown_page _, by rw [hstop, hsum, stopOf]⟩
        · rintro ⟨new, rfl, hnew⟩
          cases hnew with
          | @cons _ range _ new hrange hnew =>
              -- the rounded end is a word, so the end itself is one
              have hsum : stopOf segment < 2 ^ 64 := by
                have hlt := range.stop.toNat_lt
                have hle := le_roundUp (n := stopOf segment) (a := 4096) (by decide)
                rw [← hrange.stop] at hle
                omega
              refine ⟨UInt64.ofNat (stopOf segment), UInt64.toNat_ofNat_of_lt' hsum, range.stop, ?_,
                new, ?_, hnew⟩
              · rw [UInt64.toNat_ofNat_of_lt' hsum, hrange.stop]
              · have hstart : range.start = alignDown segment.vmaddr pageSize := by
                  rw [← UInt64.toNat_inj, hrange.start, alignDown_page]
                rw [List.append_assoc, List.singleton_append, ← hstart]

theorem loadRanges_eq_ok {macho : MachO} {ranges : List LoadRange} :
    loadRanges macho = .ok ranges ↔ List.Forall₂ PageRange (sized macho.segments) ranges := by
  rw [loadRanges, loadRangesLoop_eq_ok]
  simp

theorem pageRanges_lt {segments : List Segment} {ranges : List LoadRange}
    (h : List.Forall₂ PageRange segments ranges) :
    ∀ segment ∈ segments, roundUp (stopOf segment) 4096 < 2 ^ 64 := by
  induction h with
  | nil => simp
  | @cons _ range _ _ hrange _ ih =>
      have hlt := range.stop.toNat_lt
      rw [hrange.stop] at hlt
      exact List.forall_mem_cons.mpr ⟨hlt, ih⟩

/-- The ranges exist when the pages of every segment that takes memory end in the words. -/
theorem exists_loadRanges {macho : MachO} : (∃ ranges, loadRanges macho = .ok ranges) ↔
    ∀ segment ∈ sized macho.segments, roundUp (stopOf segment) 4096 < 2 ^ 64 := by
  constructor
  · rintro ⟨ranges, hranges⟩
    exact pageRanges_lt (loadRanges_eq_ok.mp hranges)
  · intro hround
    refine ⟨(sized macho.segments).map fun segment =>
      ⟨.ofNat (roundDown segment.vmaddr.toNat 4096), .ofNat (roundUp (stopOf segment) 4096)⟩, ?_⟩
    rw [loadRanges_eq_ok, List.forall₂_map_right_iff, List.forall₂_same]
    intro segment hmem
    have hdown := roundDown_le segment.vmaddr.toNat 4096
    have hvmaddr := segment.vmaddr.toNat_lt
    exact ⟨UInt64.toNat_ofNat_of_lt' (show _ < 2 ^ 64 by omega),
      UInt64.toNat_ofNat_of_lt' (hround segment hmem)⟩

/-- The range ends at page boundaries, the later one last. -/
structure WholePages (range : LoadRange) : Prop where
  start : range.start.toNat % 4096 = 0
  stop : range.stop.toNat % 4096 = 0
  le : range.start ≤ range.stop

theorem PageRange.wholePages {segment : Segment} {range : LoadRange}
    (h : PageRange segment range) : WholePages range where
  start := by rw [h.start, roundDown_mod]
  stop := by rw [h.stop, roundUp_mod]
  le := by
    have hdown := roundDown_le segment.vmaddr.toNat 4096
    have hup := le_roundUp (n := stopOf segment) (a := 4096) (by decide)
    have hmid : segment.vmaddr.toNat ≤ stopOf segment := Nat.le_add_right ..
    rw [UInt64.le_iff_toNat_le, h.start, h.stop]
    omega

/-- Joining two ranges of whole pages gives one. -/
theorem WholePages.join {s t : LoadRange} (hs : WholePages s) (ht : WholePages t) :
    WholePages { s with stop := max s.stop t.stop } where
  start := hs.start
  stop := by
    show (max s.stop t.stop).toNat % 4096 = 0
    rcases max_choice s.stop t.stop with h | h
    · rw [h, hs.stop]
    · rw [h, ht.stop]
  le := le_max_of_le_left hs.le

theorem toNat_mono : Monotone UInt64.toNat := fun _ _ h => UInt64.le_iff_toNat_le.mp h

/-- The address `a` lies in the pages of a segment that takes memory. -/
def InPages (segments : List Segment) (a : Nat) : Prop :=
  ∃ segment ∈ segments, segment.vmsize ≠ 0 ∧ roundDown segment.vmaddr.toNat 4096 ≤ a ∧
    a < roundUp (stopOf segment) 4096

theorem covered_pageRanges {segments : List Segment} {ranges : List LoadRange} {a : Nat}
    (h : List.Forall₂ PageRange segments ranges) :
    Span.Covered UInt64.toNat ranges a ↔
      ∃ segment ∈ segments, roundDown segment.vmaddr.toNat 4096 ≤ a ∧
        a < roundUp (stopOf segment) 4096 := by
  induction h with
  | nil => simp [Span.Covered]
  | cons hrange _ ih =>
      rw [Span.covered_cons, ih, List.exists_mem_cons_iff, Span.Covers, hrange.start, hrange.stop]

theorem pageRanges_wholePages {segments : List Segment} {ranges : List LoadRange}
    (h : List.Forall₂ PageRange segments ranges) : ∀ range ∈ ranges, WholePages range := by
  induction h with
  | nil => simp
  | cons hrange _ ih => exact List.forall_mem_cons.mpr ⟨hrange.wholePages, ih⟩

/-- The ranges `allocate_load_ranges` asks for: what they cover is the pages of the
    segments, and each is a number of whole pages. -/
theorem merged_loadRanges (sort : SortByStart) {macho : MachO} {ranges : List LoadRange}
    (h : loadRanges macho = .ok ranges) :
    (∀ a, Span.Covered UInt64.toNat (Span.merge (sort.run ranges)) a ↔ InPages macho.segments a) ∧
      ∀ range ∈ Span.merge (sort.run ranges), WholePages range := by
  have hpages := loadRanges_eq_ok.mp h
  have hmem : ∀ range, range ∈ sort.run ranges ↔ range ∈ ranges :=
    fun range => (sort.perm ranges).mem_iff
  refine ⟨?_, ?_⟩
  · intro a
    rw [Span.covered_merge toNat_mono (sort.sorted ranges)]
    simp only [Span.Covered, hmem]
    rw [← Span.Covered, covered_pageRanges hpages]
    simp only [mem_sized, InPages, and_assoc]
  · refine Span.mem_merge (fun _ _ => WholePages.join) ?_
    intro range hrange
    exact pageRanges_wholePages hpages range ((hmem range).mp hrange)

/-! ## Allocation -/

/-- The firmware granted the page that holds `a`. -/
def Allocated (log : List LoadOp) (a : Nat) : Prop :=
  ∃ start pages, .allocated start pages ∈ log ∧ start.toNat ≤ a ∧ a < start.toNat + 4096 * pages

/-- The byte at `a` was set to zero. -/
def Zeroed (log : List LoadOp) (a : Nat) : Prop :=
  ∃ start len, .mem (.fill start len 0) ∈ log ∧ start ≤ a ∧ a < start + len

/-- The effects of one round of the allocation loop. -/
def rangeOps (range : LoadRange) : List LoadOp :=
  [.allocated range.start ((range.stop.toNat - range.start.toNat) / 4096),
    .mem (.fill range.start.toNat (range.stop.toNat - range.start.toNat) 0)]

/-- One round: a range of whole pages is asked for as it is. -/
theorem allocateRange_eq (firmware : Firmware) {range : LoadRange} (hwhole : WholePages range) :
    allocateRange firmware range =
      match firmware.allocateAt range.start ((range.stop.toNat - range.start.toNat) / 4096) with
      | .error status => .lift (.err (.firmware status))
      | .ok () => ⟨rangeOps range, .ok ()⟩ := by
  have hsize : checkedSub range.stop range.start = some (range.stop - range.start) := by
    rw [checkedSub, if_pos hwhole.le]
  have hlen : (range.stop - range.start).toNat = range.stop.toNat - range.start.toNat :=
    UInt64.toNat_sub_of_le _ _ hwhole.le
  -- the size is a number of whole pages, so rounding it up keeps it
  have hpages : (range.stop.toNat - range.start.toNat + (pageSize.toNat - 1)) / pageSize.toNat =
      (range.stop.toNat - range.start.toNat) / 4096 := by
    have hstart := hwhole.start
    have hstop := hwhole.stop
    have hle := UInt64.le_iff_toNat_le.mp hwhole.le
    rw [show pageSize.toNat = 4096 from rfl]
    omega
  rw [allocateRange, hsize, Outcome.okOr_some, Traced.lift_ok_bind, hlen]
  simp only [hpages]
  cases firmware.allocateAt range.start ((range.stop.toNat - range.start.toNat) / 4096) with
  | error status => rfl
  | ok granted => rfl

theorem allocateRange_ok {firmware : Firmware} {range : LoadRange} (hwhole : WholePages range)
    (h : (allocateRange firmware range).result = .ok ()) :
    (allocateRange firmware range).log = rangeOps range := by
  rw [allocateRange_eq firmware hwhole] at h ⊢
  split at h
  · cases h
  · rfl

/-- The effects of a complete `allocate_load_ranges`. -/
theorem allocateLoadRanges_log {sort : SortByStart} {firmware : Firmware} {macho : MachO}
    (h : (allocateLoadRanges sort firmware macho).result = .ok ()) :
    ∃ merged : List LoadRange,
      (∀ a, Span.Covered UInt64.toNat merged a ↔ InPages macho.segments a) ∧
      (∀ range ∈ merged, WholePages range) ∧
      (allocateLoadRanges sort firmware macho).log = merged.flatMap rangeOps := by
  unfold allocateLoadRanges at h ⊢
  cases hranges : loadRanges macho with
  | error e => simp [hranges] at h
  | ok ranges =>
      obtain ⟨hcovered, hwhole⟩ := merged_loadRanges sort hranges
      simp only [hranges, Traced.lift_ok_bind] at h ⊢
      have hrounds := Traced.forEach_ok.mp h
      refine ⟨Span.merge (sort.run ranges), hcovered, hwhole, ?_⟩
      rw [Traced.forEach_log hrounds, List.flatMap_def, List.flatMap_def]
      congr 1
      apply List.map_congr_left
      intro range hmem
      exact allocateRange_ok (hwhole range hmem) (hrounds range hmem)

/-- It completes when every page range of a segment is one of words and the firmware
    grants what it asks for. -/
theorem allocateLoadRanges_ok {sort : SortByStart} {firmware : Firmware} {macho : MachO}
    (hround : ∀ segment ∈ macho.segments, segment.vmsize ≠ 0 →
      roundUp (stopOf segment) 4096 < 2 ^ 64)
    (hgrant : ∀ start pages, firmware.allocateAt start pages = .ok ()) :
    (allocateLoadRanges sort firmware macho).result = .ok () := by
  obtain ⟨ranges, hranges⟩ := exists_loadRanges.mpr fun segment hmem =>
    hround segment (mem_sized.mp hmem).1 (mem_sized.mp hmem).2
  obtain ⟨-, hwhole⟩ := merged_loadRanges sort hranges
  rw [allocateLoadRanges, hranges, Traced.lift_ok_bind]
  apply Traced.forEach_ok.mpr
  intro range hmem
  rw [allocateRange_eq firmware (hwhole range hmem), hgrant]

variable {sort : SortByStart} {firmware : Firmware} {macho : MachO}

/-- What is allocated is the pages of the segments. -/
theorem allocated_iff (h : (allocateLoadRanges sort firmware macho).result = .ok ()) {a : Nat} :
    Allocated (allocateLoadRanges sort firmware macho).log a ↔ InPages macho.segments a := by
  obtain ⟨merged, hcovered, hwhole, hlog⟩ := allocateLoadRanges_log h
  rw [← hcovered, hlog]
  constructor
  · rintro ⟨start, pages, hmem, hle, hlt⟩
    obtain ⟨range, hrange, hop⟩ := List.mem_flatMap.mp hmem
    simp only [rangeOps, List.mem_cons, LoadOp.allocated.injEq, reduceCtorEq, List.not_mem_nil,
      or_false] at hop
    obtain ⟨hstart, hpages⟩ := hop
    subst hstart hpages
    exact ⟨range, hrange, hle, by omega⟩
  · rintro ⟨range, hrange, hle, hlt⟩
    have hstart := (hwhole range hrange).start
    have hstop := (hwhole range hrange).stop
    refine ⟨range.start, (range.stop.toNat - range.start.toNat) / 4096, ?_, hle, by omega⟩
    exact List.mem_flatMap.mpr ⟨range, hrange, List.mem_cons_self ..⟩

/-- The memory operation an effect is, if it is one. -/
def LoadOp.mem? : LoadOp → Option MemOp
  | .mem op => some op
  | _ => none

/-- The memory operations among the effects. -/
def memOps (log : List LoadOp) : List MemOp := log.filterMap LoadOp.mem?

theorem mem_memOps {log : List LoadOp} {op : MemOp} : op ∈ memOps log ↔ .mem op ∈ log := by
  rw [memOps, List.mem_filterMap]
  constructor
  · rintro ⟨effect, hmem, h⟩
    cases effect with
    | mem op' =>
        rw [Option.some.inj h] at hmem
        exact hmem
    | _ => cases h
  · intro h
    exact ⟨.mem op, h, rfl⟩

theorem memOps_append (log log' : List LoadOp) : memOps (log ++ log') = memOps log ++ memOps log' :=
  List.filterMap_append ..

/-- The memory operations of a complete `allocate_load_ranges`: they fill with zero, and
    touch the bytes of the segments' pages. -/
theorem memOps_allocate (h : (allocateLoadRanges sort firmware macho).result = .ok ()) (a : Nat) :
    (∀ op ∈ memOps (allocateLoadRanges sort firmware macho).log,
        ∃ start len, op = .fill start len 0) ∧
      (InPages macho.segments a ↔
        ∃ op ∈ memOps (allocateLoadRanges sort firmware macho).log, op.byteAt a = some 0) := by
  obtain ⟨merged, hcovered, hwhole, hlog⟩ := allocateLoadRanges_log h
  -- every range granted is filled with zeros, and nothing else is written
  have hops : memOps (allocateLoadRanges sort firmware macho).log =
      merged.map fun range =>
        .fill range.start.toNat (range.stop.toNat - range.start.toNat) 0 := by
    rw [hlog, memOps, List.filterMap_flatMap, List.map_eq_flatMap]
    rfl
  rw [hops, ← hcovered]
  refine ⟨?_, ?_⟩
  · intro op hop
    obtain ⟨range, -, hfill⟩ := List.mem_map.mp hop
    exact ⟨_, _, hfill.symm⟩
  · constructor
    · rintro ⟨range, hrange, hle, hlt⟩
      refine ⟨_, List.mem_map_of_mem hrange, ?_⟩
      exact MemOp.byteAt_fill.mpr ⟨⟨hle, by omega⟩, rfl⟩
    · rintro ⟨op, hop, hbyte⟩
      obtain ⟨range, hrange, hfill⟩ := List.mem_map.mp hop
      rw [← hfill, MemOp.byteAt_fill] at hbyte
      have hle := UInt64.le_iff_toNat_le.mp (hwhole range hrange).le
      exact ⟨range, hrange, hbyte.1.1, by omega⟩

/-- Allocation zeroes what it allocates. -/
theorem zeroed_iff (h : (allocateLoadRanges sort firmware macho).result = .ok ()) {a : Nat} :
    Zeroed (allocateLoadRanges sort firmware macho).log a ↔ InPages macho.segments a := by
  obtain ⟨hfill, htouched⟩ := memOps_allocate h a
  rw [htouched]
  constructor
  · rintro ⟨start, len, hmem, hle, hlt⟩
    exact ⟨_, mem_memOps.mpr hmem, MemOp.byteAt_fill.mpr ⟨⟨hle, hlt⟩, rfl⟩⟩
  · rintro ⟨op, hop, hbyte⟩
    obtain ⟨start, len, hop'⟩ := hfill op hop
    rw [hop', MemOp.byteAt_fill] at hbyte
    rw [hop', mem_memOps] at hop
    exact ⟨start, len, hop, hbyte.1⟩

/-- The pages of a segment that takes memory end below the top of the words. -/
theorem stopOf_lt (h : (allocateLoadRanges sort firmware macho).result = .ok ())
    {segment : Segment} (hmem : segment ∈ macho.segments) (hsize : segment.vmsize ≠ 0) :
    roundUp (stopOf segment) 4096 < 2 ^ 64 := by
  unfold allocateLoadRanges at h
  cases hranges : loadRanges macho with
  | error e => simp [hranges] at h
  | ok ranges => exact pageRanges_lt (loadRanges_eq_ok.mp hranges) _ (mem_sized.mpr ⟨hmem, hsize⟩)

/-! ## Copies -/

/-- `load_segments` copies the data of the segments that have any. -/
theorem loadSegments_log (macho : MachO) :
    (loadSegments macho).log =
      (macho.segments.filter (·.filesize != 0)).map fun segment =>
        .mem (.copy segment.vmaddr.toNat segment.data) := by
  rw [loadSegments]
  induction macho.segments with
  | nil => rfl
  | cons segment rest ih =>
      rw [Traced.forEach_cons, loadSegment]
      by_cases hzero : segment.filesize = 0
      · rw [if_pos hzero, Traced.bind_log_ok _ (Traced.pure_result ()), ih]
        simp [hzero]
      · rw [if_neg hzero, Traced.emit_bind_log, ih]
        simp [hzero]

theorem loadSegments_result (macho : MachO) : (loadSegments macho).result = .ok () := by
  apply Traced.forEach_ok.mpr
  intro segment _
  unfold loadSegment
  split <;> rfl

theorem memOps_loadSegments (macho : MachO) :
    memOps (loadSegments macho).log =
      (macho.segments.filter (·.filesize != 0)).map fun segment =>
        .copy segment.vmaddr.toNat segment.data := by
  rw [loadSegments_log, memOps, List.filterMap_map]
  exact congrFun List.filterMap_eq_map _

/-! ## Cache maintenance -/

/-- The data cache line that holds `a` was cleaned. -/
def Cleaned (log : List LoadOp) (a : Nat) : Prop :=
  ∃ addr, .dcCvau addr ∈ log ∧ roundDown addr.toNat 64 = roundDown a 64

/-- The instruction cache line that holds `a` was invalidated. -/
def Invalidated (log : List LoadOp) (a : Nat) : Prop :=
  ∃ addr, .icIvau addr ∈ log ∧ roundDown addr.toNat 64 = roundDown a 64

/-- The cache loop visits the lines from the first one up to `stop`. -/
theorem mem_cacheLines {addr stop x : UInt64} (haddr : addr.toNat % 64 = 0 ∨ stop ≤ addr) :
    x ∈ cacheLines addr stop ↔ addr ≤ x ∧ x < stop ∧ x.toNat % 64 = 0 := by
  fun_induction cacheLines addr stop with
  | case1 addr hlt ih =>
      have hnext := saturatingAdd_toNat addr 64
      have hstop := stop.toNat_lt
      have hx := x.toNat_lt
      rw [show (64 : UInt64).toNat = 64 from rfl] at hnext
      have haligned : addr.toNat % 64 = 0 := by
        rcases haddr with h | h
        · exact h
        · exact absurd hlt (not_lt.mpr h)
      simp only [UInt64.le_iff_toNat_le, UInt64.lt_iff_toNat_lt, ← UInt64.toNat_inj,
        List.mem_cons] at hlt ih ⊢
      rw [ih (by omega)]
      omega
  | case2 addr hlt =>
      simp only [List.not_mem_nil, false_iff]
      rintro ⟨hle, hlt', -⟩
      exact hlt (lt_of_le_of_lt hle hlt')

/-- `a` lies on a cache line that holds a byte of the segment's memory range. -/
def OnLineOf (segment : Segment) (a : Nat) : Prop :=
  roundDown segment.vmaddr.toNat 64 ≤ a ∧ roundDown a 64 < stopOf segment

/-- The lines one run of the cache loops visits. -/
theorem mem_segmentLines {segment : Segment} (hstop : stopOf segment < 2 ^ 64) {a : Nat} :
    (∃ addr, addr ∈ cacheLines (maskDown segment.vmaddr 64)
        (saturatingAdd segment.vmaddr segment.vmsize) ∧
      roundDown addr.toNat 64 = roundDown a 64) ↔ OnLineOf segment a := by
  have hstart := maskDown_line segment.vmaddr
  have hmod := roundDown_mod segment.vmaddr.toNat 64
  have hend : (saturatingAdd segment.vmaddr segment.vmsize).toNat = stopOf segment := by
    rw [saturatingAdd_toNat, ← stopOf]
    omega
  have hlines : ∀ x, x ∈ cacheLines (maskDown segment.vmaddr 64)
      (saturatingAdd segment.vmaddr segment.vmsize) ↔ _ :=
    fun x => mem_cacheLines (.inl (by rw [hstart, hmod]))
  simp only [hlines, UInt64.le_iff_toNat_le, UInt64.lt_iff_toNat_lt, hstart, hend]
  constructor
  · rintro ⟨addr, ⟨hle, hlt, haddr⟩, hline⟩
    have hself : roundDown addr.toNat 64 = addr.toNat := by
      unfold roundDown
      omega
    rw [hself] at hline
    exact ⟨by rw [hline] at hle; exact hle.trans (roundDown_le ..), by rw [← hline]; exact hlt⟩
  · rintro ⟨hle, hlt⟩
    -- the line of `a` starts below the end of the segment, so its number is a word
    have hword : (UInt64.ofNat (roundDown a 64)).toNat = roundDown a 64 :=
      UInt64.toNat_ofNat_of_lt' (show _ < 2 ^ 64 by omega)
    have hself : roundDown (roundDown a 64) 64 = roundDown a 64 := by
      unfold roundDown
      omega
    refine ⟨UInt64.ofNat (roundDown a 64), ⟨?_, ?_, ?_⟩, ?_⟩
    · rw [hword]
      exact le_roundDown_of_mod (by decide) hmod hle
    · rwa [hword]
    · rw [hword, roundDown_mod]
    · rw [hword, hself]

/-- A loop with one effect a round. -/
theorem forEach_emit (op : UInt64 → LoadOp) (l : List UInt64) :
    Traced.forEach (fun addr => .emit (op addr)) l = (⟨l.map op, .ok ()⟩ : Loading Unit) := by
  induction l with
  | nil => rfl
  | cons addr rest ih =>
      rw [Traced.forEach_cons, ih]
      rfl

/-- The effects of one run of the cache loops. -/
theorem cleanDcacheInvalidateIcache_eq (start len : UInt64) :
    cleanDcacheInvalidateIcache start len =
      ⟨(cacheLines (maskDown start 64) (saturatingAdd start len)).map .dcCvau ++ (.dsbIsh ::
        ((cacheLines (maskDown start 64) (saturatingAdd start len)).map .icIvau ++
          [.dsbIsh, .isb])), .ok ()⟩ := by
  unfold cleanDcacheInvalidateIcache
  simp only [forEach_emit]
  rfl

theorem syncSegment_result (segment : Segment) : (syncSegment segment).result = .ok () := by
  unfold syncSegment
  split
  · rfl
  · rw [cleanDcacheInvalidateIcache_eq]

theorem syncLoadedImage_result (macho : MachO) : (syncLoadedImage macho).result = .ok () :=
  Traced.forEach_ok.mpr fun segment _ => syncSegment_result segment

/-- An effect of `sync_loaded_image` is one of the cache loops of a segment that takes memory. -/
theorem mem_syncLoadedImage {op : LoadOp} :
    op ∈ (syncLoadedImage macho).log ↔ ∃ segment ∈ macho.segments, segment.vmsize ≠ 0 ∧
      op ∈ (cleanDcacheInvalidateIcache segment.vmaddr segment.vmsize).log := by
  rw [syncLoadedImage, Traced.forEach_log fun segment _ => syncSegment_result segment,
    List.mem_flatMap]
  constructor
  · rintro ⟨segment, hmem, hop⟩
    unfold syncSegment at hop
    split at hop
    · cases hop
    · exact ⟨segment, hmem, ‹_›, hop⟩
  · rintro ⟨segment, hmem, hsize, hop⟩
    refine ⟨segment, hmem, ?_⟩
    rw [syncSegment, if_neg hsize]
    exact hop

/-- What `sync_loaded_image` cleans is the lines of the segments that take memory. -/
theorem cleaned_iff
    (hstop : ∀ segment ∈ macho.segments, segment.vmsize ≠ 0 → stopOf segment < 2 ^ 64) {a : Nat} :
    Cleaned (syncLoadedImage macho).log a ↔
      ∃ segment ∈ macho.segments, segment.vmsize ≠ 0 ∧ OnLineOf segment a := by
  simp only [Cleaned, mem_syncLoadedImage, cleanDcacheInvalidateIcache_eq]
  constructor
  · rintro ⟨addr, ⟨segment, hmem, hsize, hop⟩, hline⟩
    refine ⟨segment, hmem, hsize,
      (mem_segmentLines (hstop segment hmem hsize)).mp ⟨addr, ?_, hline⟩⟩
    simpa using hop
  · rintro ⟨segment, hmem, hsize, hon⟩
    obtain ⟨addr, haddr, hline⟩ := (mem_segmentLines (hstop segment hmem hsize)).mpr hon
    exact ⟨addr, ⟨segment, hmem, hsize, by simpa using haddr⟩, hline⟩

/-- The lines it invalidates are the same. -/
theorem invalidated_iff_cleaned {a : Nat} :
    Invalidated (syncLoadedImage macho).log a ↔ Cleaned (syncLoadedImage macho).log a := by
  have hsame : ∀ addr, .icIvau addr ∈ (syncLoadedImage macho).log ↔
      .dcCvau addr ∈ (syncLoadedImage macho).log := by
    intro addr
    simp [mem_syncLoadedImage, cleanDcacheInvalidateIcache_eq]
  simp only [Invalidated, Cleaned, hsame]

end XnuRs.Loader
