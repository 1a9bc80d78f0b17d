/-
  XnuRs.Loader.Image

  How the UEFI loader places the kernel image (loader/src/main.rs:
  `allocate_load_ranges`, `load_segments`, `sync_loaded_image`, `kernel_top`).

  A run is its log of effects and its result.  The firmware's answers are a
  parameter; an allocation it grants is in the log, one it refuses ends the run
  with the firmware's status.  The unstable sort is a parameter too: any
  function that orders the ranges by their start.
-/

import XnuRs.Lib.Memory
import XnuRs.Lib.Span
import XnuRs.Lib.Traced
import XnuRs.Loader.Adt
import XnuRs.Loader.BootArgs
import XnuRs.Macho.Goblin

namespace XnuRs.Loader

open XnuRs.Macho

/-- `PAGE_SIZE`. -/
def pageSize : UInt64 := 4096

/-- `LoadRange`; `stop` is the field `end`. -/
abbrev LoadRange := Span UInt64

/-- One effect of the loader on the machine. -/
inductive LoadOp where
  /-- The firmware granted `pages` pages from `start` on. -/
  | allocated (start : UInt64) (pages : Nat)
  | mem (op : MemOp)
  /-- `dc cvau`: clean the data cache line at `addr`. -/
  | dcCvau (addr : UInt64)
  /-- `ic ivau`: invalidate the instruction cache line at `addr`. -/
  | icIvau (addr : UInt64)
  | dsbIsh
  | isb
  /-- A line on the firmware's console. -/
  | println (message : String)
  | exitBootServices
  /-- The boot arguments were stored at `ptr`. -/
  | bootArgs (ptr : UInt64) (args : BootArgs)
  /-- `jump_to_entry`: the loader leaves for the kernel. -/
  | jump (handOff : KernelHandOff)
deriving DecidableEq, Repr

/-- A run of the loader. -/
abbrev Loading := Traced LoadOp Status

/-- The answers of `boot::allocate_pages`: for an address and a number of pages,
    a refusal (its status) or the pages; for the how-manieth request of any place and
    a number of pages, a refusal or the place. -/
structure Firmware where
  allocateAt : UInt64 → Nat → Except Nat Unit
  allocateAny : Nat → Nat → Except Nat UInt64

/-- An implementation of `sort_unstable_by_key(|range| range.start)`. -/
structure SortByStart where
  run : List LoadRange → List LoadRange
  perm : ∀ ranges, (run ranges).Perm ranges
  sorted : ∀ ranges, (run ranges).Pairwise fun a b => a.start ≤ b.start

/-! ## Ranges -/

/-- `align_down`. -/
def alignDown (value align : UInt64) : UInt64 := maskDown value align

/-- `align_up`. -/
def alignUp (value align : UInt64) : Outcome Status UInt64 := do
  let value ← .okOr (checkedAdd value (align - 1)) .loadError
  .ok (alignDown value align)

/-- The loop of `load_ranges`. -/
def loadRangesLoop : List Segment → List LoadRange → Outcome Status (List LoadRange)
  | [], ranges => .ok ranges
  | segment :: rest, ranges =>
    -- a segment without memory has no pages
    if segment.vmsize = 0 then loadRangesLoop rest ranges
    else do
      let start := alignDown segment.vmaddr pageSize
      let stop ← .okOr (checkedAdd segment.vmaddr segment.vmsize) .loadError
      let stop ← alignUp stop pageSize
      loadRangesLoop rest (ranges ++ [⟨start, stop⟩])

/-- `load_ranges`. -/
def loadRanges (macho : MachO) : Outcome Status (List LoadRange) :=
  loadRangesLoop macho.segments []

/-! ## Effects -/

/-- One round of the allocation loop of `allocate_load_ranges`; `(n + 4095) / 4096`
    is `n.div_ceil(PAGE_SIZE)`. -/
def allocateRange (firmware : Firmware) (range : LoadRange) : Loading Unit := do
  let size ← .lift (.okOr (checkedSub range.stop range.start) .loadError)
  let pages := (size.toNat + (pageSize.toNat - 1)) / pageSize.toNat
  match firmware.allocateAt range.start pages with
  -- the ranges granted before stay allocated
  | .error status => .lift (.err (.firmware status))
  | .ok () => do
    .emit (.allocated range.start pages)
    .emit (.mem (.fill range.start.toNat size.toNat 0))

/-- `allocate_load_ranges`. -/
def allocateLoadRanges (sort : SortByStart) (firmware : Firmware) (macho : MachO) :
    Loading Unit := do
  let ranges ← .lift (loadRanges macho)
  let merged := Span.merge (sort.run ranges)
  .forEach (allocateRange firmware) merged

/-- One round of `load_segments`. -/
def loadSegment (segment : Segment) : Loading Unit :=
  if segment.filesize = 0 then pure ()
  else .emit (.mem (.copy segment.vmaddr.toNat segment.data))

/-- `load_segments`. -/
def loadSegments (macho : MachO) : Loading Unit := .forEach loadSegment macho.segments

/-- The addresses a cache loop visits, from `addr` on. -/
def cacheLines (addr stop : UInt64) : List UInt64 :=
  if addr < stop then addr :: cacheLines (saturatingAdd addr 64) stop else []
termination_by stop.toNat - addr.toNat
decreasing_by
  rename_i hlt
  have hlt' := UInt64.lt_iff_toNat_lt.mp hlt
  have hstop := stop.toNat_lt
  rw [saturatingAdd_toNat, show (64 : UInt64).toNat = 64 from rfl]
  omega

/-- `clean_dcache_invalidate_icache`. -/
def cleanDcacheInvalidateIcache (start : UInt64) (len : UInt64) : Loading Unit := do
  let stop := saturatingAdd start len
  .forEach (fun addr => .emit (.dcCvau addr)) (cacheLines (maskDown start 64) stop)
  -- every data line is clean before the first instruction line is dropped
  .emit .dsbIsh
  .forEach (fun addr => .emit (.icIvau addr)) (cacheLines (maskDown start 64) stop)
  .emit .dsbIsh
  .emit .isb

/-- One round of `sync_loaded_image`. -/
def syncSegment (segment : Segment) : Loading Unit :=
  if segment.vmsize = 0 then pure ()
  else cleanDcacheInvalidateIcache segment.vmaddr segment.vmsize

/-- `sync_loaded_image`. -/
def syncLoadedImage (macho : MachO) : Loading Unit := .forEach syncSegment macho.segments

/-- The loop of `kernel_top`. -/
def kernelTopLoop : List Segment → UInt64 → Outcome Status UInt64
  | [], top => .ok top
  | segment :: rest, top => do
    let stop ← .okOr (checkedAdd segment.vmaddr segment.vmsize) .loadError
    kernelTopLoop rest (if stop > top then stop else top)

/-- `kernel_top`. -/
def kernelTop (macho : MachO) : Outcome Status UInt64 := kernelTopLoop macho.segments 0

end XnuRs.Loader
