/-
  XnuRs.Kernel.Exec.Loader

  The kernel's loader of user images (kernel/src/exec/loader.rs).

  Arithmetic that the source leaves unchecked panics on overflow.  `loadAndRun`
  ends by spinning after a file it rejects, or in EL0.
-/

import XnuRs.Kernel.Exec.Macho

namespace XnuRs.Kernel.Exec

/-- `STACK_SIZE`. -/
def stackSize : UInt64 := 64 * 1024

/-- `PAGE_SIZE`. -/
def pageSize : UInt64 := 4096

/-- How `load_and_run` ends. -/
inductive Ending where
  | spin
  | el0
deriving DecidableEq, Repr

/-- `align_up`. -/
def alignUp (value align : UInt64) : Outcome Empty UInt64 := do
  let value ← .orPanic (checkedAdd value align)
  let value ← .orPanic (checkedSub value 1)
  .ok (maskDown value align)

/-- The loop that finds the end of the image. -/
def imageEndLoop : List Segment → UInt64 → UInt64
  | [], imageEnd => imageEnd
  | seg :: rest, imageEnd =>
    let stop := saturatingAdd seg.vmaddr seg.vmsize
    imageEndLoop rest (if stop > imageEnd then stop else imageEnd)

/-- The local `image_span`. -/
def UserImage.span (image : UserImage) : UInt64 :=
  saturatingSub (imageEndLoop image.segments 0) image.linkBase

/-- The destination of a segment, `seg_dst`. -/
def segmentDst (linkBase loadBase : UInt64) (seg : Segment) : Outcome Empty UInt64 := do
  let offset ← .orPanic (checkedSub seg.vmaddr linkBase)
  .orPanic (checkedAdd loadBase offset)

/-- One round of the copy loop. -/
def copySegment (linkBase loadBase : UInt64) (seg : Segment) : Executing Unit := do
  let segDst ← .lift (segmentDst linkBase loadBase seg)
  -- file data behind the memory of the segment is not copied
  let copyLen := min seg.data.length seg.vmsize.toNat
  .emit (.mem (.copy segDst.toNat (seg.data.take copyLen)))

/-- One of the loops of `flush_dcache_invalidate_icache`, from `addr` on. -/
def cacheLoop (op : UInt64 → KernelOp) (addr stop : UInt64) : Executing Unit :=
  if addr < stop then do
    .emit (op addr)
    -- `addr += 64`, also after the last line
    match _ : checkedAdd addr 64 with
    | some next => cacheLoop op next stop
    | none => .lift .panic
  else pure ()
termination_by stop.toNat - addr.toNat
decreasing_by
  rename_i hlt hnext
  have hlt' := UInt64.lt_iff_toNat_lt.mp hlt
  have hsum := checkedAdd_eq_some.mp hnext
  rw [show (64 : UInt64).toNat = 64 from rfl] at hsum
  omega

/-- `flush_dcache_invalidate_icache`. -/
def flushDcacheInvalidateIcache (base len : UInt64) : Executing Unit := do
  let stop ← .lift (.orPanic (checkedAdd base len))
  cacheLoop .dcCvau (maskDown base 64) stop
  .emit .dsbIsh
  cacheLoop .icIvau (maskDown base 64) stop
  .emit .dsbIsh
  .emit .isb

/-- The user stack behind an image: `stack_base` and `stack_top`. -/
def placeStack (loadBase imageSpan : UInt64) : Outcome Empty (UInt64 × UInt64) := do
  let imageStop ← .orPanic (checkedAdd loadBase imageSpan)
  let stackBase ← alignUp imageStop pageSize
  let stackTop ← .orPanic (checkedAdd stackBase stackSize)
  .ok (stackBase, stackTop)

/-- `load_and_run`, up to the copies. -/
def loadImage (image : UserImage) (loadBase : UInt64) : Executing Unit := do
  printStr "xnu-rs: loading user image link_base=0x"
  printHexU64 image.linkBase
  printStr " span=0x"
  printHexU64 image.span
  printStr " load_base=0x"
  printHexU64 loadBase
  printStr "\n"
  -- the whole span is zeroed, so that what no segment writes reads as zero
  .emit (.mem (.fill loadBase.toNat image.span.toNat 0))
  .forEach (copySegment image.linkBase loadBase) image.segments

/-- `load_and_run`, behind the copies. -/
def enterImage (image : UserImage) (loadBase : UInt64) : Executing Ending := do
  flushDcacheInvalidateIcache loadBase image.span
  let entryOffset ← .lift (.orPanic (checkedSub image.entryVa image.linkBase))
  let entryPhys ← .lift (.orPanic (checkedAdd loadBase entryOffset))
  let (_, stackTop) ← .lift (placeStack loadBase image.span)
  printStr "xnu-rs: entry_phys=0x"
  printHexU64 entryPhys
  printStr " stack_top=0x"
  printHexU64 stackTop
  printStr "\n"
  let frame := TrapFrame.newUser entryPhys stackTop
  printStr "xnu-rs: ERET to EL0\n"
  .emit .installVectors
  .emit (.userEnter frame)
  pure .el0

/-- `load_and_run`. -/
def loadAndRun (machoParse : List UInt8 → Option Macho.MachO) (bytes : List UInt8)
    (loadBase : UInt64) : Executing Ending := do
  match ← parse machoParse bytes with
  | none => do
    printStr "xnu-rs: failed to parse user Mach-O\n"
    pure .spin
  | some image => do
    loadImage image loadBase
    enterImage image loadBase

end XnuRs.Kernel.Exec
