/-
  XnuRs.Boot.Fetch

  The kernel and the user program are executed as they were loaded.

  Both loaders store code and then leave for it.  In between they clean and
  invalidate the lines of what they stored, and whatever is stored afterwards is
  elsewhere; so from any state of the caches, and whatever the hardware does by
  itself, no older byte is executed (`loader_executes`, `kernel_executes`).
-/

import XnuRs.Boot.Entry
import XnuRs.Boot.JumpMemory
import XnuRs.Lib.Caches

namespace XnuRs.Boot

open XnuRs.Loader XnuRs.Macho
open Caches (Executes Op)

/-- The cache line of an address, of the 64 bytes that the loops of both programs step by. -/
def lineOf (a : Nat) : Nat := roundDown a 64

/-- What an operation of cache maintenance is to the caches. -/
def CacheOp.op : CacheOp → Op
  | .dcCvau addr => .clean addr.toNat
  | .icIvau addr => .invalidate addr.toNat
  | .dsbIsh => .dsb
  | .isb => .isb

theorem map_op_maintenance (lines : List UInt64) :
    (maintenance lines).map CacheOp.op = Caches.maintain (lines.map UInt64.toNat) := by
  rw [maintenance, Caches.maintain, List.map_append, List.map_cons, List.map_append, List.map_map,
    List.map_map, List.map_map, List.map_map]
  rfl

/-! ## The loader -/

section Loader

variable {pad : Nat → UInt8} {env : Environment} {macho : MachO} {handOff : KernelHandOff}
  {args : BootArgs}

/-- What an effect of the loader is to the caches. -/
def loaderCacheOp? (pad : Nat → UInt8) : LoadOp → Option Op
  | .mem op => some (.store op)
  | .bootArgs ptr args => some (.store (.copy ptr.toNat (storedArgs pad args)))
  | .dcCvau addr => some (.clean addr.toNat)
  | .icIvau addr => some (.invalidate addr.toNat)
  | .dsbIsh => some .dsb
  | .isb => some .isb
  | _ => none

def loaderProgram (pad : Nat → UInt8) (log : List LoadOp) : List Op :=
  log.filterMap (loaderCacheOp? pad)

theorem loaderProgram_append (log log' : List LoadOp) :
    loaderProgram pad (log ++ log') = loaderProgram pad log ++ loaderProgram pad log' :=
  List.filterMap_append ..

theorem loaderProgram_map_loaderOp (ops : List CacheOp) :
    loaderProgram pad (ops.map CacheOp.loaderOp) = ops.map CacheOp.op := by
  rw [loaderProgram, List.filterMap_map, ← List.filterMap_eq_map]
  apply List.filterMap_congr
  intro op _
  cases op <;> rfl

theorem stores_loaderProgram (log : List LoadOp) :
    Caches.stores (loaderProgram pad log) = stores pad log := by
  rw [Caches.stores, loaderProgram, List.filterMap_filterMap, stores]
  apply List.filterMap_congr
  intro op _
  cases op <;> rfl

/-- Stores elsewhere leave the byte at `a` alone. -/
theorem untouched_loaderProgram {a : Nat} {log : List LoadOp}
    (h : ∀ op ∈ stores pad log, op.byteAt a = none) :
    Caches.Untouched a (loaderProgram pad log) := by
  rintro op hop store rfl
  apply h
  rw [← stores_loaderProgram]
  exact List.mem_filterMap.mpr ⟨_, hop, rfl⟩

/-- A segment's own lines are maintained when the image has been synchronised. -/
theorem level_syncLoadedImage
    (hplaced : (allocateLoadRanges env.sort env.firmware macho).result = .ok ())
    {segment : Segment} (hmem : segment ∈ macho.segments) (hsize : segment.vmsize ≠ 0) {a : Nat}
    (hon : OnLineOf segment a) (n : Nat) :
    5 ≤ Caches.levelFrom lineOf a n (loaderProgram pad (syncLoadedImage macho).log) := by
  have hlog : (syncLoadedImage macho).log =
      macho.segments.flatMap fun segment => (syncSegment segment).log :=
    Traced.forEach_log fun segment _ => syncSegment_result segment
  have huntouched : Caches.Untouched a (loaderProgram pad (syncLoadedImage macho).log) := by
    refine untouched_loaderProgram ?_
    rw [syncLoadedImage_stores]
    exact nofun
  obtain ⟨before, after, hsplit⟩ := List.append_of_mem hmem
  rw [hlog, hsplit, List.flatMap_append, List.flatMap_cons, loaderProgram_append,
    loaderProgram_append, Caches.Untouched, List.forall_mem_append, List.forall_mem_append]
    at huntouched
  rw [hlog, hsplit, List.flatMap_append, List.flatMap_cons, loaderProgram_append,
    loaderProgram_append, Caches.levelFrom_append, Caches.levelFrom_append]
  refine Nat.le_trans ?_ (Caches.le_levelFrom huntouched.2.2 _)
  -- the round of the segment itself
  have hstop : stopOf segment < 2 ^ 64 :=
    (le_roundUp (by decide)).trans_lt (stopOf_lt hplaced hmem hsize)
  obtain ⟨addr, haddr, hline⟩ := (mem_segmentLines hstop).mpr hon
  have hend : (saturatingAdd segment.vmaddr segment.vmsize).toNat =
      segment.vmaddr.toNat + segment.vmsize.toNat := by
    rw [stopOf] at hstop
    rw [saturatingAdd_toNat]
    omega
  rw [syncSegment, if_neg hsize, loader_maintenance hend, loaderProgram_map_loaderOp,
    map_op_maintenance]
  exact Caches.level_maintain (List.mem_map_of_mem haddr) hline _

/-- The parts of a run that reaches the jump: behind the synchronisation, only the device tree
    and the boot arguments are stored. -/
theorem loadAndJumpToKernel_log (h : HandedOver env macho handOff args) (pad : Nat → UInt8) :
    ∃ (before after : List LoadOp) (root : AdtNode), (loadAndJumpToKernel env).log =
        before ++ ((syncLoadedImage macho).log ++ after) ∧
      args.deviceTreeLength = root.encode.length ∧
      stores pad after = [.copy args.deviceTreeP.toNat root.encode,
        .copy handOff.bootArgs.toNat (storedArgs pad args)] := by
  obtain ⟨_, root, -, -, hlen, -, htree⟩ := buildAppleDeviceTree_stores h.deviceTree pad
  have hkernel := openKernel_ok.mpr ⟨h.init, h.imageFileSystem, h.kernel⟩
  refine ⟨(openKernel env).log ++ ((allocateLoadRanges env.sort env.firmware macho).log ++
    (loadSegments macho).log), ?after, root, ?_, hlen, ?_⟩
  case refine_1 =>
    rw [loadAndJumpToKernel, Traced.bind_log_ok _ hkernel, Traced.bind_log_ok _ h.placed,
      Traced.bind_log_ok _ (loadSegments_result macho),
      Traced.bind_log_ok _ (syncLoadedImage_result macho), List.append_assoc, List.append_assoc]
  · rw [h.top, Traced.lift_ok_bind, Traced.bind_log_ok _ h.deviceTree, stores_append, htree,
      Traced.bind_log_ok _ h.bootArgs, stores_append, allocateBootArgsPage_stores,
      Traced.bind_log_ok _ h.stack, stores_append, allocateKernelStack_stores,
      Traced.emit_bind_log, Traced.emit_bind_log, stores_cons (.println _) _ rfl,
      stores_cons .exitBootServices _ rfl, Traced.bind_log_ok _ h.filled, stores_append,
      fillBootArgs_log h.filled]
    rfl

/-- **The kernel is executed as it was loaded.**  When the loader jumps, what is executed at any
    address of the kernel image is what the loader stored there, from any state of the caches
    and whatever the hardware has done in between. -/
theorem loader_executes (hloaded : (loadAndJumpToKernel env).result = .ok (handOff, args))
    (hkernel : kernelOf env = some macho)
    (hplaced : PlacedApart env macho (liveRegions handOff args)) (pad : Nat → UInt8)
    {s s' : Caches.State}
    (hrun : Executes lineOf s (loaderProgram pad (loadAndJumpToKernel env).log) s')
    {segment : Segment} (hmem : segment ∈ macho.segments) (hsize : segment.vmsize ≠ 0) {a : Nat}
    (hon : OnLineOf segment a) :
    (s' a).executed = jumpMemory pad env s.mem a ∧
      jumpMemory pad env s.mem a = imageMemory env.sort env.firmware macho s.mem a := by
  obtain ⟨macho', h⟩ := loadAndJumpToKernel_ok.mp hloaded
  obtain rfl : macho' = macho := Option.some.inj (h.kernel.symm.trans hkernel)
  obtain ⟨htree, hargs⟩ := image_apart hplaced h.placed (inPages_of_onLineOf hmem hsize hon)
  refine ⟨?_, jumpMemory_outside h s.mem htree hargs⟩
  rw [jumpMemory, ← stores_loaderProgram]
  apply Caches.executed_of_run hrun
  obtain ⟨before, after, root, hlog, hlen, hafter⟩ := loadAndJumpToKernel_log h pad
  rw [hlog, loaderProgram_append, loaderProgram_append, Caches.levelFrom_append,
    Caches.levelFrom_append]
  refine Nat.le_trans ?_ (Caches.le_levelFrom (untouched_loaderProgram ?_) _)
  · exact level_syncLoadedImage h.placed hmem hsize hon _
  intro op hop
  rw [hafter, List.mem_cons, List.mem_singleton] at hop
  rcases hop with rfl | rfl
  · rw [MemOp.byteAt_copy_eq_none, ← hlen]
    exact htree
  · rw [MemOp.byteAt_copy_eq_none, storedArgs_length]
    exact hargs

/-- Caches that hold other bytes everywhere. -/
def staleCaches : Caches.State := fun _ => ⟨0, 1, some 2, some 3, false, false⟩

/-- The first byte of a kernel, in front of stale caches. -/
theorem loader_executes_machine :
    ∃ s', Executes lineOf staleCaches
        (loaderProgram (fun _ => 0) (loadAndJumpToKernel (machine 0x47000000)).log) s' ∧
      (s' 0x40000000).executed = imageMemory (machine 0x47000000).sort (machine 0x47000000).firmware
        (Kernel.Exec.textMacho 0x40000000) (fun _ => 0) 0x40000000 := by
  have hlow : LowStack 0x47000000 0x47010000 := ⟨by decide, by decide, by decide, by decide⟩
  obtain ⟨s', hrun⟩ := Caches.exists_executes lineOf staleCaches
    (loaderProgram (fun _ => 0) (loadAndJumpToKernel (machine 0x47000000)).log)
  obtain ⟨hexecuted, hmemory⟩ := loader_executes (loadAndJumpToKernel_ok.mpr ⟨_, hlow.handedOver⟩)
    hlow.handedOver.kernel hlow.placedApart (fun _ => 0) hrun (List.mem_cons_self ..) (by decide)
    (a := 0x40000000) ⟨by decide, by decide⟩
  exact ⟨s', hrun, hexecuted.trans hmemory⟩

end Loader

/-! ## The kernel -/

section Kernel

open XnuRs.Kernel XnuRs.Kernel.Exec

variable {machoParse : List UInt8 → Option MachO} {bytes : List UInt8} {image : UserImage}
  {loadBase : UInt64}

/-- What an effect of the kernel is to the caches. -/
def kernelCacheOp? : KernelOp → Option Op
  | .mem op => some (.store op)
  | .dcCvau addr => some (.clean addr.toNat)
  | .icIvau addr => some (.invalidate addr.toNat)
  | .dsbIsh => some .dsb
  | .isb => some .isb
  | _ => none

def kernelProgram (log : List KernelOp) : List Op := log.filterMap kernelCacheOp?

theorem kernelProgram_append (log log' : List KernelOp) :
    kernelProgram (log ++ log') = kernelProgram log ++ kernelProgram log' :=
  List.filterMap_append ..

theorem kernelProgram_map_kernelOp (ops : List CacheOp) :
    kernelProgram (ops.map CacheOp.kernelOp) = ops.map CacheOp.op := by
  rw [kernelProgram, List.filterMap_map, ← List.filterMap_eq_map]
  apply List.filterMap_congr
  intro op _
  cases op <;> rfl

theorem stores_kernelProgram (log : List KernelOp) :
    Caches.stores (kernelProgram log) = Exec.memOps log := by
  rw [Caches.stores, kernelProgram, List.filterMap_filterMap, Exec.memOps]
  apply List.filterMap_congr
  intro op _
  cases op <;> rfl

/-- The whole span is maintained when the image is entered. -/
theorem level_enterImage (h : Enterable image loadBase) {a : Nat} (hle : loadBase.toNat ≤ a)
    (hlt : a < loadBase.toNat + image.span.toNat) (n : Nat) :
    5 ≤ Caches.levelFrom lineOf a n (kernelProgram (enterImage image loadBase).log) := by
  have hup := le_roundUp (n := loadBase.toNat + image.span.toNat) (a := 4096) (by decide)
  have hstack := h.stack
  rw [stackTopOf] at hstack
  have hstop : (UInt64.ofNat (loadBase.toNat + image.span.toNat)).toNat =
      loadBase.toNat + image.span.toNat := UInt64.toNat_ofNat_of_lt' (show _ < 2 ^ 64 by omega)
  have hflush := kernel_maintenance hstop (by omega)
  have huntouched : Caches.Untouched a (kernelProgram (enterImage image loadBase).log) := by
    rintro op hop store rfl
    have hstore : store ∈ Exec.memOps (enterImage image loadBase).log := by
      rw [← stores_kernelProgram]
      exact List.mem_filterMap.mpr ⟨_, hop, rfl⟩
    rw [memOps_eq_nil (enterImage_noWrite _ _)] at hstore
    cases hstore
  rw [enterImage, Traced.bind_log_ok _ (congrArg Traced.result hflush), kernelProgram_append,
    Caches.Untouched, List.forall_mem_append] at huntouched
  rw [enterImage, Traced.bind_log_ok _ (congrArg Traced.result hflush), kernelProgram_append,
    Caches.levelFrom_append]
  refine Nat.le_trans ?_ (Caches.le_levelFrom huntouched.2 _)
  rw [hflush, kernelProgram_map_kernelOp, map_op_maintenance]
  -- the line of the byte is one of those the loops visit
  have hline : (UInt64.ofNat (roundDown a 64)).toNat = roundDown a 64 :=
    UInt64.toNat_ofNat_of_lt' (show _ < 2 ^ 64 by have := roundDown_le a 64; omega)
  have hmem : UInt64.ofNat (roundDown a 64) ∈ Loader.cacheLines (maskDown loadBase 64)
      (.ofNat (loadBase.toNat + image.span.toNat)) := by
    rw [mem_cacheLines (.inl (firstLine_mod loadBase)), UInt64.le_iff_toNat_le,
      UInt64.lt_iff_toNat_lt, maskDown_line, hstop, hline, roundDown_mod]
    unfold roundDown
    omega
  refine Caches.level_maintain (List.mem_map_of_mem hmem) ?_ _
  rw [hline]
  simp only [lineOf, roundDown]
  omega

/-- **The user program is executed as it was loaded.**  When the kernel enters it, what is
    executed anywhere in the image is what the kernel stored there, from any state of the caches
    and whatever the hardware has done in between. -/
theorem kernel_executes (hparse : (Exec.parse machoParse bytes).result = .ok (some image))
    (henter : Enterable image loadBase) {s s' : Caches.State}
    (hrun : Executes lineOf s (kernelProgram (loadAndRun machoParse bytes loadBase).log) s')
    {a : Nat} (hle : loadBase.toNat ≤ a) (hlt : a < loadBase.toNat + image.span.toNat) :
    (s' a).executed = s.mem.run (imageOps image loadBase) a := by
  have hup := le_roundUp (n := loadBase.toNat + image.span.toNat) (a := 4096) (by decide)
  have hstack := henter.stack
  rw [stackTopOf] at hstack
  rw [← memOps_loadAndRun hparse (by omega), ← stores_kernelProgram]
  apply Caches.executed_of_run hrun
  have hlog : (loadAndRun machoParse bytes loadBase).log = (Exec.parse machoParse bytes).log ++
      ((loadImage image loadBase).log ++ (enterImage image loadBase).log) := by
    rw [loadAndRun, Traced.bind_log_ok _ hparse]
    congr 1
    exact Traced.bind_log_ok _ (henter.loadImage_ok (based_of_parse hparse))
  rw [hlog, kernelProgram_append, kernelProgram_append, Caches.levelFrom_append,
    Caches.levelFrom_append]
  exact level_enterImage henter hle hlt _

/-- A byte of a user program, in front of stale caches. -/
theorem kernel_executes_text :
    ∃ s', Executes lineOf staleCaches
        (kernelProgram (loadAndRun Macho.parse (textFile 0x100000000) 0x44000000).log) s' ∧
      (s' 0x44000002).executed =
        Memory.run (fun _ => 0) (imageOps (textImage 0x100000000) 0x44000000) 0x44000002 := by
  obtain ⟨s', hrun⟩ := Caches.exists_executes lineOf staleCaches
    (kernelProgram (loadAndRun Macho.parse (textFile 0x100000000) 0x44000000).log)
  have hparse : (Exec.parse Macho.parse (textFile 0x100000000)).result =
      .ok (some (textImage 0x100000000)) := by decide +kernel
  exact ⟨s', hrun, kernel_executes hparse ⟨by decide, by decide, by decide⟩ hrun (by decide)
    (by decide)⟩

end Kernel

end XnuRs.Boot
