/-
  XnuRs.Boot.JumpMemory

  The memory the kernel starts in: what the loader has written by the time it
  jumps.

  Each part is where the kernel looks for it and as it was written, as long as
  the firmware keeps its regions apart (`PlacedApart`): later parts leave the
  earlier ones alone.
-/

import XnuRs.Boot.ArgsLayout
import XnuRs.Boot.HandOff

namespace XnuRs.Boot

open XnuRs.Loader XnuRs.Macho ReprC

/-! ## What the loader writes -/

/-- What an effect of the loader writes to memory. -/
def store? (pad : Nat → UInt8) : LoadOp → Option MemOp
  | .mem op => some op
  | .bootArgs ptr args => some (.copy ptr.toNat (storedArgs pad args))
  | _ => none

/-- The writes among the effects. -/
def stores (pad : Nat → UInt8) (log : List LoadOp) : List MemOp := log.filterMap (store? pad)

/-- The memory at the jump, when it was `m` at the start. -/
def jumpMemory (pad : Nat → UInt8) (env : Environment) (m : Memory) : Memory :=
  m.run (stores pad (loadAndJumpToKernel env).log)

variable {pad : Nat → UInt8} {env : Environment} {macho : MachO} {handOff : KernelHandOff}
  {args : BootArgs}

theorem stores_append (log log' : List LoadOp) :
    stores pad (log ++ log') = stores pad log ++ stores pad log' := List.filterMap_append ..

theorem stores_cons (op : LoadOp) (log : List LoadOp) (h : store? pad op = none) :
    stores pad (op :: log) = stores pad log := List.filterMap_cons_none h

/-- Effects that are no stores. -/
theorem stores_eq_nil {α : Type} {x : Loading α} (h : x.Only fun op => store? pad op = none) :
    stores pad x.log = [] := List.filterMap_eq_nil_iff.mpr h

/-- Boot arguments apart, the stores are the memory operations. -/
theorem stores_eq_memOps {log : List LoadOp} (h : ∀ op ∈ log, ∀ ptr args, op ≠ .bootArgs ptr args) :
    stores pad log = memOps log := by
  apply List.filterMap_congr
  intro op hop
  cases op with
  | bootArgs ptr args => exact absurd rfl (h _ hop ptr args)
  | _ => rfl

theorem openKernel_stores (env : Environment) : stores pad (openKernel env).log = [] := by
  refine stores_eq_nil ?_
  refine Traced.only_bind (Traced.only_lift _) fun _ => ?_
  refine Traced.only_emit_bind.mpr ⟨rfl, ?_⟩
  refine Traced.only_bind (Traced.only_lift _) fun _ => ?_
  refine Traced.only_bind (Traced.only_lift _) fun _ => ?_
  exact Traced.only_emit_bind.mpr ⟨rfl, Traced.only_lift _⟩

theorem allocateLoadRanges_stores
    (h : (allocateLoadRanges env.sort env.firmware macho).result = .ok ()) :
    stores pad (allocateLoadRanges env.sort env.firmware macho).log =
      memOps (allocateLoadRanges env.sort env.firmware macho).log := by
  obtain ⟨merged, -, -, hlog⟩ := allocateLoadRanges_log h
  apply stores_eq_memOps
  intro op hop
  rw [hlog] at hop
  obtain ⟨range, -, hround⟩ := List.mem_flatMap.mp hop
  simp only [rangeOps, List.mem_cons, List.not_mem_nil, or_false] at hround
  rcases hround with rfl | rfl <;> simp

theorem loadSegments_stores (macho : MachO) :
    stores pad (loadSegments macho).log = memOps (loadSegments macho).log := by
  apply stores_eq_memOps
  intro op hop
  rw [loadSegments_log] at hop
  obtain ⟨segment, -, rfl⟩ := List.mem_map.mp hop
  simp

theorem syncLoadedImage_stores (macho : MachO) : stores pad (syncLoadedImage macho).log = [] := by
  refine stores_eq_nil (Traced.only_forEach fun segment _ => ?_)
  unfold syncSegment
  split
  · exact Traced.only_pure _
  · rw [cleanDcacheInvalidateIcache_eq]
    intro op hop
    simp only [List.mem_append, List.mem_map, List.mem_cons, List.not_mem_nil, or_false] at hop
    rcases hop with ⟨_, _, rfl⟩ | rfl | ⟨_, _, rfl⟩ | rfl | rfl <;> rfl

/-- The device tree is written out behind its allocation. -/
theorem buildAppleDeviceTree_stores {dt : Loader.AppleDeviceTree}
    (h : (buildAppleDeviceTree env).result = .ok dt) (pad : Nat → UInt8) :
    ∃ fdt root, findFdt env.memory env.configTables = .ok fdt ∧ appleDeviceTree fdt = .ok root ∧
      dt.len = root.encode.length ∧ dt.len < 2 ^ 32 ∧
      stores pad (buildAppleDeviceTree env).log = [.copy dt.ptr.toNat root.encode] := by
  obtain ⟨fdt, root, bytes, hfdt, hroot, hbytes, hlt, hlen, hptr⟩ := buildAppleDeviceTree_ok.mp h
  obtain ⟨-, -, rfl⟩ := writeAdtNode_nil_eq_ok.mp hbytes
  refine ⟨fdt, root, hfdt, hroot, hlen, hlen ▸ hlt, ?_⟩
  have hlog : (buildAppleDeviceTree env).log =
      [.allocated dt.ptr (pagesOf root.encode.length), .mem (.copy dt.ptr.toNat root.encode)] := by
    simp only [buildAppleDeviceTree, hfdt, hroot, hbytes, u32TryFrom, if_pos hlt, hptr, answer,
      Outcome.okOr_some, Traced.lift_ok_bind, Traced.emit_bind_log, Traced.pure_log]
  rw [hlog]
  rfl

theorem allocateBootArgsPage_stores (env : Environment) :
    stores pad (allocateBootArgsPage env).log = [] := by
  refine stores_eq_nil (Traced.only_bind (Traced.only_lift _) fun _ => ?_)
  exact Traced.only_emit_bind.mpr ⟨rfl, Traced.only_pure _⟩

theorem allocateKernelStack_stores (env : Environment) :
    stores pad (allocateKernelStack env).log = [] := by
  refine stores_eq_nil (Traced.only_bind (Traced.only_lift _) fun _ => ?_)
  exact Traced.only_emit_bind.mpr ⟨rfl, Traced.only_lift _⟩

theorem fillBootArgs_log {ptr top : UInt64} {memoryMap : List MemoryDescriptor}
    {dt : Loader.AppleDeviceTree} (h : (fillBootArgs ptr memoryMap top dt).result = .ok args) :
    (fillBootArgs ptr memoryMap top dt).log = [.bootArgs ptr args] := by
  simp only [fillBootArgs, Traced.bind_result, Traced.lift_result, Outcome.bind_eq_ok] at h
  obtain ⟨extent, hextent, _, -, hargs⟩ := h
  obtain rfl := Except.ok.inj hargs
  simp only [fillBootArgs, hextent, Traced.lift_ok_bind, Traced.emit_bind_log, Traced.pure_log]

/-- **What a run that reaches the jump has written**: the image, the device tree, and the boot
    arguments. -/
theorem loadAndJumpToKernel_stores (h : HandedOver env macho handOff args) (pad : Nat → UInt8) :
    ∃ fdt root, findFdt env.memory env.configTables = .ok fdt ∧ appleDeviceTree fdt = .ok root ∧
      args.deviceTreeLength = root.encode.length ∧ args.deviceTreeLength < 2 ^ 32 ∧
      ∀ m, jumpMemory pad env m = ((imageMemory env.sort env.firmware macho m).apply
        (.copy args.deviceTreeP.toNat root.encode)).apply
          (.copy handOff.bootArgs.toNat (storedArgs pad args)) := by
  obtain ⟨fdt, root, hfdt, hroot, hlen, hlt, htree⟩ :=
    buildAppleDeviceTree_stores h.deviceTree pad
  refine ⟨fdt, root, hfdt, hroot, hlen, hlt, fun m => ?_⟩
  have hkernel := openKernel_ok.mpr ⟨h.init, h.imageFileSystem, h.kernel⟩
  have hall : stores pad (loadAndJumpToKernel env).log =
      memOps ((allocateLoadRanges env.sort env.firmware macho).log ++ (loadSegments macho).log) ++
        [.copy args.deviceTreeP.toNat root.encode,
          .copy handOff.bootArgs.toNat (storedArgs pad args)] := by
    rw [loadAndJumpToKernel, Traced.bind_log_ok _ hkernel, stores_append, openKernel_stores,
      Traced.bind_log_ok _ h.placed, stores_append, allocateLoadRanges_stores h.placed,
      Traced.bind_log_ok _ (loadSegments_result macho), stores_append, loadSegments_stores,
      Traced.bind_log_ok _ (syncLoadedImage_result macho), stores_append, syncLoadedImage_stores,
      h.top, Traced.lift_ok_bind, Traced.bind_log_ok _ h.deviceTree, stores_append, htree,
      Traced.bind_log_ok _ h.bootArgs, stores_append, allocateBootArgsPage_stores,
      Traced.bind_log_ok _ h.stack, stores_append, allocateKernelStack_stores,
      Traced.emit_bind_log, Traced.emit_bind_log, stores_cons (.println _) _ rfl,
      stores_cons .exitBootServices _ rfl, Traced.bind_log_ok _ h.filled, stores_append,
      fillBootArgs_log h.filled, memOps_append]
    simp only [List.append_assoc]
    rfl
  rw [jumpMemory, hall, Memory.run_append]
  rfl

/-! ## What the kernel finds -/

theorem le_pagesOf (n : Nat) : n ≤ 4096 * pagesOf n := by
  rw [pagesOf, show pageSize.toNat = 4096 from rfl]
  omega

/-- The bytes of the device tree and those of the boot arguments lie in regions of their own. -/
theorem tree_args_apart (h : PlacedApart env macho (liveRegions handOff args)) {a : Nat}
    (htree : args.deviceTreeP.toNat ≤ a ∧ a < args.deviceTreeP.toNat + args.deviceTreeLength) :
    ¬ (handOff.bootArgs.toNat ≤ a ∧ a < handOff.bootArgs.toNat + structSize loaderBootArgs) := by
  have hapart := (List.pairwise_cons.mp h.apart).1 _ (List.mem_cons_self ..) a
  have hpages := le_pagesOf args.deviceTreeLength
  rw [structSize_bootArgs]
  intro hargs
  refine hapart ⟨⟨htree.1, ?_⟩, hargs.1, ?_⟩
  · show a < args.deviceTreeP.toNat + 4096 * pagesOf args.deviceTreeLength
    omega
  · show a < handOff.bootArgs.toNat + 4096
    omega

/-- Neither of them lies in the pages of the kernel image. -/
theorem image_apart (h : PlacedApart env macho (liveRegions handOff args))
    (hplaced : (allocateLoadRanges env.sort env.firmware macho).result = .ok ()) {a : Nat}
    (hin : InPages macho.segments a) :
    ¬ (args.deviceTreeP.toNat ≤ a ∧ a < args.deviceTreeP.toNat + args.deviceTreeLength) ∧
      ¬ (handOff.bootArgs.toNat ≤ a ∧
        a < handOff.bootArgs.toNat + structSize loaderBootArgs) := by
  have hallocated := (allocated_iff hplaced).mpr hin
  have hpages := le_pagesOf args.deviceTreeLength
  rw [structSize_bootArgs]
  refine ⟨fun htree => ?_, fun hargs => ?_⟩
  · refine h.image _ (List.mem_cons_self ..) a ⟨htree.1, ?_⟩ hallocated
    show a < args.deviceTreeP.toNat + 4096 * pagesOf args.deviceTreeLength
    omega
  · refine h.image _ (List.mem_cons_of_mem _ (List.mem_cons_self ..)) a ⟨hargs.1, ?_⟩ hallocated
    show a < handOff.bootArgs.toNat + 4096
    omega

/-- Outside the tree and the arguments, the memory is that of the image. -/
theorem jumpMemory_outside (h : HandedOver env macho handOff args) (m : Memory) {a : Nat}
    (htree : ¬ (args.deviceTreeP.toNat ≤ a ∧ a < args.deviceTreeP.toNat + args.deviceTreeLength))
    (hargs : ¬ (handOff.bootArgs.toNat ≤ a ∧
      a < handOff.bootArgs.toNat + structSize loaderBootArgs)) :
    jumpMemory pad env m a = imageMemory env.sort env.firmware macho m a := by
  obtain ⟨_, root, -, -, hlen, -, hmemory⟩ := loadAndJumpToKernel_stores h pad
  rw [hmemory, Memory.apply_copy_of_outside (by rwa [storedArgs_length]),
    Memory.apply_copy_of_outside (by rwa [← hlen])]

/-- The device tree is where the arguments say: what is stored behind it, in another region,
    leaves it alone. -/
theorem jumpMemory_tree (h : HandedOver env macho handOff args)
    (hplaced : PlacedApart env macho (liveRegions handOff args)) (pad : Nat → UInt8) (m : Memory) :
    ∃ fdt root, findFdt env.memory env.configTables = .ok fdt ∧ appleDeviceTree fdt = .ok root ∧
      (jumpMemory pad env m).slice args.deviceTreeP.toNat args.deviceTreeLength = root.encode := by
  obtain ⟨fdt, root, hfdt, hroot, hlen, -, hmemory⟩ := loadAndJumpToKernel_stores h pad
  have hkept : ∀ m' : Memory, ∀ a, args.deviceTreeP.toNat ≤ a →
      a < args.deviceTreeP.toNat + root.encode.length →
      m'.apply (.copy handOff.bootArgs.toNat (storedArgs pad args)) a = m' a := by
    intro m' a hle hlt
    apply Memory.apply_copy_of_outside
    rw [storedArgs_length]
    exact tree_args_apart hplaced ⟨hle, by rwa [hlen]⟩
  refine ⟨fdt, root, hfdt, hroot, ?_⟩
  rw [hmemory, hlen, Memory.slice_congr (hkept _), Memory.slice_copy]

/-- The arguments are where the pointer says. -/
theorem jumpMemory_args (h : HandedOver env macho handOff args) (pad : Nat → UInt8) (m : Memory) :
    (jumpMemory pad env m).slice handOff.bootArgs.toNat (structSize loaderBootArgs) =
      storedArgs pad args := by
  obtain ⟨_, _, -, -, -, -, hmemory⟩ := loadAndJumpToKernel_stores h pad
  rw [hmemory, ← storedArgs_length pad args, Memory.slice_copy]

/-- The kernel reads the arguments behind its pointer. -/
theorem readArgs_jumpMemory (h : HandedOver env macho handOff args) (pad : Nat → UInt8)
    (m : Memory) : readArgs (jumpMemory pad env m) handOff.bootArgs.toNat = args := by
  obtain ⟨_, _, -, -, -, hlt, -⟩ := loadAndJumpToKernel_stores h pad
  exact readArgs_of_stored (jumpMemory_args h pad m) hlt

/-- **What the loader leaves to the kernel.**  When it jumps, the kernel image stands in its
    pages, the device tree where the boot arguments say, and behind the pointer in `x0` the
    kernel reads the arguments that the loader stored, each field aligned.  Nothing else was
    written but the image. -/
theorem jump_memory (hloaded : (loadAndJumpToKernel env).result = .ok (handOff, args))
    (hkernel : kernelOf env = some macho)
    (hplaced : PlacedApart env macho (liveRegions handOff args)) (pad : Nat → UInt8) (m : Memory) :
    (∀ a, InPages macho.segments a →
      jumpMemory pad env m a = imageMemory env.sort env.firmware macho m a) ∧
    (∃ fdt root, findFdt env.memory env.configTables = .ok fdt ∧ appleDeviceTree fdt = .ok root ∧
      (jumpMemory pad env m).slice args.deviceTreeP.toNat args.deviceTreeLength = root.encode) ∧
    readArgs (jumpMemory pad env m) handOff.bootArgs.toNat = args ∧
    (∀ field ∈ layoutFrom 0 kernelBootArgs, ∃ shape, (field.1, shape) ∈ kernelBootArgs ∧
      (handOff.bootArgs.toNat + field.2.start) % shape.align = 0) ∧
    ∀ a,
      ¬ (args.deviceTreeP.toNat ≤ a ∧ a < args.deviceTreeP.toNat + args.deviceTreeLength) →
      ¬ (handOff.bootArgs.toNat ≤ a ∧
        a < handOff.bootArgs.toNat + structSize loaderBootArgs) →
      jumpMemory pad env m a = imageMemory env.sort env.firmware macho m a := by
  obtain ⟨macho', h⟩ := loadAndJumpToKernel_ok.mp hloaded
  obtain rfl : macho' = macho := Option.some.inj (h.kernel.symm.trans hkernel)
  refine ⟨fun a hin => ?_, jumpMemory_tree h hplaced pad m, readArgs_jumpMemory h pad m, ?_,
    fun a => jumpMemory_outside h m⟩
  · obtain ⟨htree, hargs⟩ := image_apart hplaced h.placed hin
    exact jumpMemory_outside h m htree hargs
  · intro field hfield
    obtain ⟨shape, hmem, halign, -, -⟩ := mem_layoutFrom hfield
    have hpage : handOff.bootArgs.toNat % 4096 = 0 :=
      hplaced.aligned _ (List.mem_cons_of_mem _ (List.mem_cons_self ..))
    have hdvd : ∀ field ∈ kernelBootArgs, field.2.align ∣ 4096 := by decide
    refine ⟨shape, hmem, Nat.mod_eq_zero_of_dvd (Nat.dvd_add ?_ (Nat.dvd_of_mod_eq_zero halign))⟩
    exact Nat.dvd_trans (hdvd _ hmem) (Nat.dvd_of_mod_eq_zero hpage)

/-- On a machine that fills the gaps of the structure with `0xcc`. -/
theorem jump_memory_machine :
    readArgs (jumpMemory (fun _ => 0xcc) (machine 0x47000000) fun _ => 0) 0x47fff000 =
      machineArgs :=
  have hlow : LowStack 0x47000000 0x47010000 := ⟨by decide, by decide, by decide, by decide⟩
  (jump_memory (loadAndJumpToKernel_ok.mpr ⟨_, hlow.handedOver⟩) hlow.handedOver.kernel
    hlow.placedApart _ _).2.2.1

end XnuRs.Boot
