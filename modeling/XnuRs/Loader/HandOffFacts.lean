/-
  XnuRs.Loader.HandOffFacts

  What a loader run that reaches the jump has done.

  `HandedOver` lists the results of its steps, and a run reaches the jump exactly
  when there are such results (`loadAndJumpToKernel_ok`).
-/

import XnuRs.Loader.HandOff
import XnuRs.Loader.ImageResults

namespace XnuRs.Loader

open XnuRs.Macho

/-! ## The steps -/

theorem answer_eq_ok {α : Type} {x : Except Nat α} {a : α} : answer x = .ok a ↔ x = .ok a := by
  cases x with
  | ok b => simp [answer]
  | error status => simp [answer]

/-- The device tree is written out into as many bytes as its length says. -/
theorem buildAppleDeviceTree_ok {env : Environment} {dt : AppleDeviceTree} :
    (buildAppleDeviceTree env).result = .ok dt ↔
      ∃ fdt root bytes, findFdt env.memory env.configTables = .ok fdt ∧
        appleDeviceTree fdt = .ok root ∧ writeAdtNode root [] = .ok bytes ∧
        bytes.length < 2 ^ 32 ∧ dt.len = bytes.length ∧
        env.firmware.allocateAny 0 (pagesOf bytes.length) = .ok dt.ptr := by
  simp only [buildAppleDeviceTree, Traced.bind_result, Traced.lift_result, Traced.emit_result,
    Traced.pure_result, Outcome.bind_eq_ok, Outcome.ok_bind, answer_eq_ok, Outcome.okOr_eq_ok,
    u32TryFrom_eq_some, Except.ok.injEq]
  constructor
  · rintro ⟨fdt, hfdt, root, hroot, bytes, hbytes, len, ⟨hlen, hlt⟩, ptr, hptr, hdt⟩
    subst hdt hlen
    exact ⟨fdt, root, bytes, hfdt, hroot, hbytes, hlt, rfl, hptr⟩
  · rintro ⟨fdt, root, bytes, hfdt, hroot, hbytes, hlt, hlen, hptr⟩
    refine ⟨fdt, hfdt, root, hroot, bytes, hbytes, bytes.length, ⟨rfl, hlt⟩, dt.ptr, hptr, ?_⟩
    rw [← hlen]

/-- The stack takes its pages below its top. -/
theorem allocateKernelStack_ok {env : Environment} {stackTop : UInt64} :
    (allocateKernelStack env).result = .ok stackTop ↔
      ∃ ptr, env.firmware.allocateAny 2 stackPages = .ok ptr ∧
        stackTop.toNat = ptr.toNat + 4096 * stackPages := by
  have hbytes : (UInt64.ofNat (stackPages * pageSize.toNat)).toNat = 4096 * stackPages := by decide
  simp only [allocateKernelStack, Traced.bind_result, Traced.lift_result, Outcome.bind_eq_ok,
    answer_eq_ok, Outcome.okOr_eq_ok]
  constructor
  · rintro ⟨ptr, hptr, _, -, hadd⟩
    exact ⟨ptr, hptr, (checkedAdd_eq_some.mp hadd).trans (congrArg _ hbytes)⟩
  · rintro ⟨ptr, hptr, htop⟩
    exact ⟨ptr, hptr, (), rfl, checkedAdd_eq_some.mpr (htop.trans (congrArg _ hbytes.symm))⟩

/-- A written tree takes at least its two counts. -/
theorem eight_le_encode_length (t : AdtNode) : 8 ≤ t.encode.length := by
  cases t with
  | mk props children =>
      simp only [encode_mk, List.length_append, leBytes_length]
      omega

/-- The top lies at the end of every segment, or behind it. -/
theorem kernelTopLoop_spec {segments : List Segment} {init top : UInt64}
    (h : kernelTopLoop segments init = .ok top) :
    init ≤ top ∧ ∀ segment ∈ segments, stopOf segment ≤ top.toNat := by
  induction segments generalizing init with
  | nil =>
      rw [kernelTopLoop] at h
      rw [Except.ok.inj h]
      simp
  | cons segment rest ih =>
      simp only [kernelTopLoop, Outcome.bind_eq_ok, Outcome.okOr_eq_ok, checkedAdd_eq_some] at h
      obtain ⟨stop, hstop, hrest⟩ := h
      -- one round keeps the larger of the two
      simp only [gt_iff_lt, ← max_def_lt] at hrest
      obtain ⟨hle, hall⟩ := ih hrest
      have hstop' := UInt64.le_iff_toNat_le.mp ((le_max_right init stop).trans hle)
      rw [hstop] at hstop'
      exact ⟨(le_max_left init stop).trans hle, List.forall_mem_cons.mpr ⟨hstop', hall⟩⟩

/-! ## A loader run that reaches the jump -/

/-- The kernel file, parsed. -/
def kernelOf (env : Environment) : Option MachO := env.kernelFile.bind env.machoParse

/-- What the steps of a loader run that reaches the jump gave. -/
structure HandedOver (env : Environment) (macho : MachO) (handOff : KernelHandOff)
    (args : BootArgs) : Prop where
  init : env.init = .ok ()
  imageFileSystem : env.imageFileSystem = .ok ()
  kernel : kernelOf env = some macho
  placed : (allocateLoadRanges env.sort env.firmware macho).result = .ok ()
  deviceTree : (buildAppleDeviceTree env).result = .ok ⟨args.deviceTreeP, args.deviceTreeLength⟩
  bootArgs : (allocateBootArgsPage env).result = .ok handOff.bootArgs
  stack : (allocateKernelStack env).result = .ok handOff.stackTop
  top : kernelTop macho = .ok args.topOfKernelData
  entry : handOff.entry = macho.entry
  filled : (fillBootArgs handOff.bootArgs env.memoryMap args.topOfKernelData
    ⟨args.deviceTreeP, args.deviceTreeLength⟩).result = .ok args

theorem openKernel_ok {env : Environment} {macho : MachO} :
    (openKernel env).result = .ok macho ↔
      env.init = .ok () ∧ env.imageFileSystem = .ok () ∧ kernelOf env = some macho := by
  simp only [openKernel, Traced.bind_result, Traced.lift_result, Traced.emit_result,
    Outcome.bind_eq_ok, answer_eq_ok, Outcome.okOr_eq_ok, Outcome.ok_bind, kernelOf,
    Option.bind_eq_some_iff]
  constructor
  · rintro ⟨_, hinit, _, hfs, bytes, hbytes, hmacho⟩
    exact ⟨hinit, hfs, bytes, hbytes, hmacho⟩
  · rintro ⟨hinit, hfs, bytes, hbytes, hmacho⟩
    exact ⟨(), hinit, (), hfs, bytes, hbytes, hmacho⟩

/-- `fill_boot_args` stores the top and the device tree it is given. -/
theorem fillBootArgs_ok {ptr top : UInt64} {memoryMap : List MemoryDescriptor}
    {dt : AppleDeviceTree} {args : BootArgs}
    (h : (fillBootArgs ptr memoryMap top dt).result = .ok args) :
    args.topOfKernelData = top ∧ args.deviceTreeP = dt.ptr ∧ args.deviceTreeLength = dt.len ∧
      args.revision = kbootArgsRevision2 ∧ args.version = kbootArgsVersion2 := by
  simp only [fillBootArgs, Traced.bind_result, Traced.lift_result, Outcome.bind_eq_ok] at h
  obtain ⟨extent, -, _, -, hargs⟩ := h
  have heq := Except.ok.inj hargs
  subst heq
  exact ⟨rfl, rfl, rfl, rfl, rfl⟩

/-- A run reaches the jump exactly when its steps succeed. -/
theorem loadAndJumpToKernel_ok {env : Environment} {handOff : KernelHandOff} {args : BootArgs} :
    (loadAndJumpToKernel env).result = .ok (handOff, args) ↔
      ∃ macho, HandedOver env macho handOff args := by
  simp only [loadAndJumpToKernel, Traced.bind_result, Traced.lift_result, Traced.emit_result,
    Traced.pure_result, Outcome.bind_eq_ok, Outcome.ok_bind, openKernel_ok, loadSegments_result,
    syncLoadedImage_result, Except.ok.injEq, Prod.mk.injEq]
  constructor
  · rintro ⟨macho, ⟨hinit, hfs, hkernel⟩, _, hplaced, top, htop, dt, hdt, ptr, hptr, stackTop,
      hstack, args', hfilled, hhandOff, hargs⟩
    subst hargs hhandOff
    obtain ⟨htopArgs, hp, hlen, -, -⟩ := fillBootArgs_ok hfilled
    subst htopArgs
    have heta : dt = ⟨args'.deviceTreeP, args'.deviceTreeLength⟩ := by rw [hp, hlen]
    subst heta
    exact ⟨macho, hinit, hfs, hkernel, hplaced, hdt, hptr, hstack, htop, rfl, hfilled⟩
  · rintro ⟨macho, h⟩
    refine ⟨macho, ⟨h.init, h.imageFileSystem, h.kernel⟩, (), h.placed, _, h.top, _, h.deviceTree,
      _, h.bootArgs, _, h.stack, _, h.filled, ?_, rfl⟩
    rw [← h.entry]

end XnuRs.Loader
