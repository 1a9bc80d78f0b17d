/-
  XnuRs.Boot.NoReturn

  What happens after `exit_boot_services` (loader/src/main.rs: `main`,
  `load_and_jump_to_kernel`, `fill_boot_args`, `memory_extent`).

  Behind the call nothing can fail but `memory_extent`, whose error the question
  mark hands back to `main`, and `main` to the firmware.  `MapFits` is what a
  memory map has to satisfy for that not to happen.
-/

import XnuRs.Boot.HandOff

namespace XnuRs.Loader

/-! ## The memory map -/

/-- The end of a descriptor's memory, as an exact address. -/
def MemoryDescriptor.stop (d : MemoryDescriptor) : Nat := d.physStart.toNat + 4096 * d.pageCount.toNat

/-- A memory map that `memory_extent` measures: every descriptor ends below `2 ^ 64`, and
    one starts below the end of one. -/
def MapFits (memoryMap : List MemoryDescriptor) : Prop :=
  (∀ d ∈ memoryMap, d.stop < 2 ^ 64) ∧
    ∃ d ∈ memoryMap, ∃ d' ∈ memoryMap, d.physStart.toNat < d'.stop

instance (memoryMap : List MemoryDescriptor) : Decidable (MapFits memoryMap) :=
  inferInstanceAs (Decidable (_ ∧ _))

/-- The sizes of one descriptor, as `memory_extent` computes them. -/
theorem descriptor_stop_ok {d : MemoryDescriptor} {stop : UInt64} :
    (∃ size, (Outcome.okOr (checkedMul d.pageCount pageSize) Status.loadError) = .ok size ∧
      Outcome.okOr (checkedAdd d.physStart size) Status.loadError = .ok stop) ↔
      stop.toNat = d.stop := by
  have hpage : pageSize.toNat = 4096 := by decide
  simp only [Outcome.okOr_eq_ok, checkedMul_eq_some, checkedAdd_eq_some, hpage,
    MemoryDescriptor.stop]
  constructor
  · rintro ⟨size, hsize, hstop⟩
    omega
  · intro hstop
    have hlt := stop.toNat_lt
    refine ⟨.ofNat (4096 * d.pageCount.toNat), ?_, ?_⟩ <;>
      rw [toNat_ofNat_of_le (by rw [usizeMax]; omega)] <;> omega

/-- The loop over the map completes when every descriptor fits, and only then. -/
theorem memoryExtentLoop_total {memoryMap : List MemoryDescriptor} {min max : UInt64} :
    (∃ extent, memoryExtentLoop memoryMap min max = .ok extent) ↔
      ∀ d ∈ memoryMap, d.stop < 2 ^ 64 := by
  induction memoryMap generalizing min max with
  | nil => simp [memoryExtentLoop]
  | cons d rest ih =>
      rw [List.forall_mem_cons]
      constructor
      · rintro ⟨extent, h⟩
        obtain ⟨size, hsize, h⟩ := Outcome.bind_eq_ok.mp h
        obtain ⟨stop, hstop, h⟩ := Outcome.bind_eq_ok.mp h
        have hstop' := descriptor_stop_ok.mp ⟨size, hsize, hstop⟩
        exact ⟨hstop' ▸ stop.toNat_lt, ih.mp ⟨extent, h⟩⟩
      · rintro ⟨hd, hrest⟩
        obtain ⟨size, hsize, hstop⟩ := descriptor_stop_ok.mpr
          (toNat_ofNat_of_le (n := d.stop) (by rw [usizeMax]; omega))
        simp only [memoryExtentLoop, hsize, hstop, Outcome.ok_bind]
        exact ih.mpr hrest

/-- The first number of the extent is at or below every start, and the second one at or
    above every end; each of them is one of these, or what the loop began with. -/
theorem memoryExtentLoop_spec {memoryMap : List MemoryDescriptor} {min max min' max' : UInt64}
    (h : memoryExtentLoop memoryMap min max = .ok (min', max')) :
    min' ≤ min ∧ max ≤ max' ∧ (∀ d ∈ memoryMap, min' ≤ d.physStart ∧ d.stop ≤ max'.toNat) ∧
      (min' = min ∨ ∃ d ∈ memoryMap, min' = d.physStart) ∧
      (max' = max ∨ ∃ d ∈ memoryMap, max'.toNat = d.stop) := by
  induction memoryMap generalizing min max with
  | nil =>
      obtain ⟨rfl, rfl⟩ := Prod.mk.inj (Except.ok.inj h)
      simp
  | cons d rest ih =>
      obtain ⟨size, hsize, h⟩ := Outcome.bind_eq_ok.mp h
      obtain ⟨stop, hstop, h⟩ := Outcome.bind_eq_ok.mp h
      have hstop' := descriptor_stop_ok.mp ⟨size, hsize, hstop⟩
      -- one round keeps the smaller start and the larger end
      simp only [gt_iff_lt, ← min_def_lt, ← max_def_lt] at h
      obtain ⟨hmin, hmax, hall, hminOf, hmaxOf⟩ := ih h
      obtain ⟨hstart, hmin⟩ := le_min_iff.mp hmin
      obtain ⟨hmax, hend⟩ := max_le_iff.mp hmax
      refine ⟨hmin, hmax, List.forall_mem_cons.mpr ⟨⟨hstart, ?_⟩, hall⟩, ?_, ?_⟩
      · rw [← hstop']
        exact UInt64.le_iff_toNat_le.mp hend
      · rcases hminOf with heq | ⟨d', hd', heq⟩
        · rcases min_choice d.physStart min with hpick | hpick
          · exact .inr ⟨d, List.mem_cons_self .., heq.trans hpick⟩
          · exact .inl (heq.trans hpick)
        · exact .inr ⟨d', List.mem_cons_of_mem _ hd', heq⟩
      · rcases hmaxOf with heq | ⟨d', hd', heq⟩
        · rcases max_choice max stop with hpick | hpick
          · exact .inl (heq.trans hpick)
          · exact .inr ⟨d, List.mem_cons_self .., by rw [heq, hpick, hstop']⟩
        · exact .inr ⟨d', List.mem_cons_of_mem _ hd', heq⟩

/-- `memory_extent` succeeds exactly on the maps that fit. -/
theorem memoryExtent_total {memoryMap : List MemoryDescriptor} :
    (∃ extent, memoryExtent memoryMap = .ok extent) ↔ MapFits memoryMap := by
  have hlast : (UInt64.ofNat (2 ^ 64 - 1)).toNat = 2 ^ 64 - 1 := by decide +kernel
  constructor
  · rintro ⟨extent, h⟩
    obtain ⟨⟨min, max⟩, hloop, h⟩ := Outcome.bind_eq_ok.mp h
    dsimp only at h
    split at h
    · exact absurd h Outcome.err_ne_ok
    rename_i hcheck
    obtain ⟨hmin, hlt⟩ := not_or.mp hcheck
    refine ⟨memoryExtentLoop_total.mp ⟨_, hloop⟩, ?_⟩
    obtain ⟨-, -, -, hminOf, hmaxOf⟩ := memoryExtentLoop_spec hloop
    have hlt' := UInt64.lt_iff_toNat_lt.mp (not_le.mp hlt)
    -- both ends come from descriptors: the initial values do not pass the check
    rcases hminOf with heq | ⟨d, hd, rfl⟩
    · exact absurd heq hmin
    rcases hmaxOf with rfl | ⟨d', hd', heq⟩
    · exact absurd hlt' (Nat.not_lt_zero _)
    · exact ⟨d, hd, d', hd', heq ▸ hlt'⟩
  · rintro ⟨hfits, d, hd, d', hd', hlt⟩
    obtain ⟨⟨min, max⟩, hloop⟩ :
        ∃ extent, memoryExtentLoop memoryMap (.ofNat (2 ^ 64 - 1)) 0 = .ok extent :=
      memoryExtentLoop_total.mpr hfits
    obtain ⟨-, -, hall, -, -⟩ := memoryExtentLoop_spec hloop
    have hmin := UInt64.le_iff_toNat_le.mp (hall d hd).1
    have hmax := (hall d' hd').2
    have hmaxlt := max.toNat_lt
    have hcheck : ¬ (min = .ofNat (2 ^ 64 - 1) ∨ max ≤ min) := by
      rintro (heq | hle)
      · rw [heq, hlast] at hmin
        omega
      · have hle' := UInt64.le_iff_toNat_le.mp hle
        omega
    refine ⟨_, Outcome.bind_eq_ok.mpr ⟨_, hloop, if_neg hcheck⟩⟩

/-! ## Before the call -/

/-- An effect of the part before `exit_boot_services`. -/
def BeforeExit (op : LoadOp) : Prop := op ≠ .exitBootServices ∧ ∀ handOff, op ≠ .jump handOff

theorem openKernel_beforeExit (env : Environment) : (openKernel env).Only BeforeExit := by
  refine Traced.only_bind (Traced.only_lift _) fun _ => ?_
  refine Traced.only_emit_bind.mpr ⟨⟨nofun, nofun⟩, ?_⟩
  refine Traced.only_bind (Traced.only_lift _) fun _ => ?_
  refine Traced.only_bind (Traced.only_lift _) fun _ => ?_
  exact Traced.only_emit_bind.mpr ⟨⟨nofun, nofun⟩, Traced.only_lift _⟩

theorem allocateLoadRanges_beforeExit (sort : SortByStart) (firmware : Firmware)
    (macho : Macho.MachO) : (allocateLoadRanges sort firmware macho).Only BeforeExit := by
  refine Traced.only_bind (Traced.only_lift _) fun _ => Traced.only_forEach fun range _ => ?_
  refine Traced.only_bind (Traced.only_lift _) fun _ => ?_
  dsimp only
  split
  · exact Traced.only_lift _
  · exact Traced.only_emit_bind.mpr ⟨⟨nofun, nofun⟩, Traced.only_emit ⟨nofun, nofun⟩⟩

theorem loadSegments_beforeExit (macho : Macho.MachO) : (loadSegments macho).Only BeforeExit := by
  refine Traced.only_forEach fun segment _ => ?_
  unfold loadSegment
  split
  · exact Traced.only_pure _
  · exact Traced.only_emit ⟨nofun, nofun⟩

theorem syncLoadedImage_beforeExit (macho : Macho.MachO) :
    (syncLoadedImage macho).Only BeforeExit := by
  refine Traced.only_forEach fun segment _ => ?_
  unfold syncSegment
  split
  · exact Traced.only_pure _
  · rw [cleanDcacheInvalidateIcache_eq]
    intro op hop
    simp only [List.mem_append, List.mem_map, List.mem_cons, List.not_mem_nil, or_false] at hop
    rcases hop with ⟨_, _, rfl⟩ | rfl | ⟨_, _, rfl⟩ | rfl | rfl <;> exact ⟨nofun, nofun⟩

theorem buildAppleDeviceTree_beforeExit (env : Environment) :
    (buildAppleDeviceTree env).Only BeforeExit := by
  refine Traced.only_bind (Traced.only_lift _) fun _ => ?_
  refine Traced.only_bind (Traced.only_lift _) fun _ => ?_
  refine Traced.only_bind (Traced.only_lift _) fun _ => ?_
  refine Traced.only_bind (Traced.only_lift _) fun _ => ?_
  refine Traced.only_bind (Traced.only_lift _) fun _ => ?_
  refine Traced.only_emit_bind.mpr ⟨⟨nofun, nofun⟩, ?_⟩
  exact Traced.only_emit_bind.mpr ⟨⟨nofun, nofun⟩, Traced.only_pure _⟩

theorem allocateBootArgsPage_beforeExit (env : Environment) :
    (allocateBootArgsPage env).Only BeforeExit := by
  refine Traced.only_bind (Traced.only_lift _) fun _ => ?_
  exact Traced.only_emit_bind.mpr ⟨⟨nofun, nofun⟩, Traced.only_pure _⟩

theorem allocateKernelStack_beforeExit (env : Environment) :
    (allocateKernelStack env).Only BeforeExit := by
  refine Traced.only_bind (Traced.only_lift _) fun _ => ?_
  exact Traced.only_emit_bind.mpr ⟨⟨nofun, nofun⟩, Traced.only_lift _⟩

/-! ## Behind the call -/

/-- `main`: the status that goes back to the firmware, if one does. -/
def mainStatus (env : Environment) : Option Status :=
  match (loadAndJumpToKernel env).result with
  | .error (.err status) => some status
  | _ => none

/-- What the steps of a run that calls `exit_boot_services` gave before it. -/
structure Prepared (env : Environment) (macho : Macho.MachO) (top : UInt64) (dt : AppleDeviceTree)
    (bootArgsPtr stackTop : UInt64) : Prop where
  kernel : (openKernel env).result = .ok macho
  placed : (allocateLoadRanges env.sort env.firmware macho).result = .ok ()
  top : kernelTop macho = .ok top
  deviceTree : (buildAppleDeviceTree env).result = .ok dt
  bootArgs : (allocateBootArgsPage env).result = .ok bootArgsPtr
  stack : (allocateKernelStack env).result = .ok stackTop

/-- The call is made exactly when every step before it succeeds. -/
theorem exitBootServices_mem_log {env : Environment} :
    .exitBootServices ∈ (loadAndJumpToKernel env).log ↔
      ∃ macho top dt bootArgsPtr stackTop, Prepared env macho top dt bootArgsPtr stackTop := by
  have hnot : ∀ {α : Type} {x : Loading α}, x.Only BeforeExit → .exitBootServices ∉ x.log :=
    fun hx hmem => (hx _ hmem).1 rfl
  constructor
  · intro h
    -- a part that never exits boot services has to complete first
    have hstep : ∀ {α β : Type} {x : Loading α} {f : α → Loading β}, x.Only BeforeExit →
        .exitBootServices ∈ (x >>= f).log →
          ∃ a, x.result = .ok a ∧ .exitBootServices ∈ (f a).log :=
      fun hx hmem => (Traced.mem_bind_log_iff.mp hmem).resolve_left (hnot hx)
    obtain ⟨macho, hkernel, h⟩ := hstep (openKernel_beforeExit env) h
    obtain ⟨_, hplaced, h⟩ := hstep (allocateLoadRanges_beforeExit _ _ _) h
    obtain ⟨_, _, h⟩ := hstep (loadSegments_beforeExit _) h
    obtain ⟨_, _, h⟩ := hstep (syncLoadedImage_beforeExit _) h
    obtain ⟨top, htop, h⟩ := hstep (Traced.only_lift _) h
    obtain ⟨dt, hdt, h⟩ := hstep (buildAppleDeviceTree_beforeExit _) h
    obtain ⟨ptr, hptr, h⟩ := hstep (allocateBootArgsPage_beforeExit _) h
    obtain ⟨stackTop, hstack, _⟩ := hstep (allocateKernelStack_beforeExit _) h
    exact ⟨macho, top, dt, ptr, stackTop, hkernel, hplaced, htop, hdt, hptr, hstack⟩
  · rintro ⟨macho, top, dt, ptr, stackTop, h⟩
    refine Traced.mem_bind_log_of_ok h.kernel ?_
    refine Traced.mem_bind_log_of_ok h.placed ?_
    refine Traced.mem_bind_log_of_ok (loadSegments_result macho) ?_
    refine Traced.mem_bind_log_of_ok (syncLoadedImage_result macho) ?_
    refine Traced.mem_bind_log_of_ok h.top ?_
    refine Traced.mem_bind_log_of_ok h.deviceTree ?_
    refine Traced.mem_bind_log_of_ok h.bootArgs ?_
    refine Traced.mem_bind_log_of_ok h.stack ?_
    rw [Traced.emit_bind_log, Traced.emit_bind_log]
    exact List.mem_cons_of_mem _ (List.mem_cons_self ..)

/-- Behind the call only `memory_extent` can fail. -/
theorem Prepared.result {env : Environment} {macho : Macho.MachO} {top : UInt64}
    {dt : AppleDeviceTree} {bootArgsPtr stackTop : UInt64}
    (h : Prepared env macho top dt bootArgsPtr stackTop) :
    (loadAndJumpToKernel env).result = ((memoryExtent env.memoryMap).map fun extent =>
      (⟨macho.entry, bootArgsPtr, stackTop⟩,
        { BootArgs.zeroed with
          physBase := extent.1
          memSize := extent.2
          memSizeActual := extent.2
          topOfKernelData := top
          deviceTreeP := dt.ptr
          deviceTreeLength := dt.len })) := by
  simp only [loadAndJumpToKernel, fillBootArgs, Traced.bind_result, Traced.lift_result,
    Traced.emit_result, Traced.pure_result, h.kernel, h.placed, h.top, h.deviceTree, h.bootArgs,
    h.stack, loadSegments_result, syncLoadedImage_result, Outcome.ok_bind]
  cases memoryExtent env.memoryMap <;> rfl

/-- A run that returns a hand-off has jumped. -/
theorem jump_mem_log {env : Environment} {handOff : KernelHandOff} {args : BootArgs}
    (h : (loadAndJumpToKernel env).result = .ok (handOff, args)) :
    .jump handOff ∈ (loadAndJumpToKernel env).log := by
  obtain ⟨macho, h⟩ := loadAndJumpToKernel_ok.mp h
  have hhandOff : handOff = ⟨macho.entry, handOff.bootArgs, handOff.stackTop⟩ := by
    rw [← h.entry]
  refine Traced.mem_bind_log_of_ok (openKernel_ok.mpr ⟨h.init, h.imageFileSystem, h.kernel⟩) ?_
  refine Traced.mem_bind_log_of_ok h.placed ?_
  refine Traced.mem_bind_log_of_ok (loadSegments_result macho) ?_
  refine Traced.mem_bind_log_of_ok (syncLoadedImage_result macho) ?_
  refine Traced.mem_bind_log_of_ok h.top ?_
  refine Traced.mem_bind_log_of_ok h.deviceTree ?_
  refine Traced.mem_bind_log_of_ok h.bootArgs ?_
  refine Traced.mem_bind_log_of_ok h.stack ?_
  rw [Traced.emit_bind_log, Traced.emit_bind_log]
  refine List.mem_cons_of_mem _ (List.mem_cons_of_mem _ (Traced.mem_bind_log_of_ok h.filled ?_))
  rw [Traced.emit_bind_log, ← hhandOff]
  exact List.mem_cons_self ..

/-- **No return after the point of no return.**  Once boot services are gone, the loader
    goes on to the kernel exactly when the memory map fits; otherwise `main` returns to
    the firmware. -/
theorem no_return_after_exit_iff {env : Environment}
    (hexit : .exitBootServices ∈ (loadAndJumpToKernel env).log) :
    (mainStatus env = none ∧ ∃ handOff args,
      (loadAndJumpToKernel env).result = .ok (handOff, args) ∧
        .jump handOff ∈ (loadAndJumpToKernel env).log) ↔
      MapFits env.memoryMap := by
  obtain ⟨macho, top, dt, ptr, stackTop, hprepared⟩ := exitBootServices_mem_log.mp hexit
  have hresult := hprepared.result
  -- all that can still fail is the sum over the memory map
  rw [← memoryExtent_total]
  constructor
  · rintro ⟨-, handOff, args, hok, -⟩
    rw [hok] at hresult
    cases hextent : memoryExtent env.memoryMap with
    | ok extent => exact ⟨extent, rfl⟩
    | error e =>
        rw [hextent] at hresult
        cases hresult
  · rintro ⟨extent, hextent⟩
    rw [hextent] at hresult
    exact ⟨by rw [mainStatus, hresult]; rfl, _, _, hresult, jump_mem_log hresult⟩

end XnuRs.Loader

namespace XnuRs.Boot

open XnuRs.Loader

/-! ## A memory map that ends at the top of the address space -/

/-- The machine with the stack far up, whose firmware hands back the given map. -/
def machineWithMap (memoryMap : List MemoryDescriptor) : Environment :=
  { machine 0x47000000 with memoryMap }

/-- The loader gets to `exit_boot_services` there, whatever the map. -/
theorem machineWithMap_exits (memoryMap : List MemoryDescriptor) :
    .exitBootServices ∈ (loadAndJumpToKernel (machineWithMap memoryMap)).log := by
  have hlow : LowStack 0x47000000 0x47010000 := ⟨by decide, by decide, by decide, by decide⟩
  have h := hlow.handedOver
  -- nothing before the call reads the map
  exact exitBootServices_mem_log.mpr ⟨_, _, _, _, _,
    openKernel_ok.mpr ⟨h.init, h.imageFileSystem, h.kernel⟩, h.placed, h.top, h.deviceTree,
    h.bootArgs, h.stack⟩

theorem no_return_after_exit_iff_one_bank :
    mainStatus (machineWithMap [⟨0x40000000, 0x40000⟩]) = none ∧ ∃ handOff args,
      (loadAndJumpToKernel (machineWithMap [⟨0x40000000, 0x40000⟩])).result =
          .ok (handOff, args) ∧
        .jump handOff ∈ (loadAndJumpToKernel (machineWithMap [⟨0x40000000, 0x40000⟩])).log :=
  (no_return_after_exit_iff (machineWithMap_exits _)).mpr (by decide)

/-- A descriptor of the last page of the address space makes `memory_extent` overflow,
    and `main` returns `LOAD_ERROR` to a firmware that is gone. -/
theorem lastPage_returns :
    ¬ ∀ env, .exitBootServices ∈ (loadAndJumpToKernel env).log → mainStatus env = none := by
  intro hclaim
  have hexit := machineWithMap_exits [⟨0x40000000, 0x40000⟩, ⟨0xfffffffffffff000, 1⟩]
  obtain ⟨macho, top, dt, ptr, stackTop, hprepared⟩ := exitBootServices_mem_log.mp hexit
  have hextent : memoryExtent [⟨0x40000000, 0x40000⟩, ⟨0xfffffffffffff000, 1⟩] =
      .error (.err .loadError) := by decide +kernel
  have hreturns := hclaim _ hexit
  rw [mainStatus, hprepared.result, machineWithMap, hextent] at hreturns
  cases hreturns

end XnuRs.Boot
