/-
  XnuRs.Boot.LoaderProtocol

  What the loader may do when, over all of its runs, also those that fail.

  Boot services may be used up to `exit_boot_services` and not behind it, memory
  may be written where pages were allocated before, and the jump comes last, with
  arguments that were stored and a stack that was allocated.  The loader keeps to
  all of it, if the data of the kernel's segments lies in their pages: this is the
  one thing that it does not check (`loader_allowed_iff`).
-/

import XnuRs.Boot.JumpMemory
import XnuRs.Boot.NoReturn
import XnuRs.Lib.Protocol

namespace XnuRs.Loader

open XnuRs.Macho
open XnuRs.Boot (fillBootArgs_log)

variable {history : List LoadOp} {env : Environment} {macho : MachO}

/-! ## The protocol -/

/-- What the operation writes lies in pages that were allocated. -/
def Owned (history : List LoadOp) (op : MemOp) : Prop :=
  ∀ a, op.byteAt a ≠ none → Allocated history a

/-- What is allowed behind a history. -/
def LoadOp.Allowed (history : List LoadOp) (op : LoadOp) : Prop :=
  (∀ handOff, .jump handOff ∉ history) ∧
    match op with
    | allocated _ _ | println _ | exitBootServices => .exitBootServices ∉ history
    | mem op => Owned history op
    -- the page of the arguments, filled when the memory map is known
    | bootArgs ptr _ => .exitBootServices ∈ history ∧ .allocated ptr 1 ∈ history
    | jump handOff => .exitBootServices ∈ history ∧
        (∃ args, .bootArgs handOff.bootArgs args ∈ history) ∧
        ∃ stack, .allocated stack stackPages ∈ history ∧
          handOff.stackTop.toNat = stack.toNat + 4096 * stackPages
    | dcCvau _ | icIvau _ | dsbIsh | isb => True

/-- Boot services are still there. -/
def Booting (history : List LoadOp) : Prop := ∀ op ∈ history, BeforeExit op

theorem Booting.exit (h : Booting history) : .exitBootServices ∉ history :=
  fun hmem => (h _ hmem).1 rfl

theorem Booting.jump (h : Booting history) (handOff : KernelHandOff) : .jump handOff ∉ history :=
  fun hmem => (h _ hmem).2 handOff rfl

theorem Booting.append {α : Type} {x : Loading α} (h : Booting history)
    (hx : x.Only BeforeExit) : Booting (history ++ x.log) :=
  fun op hop => (List.mem_append.mp hop).elim (h op) (hx op)

theorem Booting.snoc {op : LoadOp} (h : Booting history) (hop : BeforeExit op) :
    Booting (history ++ [op]) := by
  intro op' hmem
  rcases List.mem_append.mp hmem with hmem | hmem
  · exact h op' hmem
  · rwa [List.mem_singleton.mp hmem]

theorem Booting.println (h : Booting history) (message : String) :
    Booting (history ++ [.println message]) := h.snoc ⟨by simp, by simp⟩

theorem allocated_append {log : List LoadOp} {a : Nat} :
    Allocated (history ++ log) a ↔ Allocated history a ∨ Allocated log a := by
  simp only [Allocated, List.mem_append]
  constructor
  · rintro ⟨start, pages, hmem | hmem, hin⟩
    · exact .inl ⟨start, pages, hmem, hin⟩
    · exact .inr ⟨start, pages, hmem, hin⟩
  · rintro (⟨start, pages, hmem, hin⟩ | ⟨start, pages, hmem, hin⟩)
    · exact ⟨start, pages, .inl hmem, hin⟩
    · exact ⟨start, pages, .inr hmem, hin⟩

/-- Pages that were just allocated. -/
theorem owned_of_allocated {start : UInt64} {pages : Nat} {op : MemOp}
    (h : ∀ a, op.byteAt a ≠ none → start.toNat ≤ a ∧ a < start.toNat + 4096 * pages) :
    Owned (history ++ [.allocated start pages]) op :=
  fun a ha => ⟨start, pages, List.mem_append_right _ (List.mem_singleton_self _), h a ha⟩

/-! ## The parts of a run -/

theorem openKernel_follows (hboot : Booting history) :
    (openKernel env).Follows LoadOp.Allowed history := by
  refine Traced.follows_lift_bind.mpr fun _ _ => ?_
  refine Traced.follows_emit_bind.mpr ⟨⟨hboot.jump, hboot.exit⟩, ?_⟩
  have hboot' := hboot.println "loader: opening ESP filesystem"
  refine Traced.follows_lift_bind.mpr fun _ _ => ?_
  refine Traced.follows_lift_bind.mpr fun _ _ => ?_
  exact Traced.follows_emit_bind.mpr ⟨⟨hboot'.jump, hboot'.exit⟩, Traced.follows_lift _⟩

theorem allocateRange_follows (firmware : Firmware) (range : LoadRange) (hboot : Booting history) :
    (allocateRange firmware range).Follows LoadOp.Allowed history := by
  refine Traced.follows_lift_bind.mpr fun size _ => ?_
  dsimp only
  split
  · exact Traced.follows_lift _
  · have hboot' : Booting (history ++ [.allocated range.start
        ((size.toNat + (pageSize.toNat - 1)) / pageSize.toNat)]) := hboot.snoc ⟨by simp, by simp⟩
    refine Traced.follows_emit_bind.mpr ⟨⟨hboot.jump, hboot.exit⟩, ⟨hboot'.jump, ?_⟩, trivial⟩
    -- the pages are as many as the size takes
    refine owned_of_allocated fun a ha => ?_
    rw [show pageSize.toNat = 4096 from rfl]
    rw [MemOp.byteAt] at ha
    split at ha
    · omega
    · exact absurd rfl ha

theorem allocateRange_beforeExit (firmware : Firmware) (range : LoadRange) :
    (allocateRange firmware range).Only BeforeExit := by
  refine Traced.only_bind (Traced.only_lift _) fun _ => ?_
  dsimp only
  split
  · exact Traced.only_lift _
  · exact Traced.only_emit_bind.mpr ⟨⟨by simp, by simp⟩, Traced.only_emit ⟨by simp, by simp⟩⟩

theorem allocateLoadRanges_follows (sort : SortByStart) (firmware : Firmware) (macho : MachO)
    (hboot : Booting history) :
    (allocateLoadRanges sort firmware macho).Follows LoadOp.Allowed history := by
  refine Traced.follows_lift_bind.mpr fun ranges _ => ?_
  refine (Traced.follows_forEach (I := Booting) (fun range _ history hboot => ?_) hboot).1
  exact ⟨allocateRange_follows firmware range hboot,
    hboot.append (allocateRange_beforeExit firmware range)⟩

/-- A write allocates nothing. -/
theorem owned_snoc_mem {op op' : MemOp} : Owned (history ++ [.mem op']) op ↔ Owned history op := by
  have hnone : ∀ a, ¬ Allocated [.mem op'] a := by
    rintro a ⟨start, pages, hmem, -⟩
    simp at hmem
  simp only [Owned, allocated_append, hnone, or_false]

/-- Writes follow the protocol when each of them is to pages that were allocated. -/
theorem followsFrom_mem {ops : List MemOp} (hboot : Booting history) :
    FollowsFrom LoadOp.Allowed history (ops.map .mem) ↔ ∀ op ∈ ops, Owned history op := by
  induction ops generalizing history with
  | nil => simp [FollowsFrom]
  | cons op rest ih =>
      rw [List.map_cons, FollowsFrom, ih (hboot.snoc ⟨by simp, by simp⟩), List.forall_mem_cons]
      simp only [owned_snoc_mem]
      exact and_congr_left' (and_iff_right hboot.jump)

/-- The copies follow the protocol when the data of every segment lies in allocated pages. -/
theorem loadSegments_follows_iff (macho : MachO) (hboot : Booting history) :
    (loadSegments macho).Follows LoadOp.Allowed history ↔
      ∀ segment ∈ macho.segments, segment.filesize ≠ 0 →
        Owned history (.copy segment.vmaddr.toNat segment.data) := by
  have hlog : (loadSegments macho).log = ((macho.segments.filter (·.filesize != 0)).map fun segment =>
      MemOp.copy segment.vmaddr.toNat segment.data).map .mem := by
    rw [loadSegments_log, List.map_map]
    rfl
  rw [Traced.Follows, hlog, followsFrom_mem hboot, List.forall_mem_map]
  simp only [List.mem_filter, bne_iff_ne, and_imp]

/-- An effect of the cache maintenance. -/
theorem syncLoadedImage_only (macho : MachO) : (syncLoadedImage macho).Only fun op =>
    BeforeExit op ∧ ∀ history, Booting history → op.Allowed history := by
  intro op hop
  obtain ⟨segment, -, -, hop⟩ := mem_syncLoadedImage.mp hop
  rw [cleanDcacheInvalidateIcache_eq] at hop
  simp only [List.mem_append, List.mem_map, List.mem_cons, List.not_mem_nil, or_false] at hop
  rcases hop with ⟨_, _, rfl⟩ | rfl | ⟨_, _, rfl⟩ | rfl | rfl <;>
    exact ⟨⟨by simp, by simp⟩, fun _ hboot => ⟨hboot.jump, trivial⟩⟩

theorem syncLoadedImage_follows (macho : MachO) (hboot : Booting history) :
    (syncLoadedImage macho).Follows LoadOp.Allowed history := by
  refine (followsFrom_of_forall (I := Booting) hboot fun history hboot op hop => ?_).1
  obtain ⟨hbefore, hallowed⟩ := syncLoadedImage_only macho op hop
  exact ⟨hallowed history hboot, hboot.snoc hbefore⟩

theorem buildAppleDeviceTree_follows (env : Environment) (hboot : Booting history) :
    (buildAppleDeviceTree env).Follows LoadOp.Allowed history := by
  refine Traced.follows_lift_bind.mpr fun _ _ => Traced.follows_lift_bind.mpr fun _ _ => ?_
  refine Traced.follows_lift_bind.mpr fun bytes _ => Traced.follows_lift_bind.mpr fun _ _ => ?_
  refine Traced.follows_lift_bind.mpr fun ptr _ => ?_
  have hboot' : Booting (history ++ [.allocated ptr (pagesOf bytes.length)]) :=
    hboot.snoc ⟨by simp, by simp⟩
  refine Traced.follows_emit_bind.mpr ⟨⟨hboot.jump, hboot.exit⟩, ?_⟩
  refine Traced.follows_emit_bind.mpr ⟨⟨hboot'.jump, ?_⟩, Traced.follows_pure _⟩
  refine owned_of_allocated fun a ha => ?_
  rw [ne_eq, MemOp.byteAt_copy_eq_none, not_not] at ha
  rw [pagesOf, show pageSize.toNat = 4096 from rfl]
  omega

/-! ## The end of a run -/

theorem allocateBootArgsPage_log {ptr : UInt64}
    (h : (allocateBootArgsPage env).result = .ok ptr) :
    (allocateBootArgsPage env).log = [.allocated ptr 1] := by
  rw [allocateBootArgsPage] at h ⊢
  cases hany : answer (env.firmware.allocateAny 1 1) with
  | error e => simp [hany] at h
  | ok p =>
      obtain rfl : p = ptr := by simpa [hany] using h
      rfl

theorem allocateKernelStack_log {stackTop : UInt64}
    (h : (allocateKernelStack env).result = .ok stackTop) :
    ∃ stack, (allocateKernelStack env).log = [.allocated stack stackPages] ∧
      stackTop.toNat = stack.toNat + 4096 * stackPages := by
  obtain ⟨stack, hany, htop⟩ := allocateKernelStack_ok.mp h
  refine ⟨stack, ?_, htop⟩
  rw [allocateKernelStack, answer_eq_ok.mpr hany]
  rfl

theorem allocateKernelStack_follows (env : Environment) (hboot : Booting history) :
    (allocateKernelStack env).Follows LoadOp.Allowed history := by
  refine Traced.follows_lift_bind.mpr fun _ _ => ?_
  exact Traced.follows_emit_bind.mpr ⟨⟨hboot.jump, hboot.exit⟩, Traced.follows_lift _⟩

/-- Behind `exit_boot_services`, with the boot arguments and the stack allocated. -/
theorem jump_follows {bootArgsPtr stackTop entry top stack : UInt64}
    {memoryMap : List MemoryDescriptor} {dt : AppleDeviceTree}
    (hjump : ∀ handOff, .jump handOff ∉ history) (hexit : .exitBootServices ∈ history)
    (hargs : .allocated bootArgsPtr 1 ∈ history) (hstack : .allocated stack stackPages ∈ history)
    (htop : stackTop.toNat = stack.toNat + 4096 * stackPages) :
    (do
      let bootArgs ← fillBootArgs bootArgsPtr memoryMap top dt
      let handOff : KernelHandOff := ⟨entry, bootArgsPtr, stackTop⟩
      Traced.emit (.jump handOff)
      pure (handOff, bootArgs) : Loading (KernelHandOff × BootArgs)).Follows
        LoadOp.Allowed history := by
  refine Traced.follows_bind.mpr ⟨?_, fun bootArgs hfilled => ?_⟩
  · refine Traced.follows_lift_bind.mpr fun _ _ => ?_
    exact Traced.follows_emit_bind.mpr ⟨⟨hjump, hexit, hargs⟩, Traced.follows_pure _⟩
  · rw [fillBootArgs_log hfilled]
    refine Traced.follows_emit_bind.mpr ⟨⟨fun handOff => ?_, ?_⟩, Traced.follows_pure _⟩
    · simpa using hjump handOff
    · exact ⟨List.mem_append_left _ hexit, ⟨bootArgs, by simp⟩, stack,
        List.mem_append_left _ hstack, htop⟩

/-- From the allocation of the boot arguments on. -/
theorem handOver_follows (macho : MachO) (top : UInt64) (dt : AppleDeviceTree)
    (hboot : Booting history) :
    (do
      let bootArgsPtr ← allocateBootArgsPage env
      let stackTop ← allocateKernelStack env
      .emit (.println ("loader: prepared kernel entry " ++ hex macho.entry.toNat ++ ", stack " ++
        hex stackTop.toNat ++ "; exiting boot services"))
      .emit .exitBootServices
      let bootArgs ← fillBootArgs bootArgsPtr env.memoryMap top dt
      let handOff : KernelHandOff := ⟨macho.entry, bootArgsPtr, stackTop⟩
      .emit (.jump handOff)
      pure (handOff, bootArgs) : Loading (KernelHandOff × BootArgs)).Follows
        LoadOp.Allowed history := by
  refine Traced.follows_bind.mpr ⟨?_, fun bootArgsPtr hptr => ?_⟩
  · refine Traced.follows_lift_bind.mpr fun _ _ => ?_
    exact Traced.follows_emit_bind.mpr ⟨⟨hboot.jump, hboot.exit⟩, Traced.follows_pure _⟩
  have hargs := hboot.append (allocateBootArgsPage_beforeExit env)
  refine Traced.follows_bind.mpr ⟨allocateKernelStack_follows env hargs, fun stackTop htop => ?_⟩
  have hstack := hargs.append (allocateKernelStack_beforeExit env)
  obtain ⟨stack, hlog, hsum⟩ := allocateKernelStack_log htop
  rw [allocateBootArgsPage_log hptr, hlog] at hstack ⊢
  refine Traced.follows_emit_bind.mpr ⟨⟨hstack.jump, hstack.exit⟩, ?_⟩
  refine Traced.follows_emit_bind.mpr ⟨⟨(hstack.println _).jump, (hstack.println _).exit⟩, ?_⟩
  refine jump_follows (fun handOff => ?_) (by simp) (by simp) (by simp) hsum
  simpa using hstack.jump handOff

/-- The data of the segments lies in the pages of the image. -/
def DataInPages (macho : MachO) : Prop :=
  ∀ segment ∈ macho.segments, segment.filesize ≠ 0 → ∀ a, segment.vmaddr.toNat ≤ a →
    a < segment.vmaddr.toNat + segment.data.length → InPages macho.segments a

theorem openKernel_allocatesNothing (env : Environment) :
    (openKernel env).Only fun op => ∀ start pages, op ≠ .allocated start pages := by
  refine Traced.only_bind (Traced.only_lift _) fun _ => ?_
  refine Traced.only_emit_bind.mpr ⟨by simp, ?_⟩
  refine Traced.only_bind (Traced.only_lift _) fun _ => ?_
  refine Traced.only_bind (Traced.only_lift _) fun _ => ?_
  exact Traced.only_emit_bind.mpr ⟨by simp, Traced.only_lift _⟩

/-- What is allocated before the copies is the pages of the image. -/
theorem allocated_before_copies (hplaced :
    (allocateLoadRanges env.sort env.firmware macho).result = .ok ()) {a : Nat} :
    Allocated ((openKernel env).log ++ (allocateLoadRanges env.sort env.firmware macho).log) a ↔
      InPages macho.segments a := by
  have hnone : ¬ Allocated (openKernel env).log a := by
    rintro ⟨start, pages, hmem, -⟩
    exact openKernel_allocatesNothing env _ hmem start pages rfl
  rw [allocated_append, allocated_iff hplaced]
  exact or_iff_right hnone

/-- The copies are the only part of the loader that need not follow the protocol. -/
theorem loadAndJumpToKernel_follows_iff (env : Environment) :
    (loadAndJumpToKernel env).Follows LoadOp.Allowed [] ↔
      ∀ macho, (openKernel env).result = .ok macho →
        (allocateLoadRanges env.sort env.firmware macho).result = .ok () → DataInPages macho := by
  have hstart : Booting [] := fun _ h => absurd h List.not_mem_nil
  have hopen := hstart.append (openKernel_beforeExit env)
  rw [loadAndJumpToKernel, Traced.follows_bind, and_iff_right (openKernel_follows hstart)]
  refine forall₂_congr fun macho hkernel => ?_
  rw [Traced.follows_bind, and_iff_right (allocateLoadRanges_follows _ _ _ hopen)]
  rw [List.nil_append] at hopen ⊢
  have hplace := hopen.append (allocateLoadRanges_beforeExit env.sort env.firmware macho)
  have hcopies : (allocateLoadRanges env.sort env.firmware macho).result = .ok () →
      ((loadSegments macho).Follows LoadOp.Allowed ((openKernel env).log ++
        (allocateLoadRanges env.sort env.firmware macho).log) ↔ DataInPages macho) := by
    intro hplaced
    rw [loadSegments_follows_iff macho hplace]
    refine forall₂_congr fun segment _ => forall_congr' fun _ => forall_congr' fun a => ?_
    rw [allocated_before_copies hplaced, ne_eq, MemOp.byteAt_copy_eq_none, not_not, and_imp]
  refine ⟨fun h hplaced => ?_, fun h _ hplaced => ?_⟩
  · exact (hcopies hplaced).mp (Traced.follows_bind.mp (h () hplaced)).1
  · refine Traced.follows_bind.mpr ⟨(hcopies hplaced).mpr (h hplaced), fun _ _ => ?_⟩
    have hload := hplace.append (loadSegments_beforeExit macho)
    refine Traced.follows_bind.mpr ⟨syncLoadedImage_follows macho hload, fun _ _ => ?_⟩
    have hsync := hload.append (syncLoadedImage_beforeExit macho)
    refine Traced.follows_lift_bind.mpr fun top _ => ?_
    refine Traced.follows_bind.mpr ⟨buildAppleDeviceTree_follows env hsync, fun dt _ => ?_⟩
    have hdt := hsync.append (buildAppleDeviceTree_beforeExit env)
    exact handOver_follows macho top dt hdt

/-- **The protocol of the loader.**  Whatever the firmware answers, and whether the run succeeds or
    fails: every effect is allowed behind those before it, exactly when the data of the kernel's
    segments lies in the pages of the image, or the loader does not get as far as to copy it. -/
theorem loader_allowed_iff (env : Environment) :
    (∀ before op after, (loadAndJumpToKernel env).log = before ++ op :: after →
      op.Allowed before) ↔
      ∀ macho, (openKernel env).result = .ok macho →
        (allocateLoadRanges env.sort env.firmware macho).result = .ok () → DataInPages macho := by
  rw [← loadAndJumpToKernel_follows_iff, Traced.Follows, followsFrom_iff]
  simp only [List.nil_append]

end XnuRs.Loader
