/-
  XnuRs.Boot.HandOff

  From the loader to the user program: what memory is in use when the kernel
  starts, and what memory the kernel then takes for the user program.

  The kernel takes everything from the end of its image on, rounded up to 2 MiB.
  Its own image lies below.  The device tree, the boot arguments and the stack it
  runs on lie where the firmware put them, and nothing keeps them out of the way
  (`hand_off_safe_iff`).
-/

import XnuRs.Kernel.Exec.LoaderResults
import XnuRs.Kernel.Start
import XnuRs.Loader.HandOffFacts

namespace XnuRs.Boot

open XnuRs.Loader XnuRs.Macho
open XnuRs.Kernel (loadBaseOf)
open XnuRs.Kernel.Exec (UserImage placeStack)

/-! ## The kernel's run -/

section Start

open XnuRs.Kernel XnuRs.Kernel.Exec

variable {memory : Memory} {args : BootArgs}

theorem dumpAppleDeviceTree_noWrite (memory : Memory) (args : BootArgs) :
    (dumpAppleDeviceTree memory args).Only NoWrite := by
  unfold dumpAppleDeviceTree
  split
  · exact Traced.only_pure _
  · intro op hop
    obtain ⟨print, -, heq⟩ := List.mem_map.mp hop
    rw [← heq]
    rfl

/-- The kernel accepts the boot arguments of the loader, and writes no memory over it. -/
theorem validateBootArgs_ok {ptr top : UInt64} {memoryMap : List MemoryDescriptor}
    {dt : Loader.AppleDeviceTree}
    (hfilled : (fillBootArgs ptr memoryMap top dt).result = .ok args)
    (hdump : (dumpAppleDeviceTree memory args).result = .ok ()) :
    (validateBootArgs memory (some args)).result = .ok (some args) ∧
      (validateBootArgs memory (some args)).Only NoWrite := by
  obtain ⟨-, -, -, hrevision, hversion⟩ := fillBootArgs_ok hfilled
  have hknown : ¬ (args.revision ≠ bootArgsRevision2 ∨ args.version ≠ bootArgsVersion2) := by
    rw [hrevision, hversion]
    decide
  refine ⟨?_, ?_⟩
  · simp only [validateBootArgs, if_neg hknown, Traced.bind_result, printStr, printHexU64,
      Traced.emit_result, Outcome.ok_bind, hdump, Traced.pure_result]
  · simp only [validateBootArgs, if_neg hknown, printStr_bind_noWrite, printHexU64_bind_noWrite]
    exact Traced.only_bind (dumpAppleDeviceTree_noWrite _ _) fun _ => Traced.only_pure _

/-- What the kernel writes, from its entry on, is the user image at the load base. -/
theorem memOps_start {machoParse : List UInt8 → Option MachO} {bytes : List UInt8}
    {image : UserImage} {loadBase : UInt64} {env : Environment} {macho : MachO}
    {handOff : KernelHandOff} (h : HandedOver env macho handOff args)
    (hdump : (dumpAppleDeviceTree memory args).result = .ok ())
    (hbase : loadBaseOf (some args) = .ok loadBase)
    (hparse : (Exec.parse machoParse bytes).result = .ok (some image))
    (hroom : loadBase.toNat + image.span.toNat < 2 ^ 64) :
    Exec.memOps (start machoParse bytes memory (some args)).log = imageOps image loadBase := by
  obtain ⟨hvalid, hnoWrite⟩ := validateBootArgs_ok h.filled hdump
  have hlog : (start machoParse bytes memory (some args)).log =
      .uart (.str "xnu-rs: entered kernel _start\n") :: ((validateBootArgs memory (some args)).log ++
        .uart (.str "xnu-rs: launching test user binary at load_base=0x") ::
          .uart (.hexU64 loadBase.toNat) :: .uart (.str "\n") ::
            (loadAndRun machoParse bytes loadBase).log) := by
    simp only [start, printStr, printHexU64, Traced.emit_bind_log, Traced.bind_log_ok _ hvalid,
      hbase, Traced.lift_ok_bind]
  rw [hlog, memOps_uart, Exec.memOps_append, memOps_eq_nil hnoWrite, List.nil_append, memOps_uart,
    memOps_uart, memOps_uart, memOps_loadAndRun hparse hroom]

end Start

/-! ## Memory in use -/

/-- The pages of the device tree, the page of the boot arguments and the stack the
    kernel runs on. -/
def liveRegions (handOff : KernelHandOff) (args : BootArgs) : List (Span Nat) :=
  [⟨args.deviceTreeP.toNat, args.deviceTreeP.toNat + 4096 * pagesOf args.deviceTreeLength⟩,
    ⟨handOff.bootArgs.toNat, handOff.bootArgs.toNat + 4096⟩,
    ⟨handOff.stackTop.toNat - 4096 * stackPages, handOff.stackTop.toNat⟩]

/-- The firmware placed the regions at page boundaries, apart from each other and from
    the pages of the kernel image. -/
structure PlacedApart (env : Environment) (macho : MachO) (regions : List (Span Nat)) : Prop where
  aligned : ∀ r ∈ regions, r.start % 4096 = 0
  apart : regions.Pairwise fun r s => ∀ a, ¬ (r.Covers id a ∧ s.Covers id a)
  image : ∀ r ∈ regions, ∀ a, r.Covers id a →
    ¬ Allocated (allocateLoadRanges env.sort env.firmware macho).log a

/-- The memory the kernel takes for the user program: the span it zeroes and, if there is
    room for one, the stack. -/
def UserMemory (loadBase imageSpan : UInt64) (a : Nat) : Prop :=
  (loadBase.toNat ≤ a ∧ a < loadBase.toNat + imageSpan.toNat) ∨
    ∃ stackBase stackTop, placeStack loadBase imageSpan = .ok (stackBase, stackTop) ∧
      stackBase.toNat ≤ a ∧ a < stackTop.toNat

/-- Where that memory ends. -/
def userTop (loadBase imageSpan : UInt64) : Nat :=
  match placeStack loadBase imageSpan with
  | .ok (_, stackTop) => stackTop.toNat
  | .error _ => loadBase.toNat + imageSpan.toNat

/-- User memory and a region of whole pages meet unless one lies behind the other: the
    gap below the stack holds no page boundary. -/
theorem userMemory_apart_iff {loadBase imageSpan : UInt64} (hbase : loadBase.toNat % 4096 = 0)
    (hroom : loadBase.toNat + 2 * 1024 * 1024 ≤ 2 ^ 64) {r : Span Nat} (hr : r.start % 4096 = 0)
    (hlt : r.start < r.stop) :
    (∀ a, UserMemory loadBase imageSpan a → ¬ r.Covers id a) ↔
      r.stop ≤ loadBase.toNat ∨ userTop loadBase imageSpan ≤ r.start := by
  unfold userTop
  constructor
  · intro hapart
    by_contra hmeet
    -- the first address of the two regions that is in both ranges
    have hcovers : max r.start loadBase.toNat < r.stop →
        r.Covers id (max r.start loadBase.toNat) := fun h => ⟨le_max_left .., h⟩
    by_cases hspan : max r.start loadBase.toNat < loadBase.toNat + imageSpan.toNat
    · exact hapart _ (.inl ⟨le_max_right .., hspan⟩) (hcovers (by omega))
    · split at hmeet
      · rename_i stackBase stackTop hstack
        obtain ⟨-, hstackBase, hstackTop⟩ := Kernel.Exec.placeStack_eq_ok.mp hstack
        have hmod : max r.start loadBase.toNat % 4096 = 0 := by
          rcases max_choice r.start loadBase.toNat with h | h
          · rw [h, hr]
          · rw [h, hbase]
        have hle := roundUp_le_of_mod (by decide) hmod (not_lt.mp hspan)
        have hup := le_roundUp (n := loadBase.toNat + imageSpan.toNat) (a := 4096) (by decide)
        exact hapart _ (.inr ⟨stackBase, stackTop, hstack, by omega, by omega⟩)
          (hcovers (by omega))
      · -- no stack, so the span is not empty
        rename_i hstack
        have hpos : imageSpan.toNat ≠ 0 := by
          intro hzero
          have hplace : ∃ stackBase stackTop,
              placeStack loadBase imageSpan = .ok (stackBase, stackTop) :=
            Kernel.Exec.exists_placeStack (by omega)
          obtain ⟨stackBase, stackTop, h⟩ := hplace
          exact absurd (h.symm.trans hstack) (by simp)
        omega
  · rintro hsep a hin ⟨hle, hlt'⟩
    simp only [id] at hle hlt'
    rcases hin with ⟨hle', hlt''⟩ | ⟨stackBase, stackTop, hstack, hle', hlt''⟩
    · split at hsep
      · rename_i stackBase stackTop hstack
        obtain ⟨-, hstackBase, hstackTop⟩ := Kernel.Exec.placeStack_eq_ok.mp hstack
        have hup := le_roundUp (n := loadBase.toNat + imageSpan.toNat) (a := 4096) (by decide)
        omega
      · omega
    · obtain ⟨-, hstackBase, hstackTop⟩ := Kernel.Exec.placeStack_eq_ok.mp hstack
      have hup := le_roundUp (n := loadBase.toNat + imageSpan.toNat) (a := 4096) (by decide)
      rw [hstack] at hsep
      simp only at hsep
      omega

/-! ## The kernel image -/

/-- The load base is the end of the kernel, rounded up to 2 MiB. -/
theorem loadBaseOf_eq_ok {args : BootArgs} {loadBase : UInt64}
    (h : loadBaseOf (some args) = .ok loadBase) :
    loadBase.toNat = roundUp args.topOfKernelData.toNat (2 * 1024 * 1024) ∧
      loadBase.toNat + 2 * 1024 * 1024 ≤ 2 ^ 64 := by
  have hpow : (2 * 1024 * 1024 : UInt64).toNat = 2 ^ 21 := rfl
  obtain ⟨hroom, hbase⟩ := (Kernel.Exec.alignUp_eq_ok (by decide) hpow).mp h
  have hmod := roundUp_mod args.topOfKernelData.toNat (2 ^ 21)
  have hlt := loadBase.toNat_lt
  refine ⟨hbase, ?_⟩
  rw [← hbase] at hmod
  omega

/-- The pages of the kernel image lie below the load base. -/
theorem inPages_lt_loadBase {macho : MachO} {args : BootArgs} {loadBase : UInt64} {a : Nat}
    (htop : kernelTop macho = .ok args.topOfKernelData)
    (hbase : loadBaseOf (some args) = .ok loadBase) (hin : InPages macho.segments a) :
    a < loadBase.toNat := by
  obtain ⟨segment, hmem, -, -, hlt⟩ := hin
  have hstop := (kernelTopLoop_spec htop).2 segment hmem
  have heq := (loadBaseOf_eq_ok hbase).1
  have hmod := roundUp_mod args.topOfKernelData.toNat (2 * 1024 * 1024)
  have hup := le_roundUp (n := args.topOfKernelData.toNat) (a := 2 * 1024 * 1024) (by decide)
  have hpage := roundUp_le_of_mod (n := stopOf segment) (m := loadBase.toNat) (a := 4096)
    (by decide) (by omega) (by omega)
  omega

/-! ## The regions of a run -/

/-- None of the regions in use is empty. -/
theorem liveRegions_nonempty {env : Environment} {macho : MachO} {handOff : KernelHandOff}
    {args : BootArgs} (h : HandedOver env macho handOff args) :
    ∀ r ∈ liveRegions handOff args, r.start < r.stop := by
  obtain ⟨_, root, bytes, -, -, hbytes, -, hlen, -⟩ := buildAppleDeviceTree_ok.mp h.deviceTree
  obtain ⟨-, -, hencode⟩ := writeAdtNode_nil_eq_ok.mp hbytes
  have height := eight_le_encode_length root
  rw [← hencode, ← hlen] at height
  -- the serialized tree has its two counts at least
  have hpages : 0 < pagesOf args.deviceTreeLength := by
    rw [pagesOf, show pageSize.toNat = 4096 from rfl]
    simp only at height
    omega
  obtain ⟨ptr, -, hstack⟩ := allocateKernelStack_ok.mp h.stack
  intro r hr
  simp only [liveRegions, List.mem_cons, List.not_mem_nil, or_false] at hr
  rcases hr with hr | hr | hr
  · rw [hr]
    simp only
    omega
  · rw [hr]
    simp only
    omega
  · have hpos : 0 < stackPages := by decide
    rw [hr]
    simp only
    omega

/-- **The hand-off.**  The memory the kernel takes for the user program misses the kernel
    image always, and the device tree, the boot arguments and the running stack exactly
    when the firmware put each of them below the load base or behind the user stack. -/
theorem hand_off_safe_iff {env : Environment} {handOff : KernelHandOff} {args : BootArgs}
    {macho : MachO} {image : UserImage} {loadBase : UInt64}
    (hloaded : (loadAndJumpToKernel env).result = .ok (handOff, args))
    (hkernel : kernelOf env = some macho)
    (hplaced : PlacedApart env macho (liveRegions handOff args))
    (hbase : loadBaseOf (some args) = .ok loadBase) :
    (∀ a, UserMemory loadBase image.span a →
      ¬ Allocated (allocateLoadRanges env.sort env.firmware macho).log a ∧
        ∀ r ∈ liveRegions handOff args, ¬ r.Covers id a) ↔
      ∀ r ∈ liveRegions handOff args,
        r.stop ≤ loadBase.toNat ∨ userTop loadBase image.span ≤ r.start := by
  obtain ⟨macho', h⟩ := loadAndJumpToKernel_ok.mp hloaded
  have hsame : macho' = macho := Option.some.inj (h.kernel.symm.trans hkernel)
  subst hsame
  obtain ⟨heq, hroom⟩ := loadBaseOf_eq_ok hbase
  have hmod : loadBase.toNat % 4096 = 0 := by
    have hround := roundUp_mod args.topOfKernelData.toNat (2 * 1024 * 1024)
    omega
  have hregion : ∀ r ∈ liveRegions handOff args,
      (∀ a, UserMemory loadBase image.span a → ¬ r.Covers id a) ↔ _ :=
    fun r hr => userMemory_apart_iff hmod hroom (hplaced.aligned r hr) (liveRegions_nonempty h r hr)
  constructor
  · intro hsafe r hr
    apply (hregion r hr).mp
    intro a ha
    exact (hsafe a ha).2 r hr
  · intro hcond a ha
    refine ⟨?_, ?_⟩
    · intro hallocated
      have hlt := inPages_lt_loadBase h.top hbase ((allocated_iff h.placed).mp hallocated)
      -- user memory starts at the load base
      rcases ha with ⟨hle, -⟩ | ⟨stackBase, stackTop, hstack, hle, -⟩
      · omega
      · obtain ⟨-, hstackBase, -⟩ := Kernel.Exec.placeStack_eq_ok.mp hstack
        have hup := le_roundUp (n := loadBase.toNat + image.span.toNat) (a := 4096) (by decide)
        omega
    · intro r hr
      exact (hregion r hr).mpr (hcond r hr) a ha

/-! ## A stack in the way -/

open XnuRs.Kernel.Exec (textFile textMacho textImage)

/-- A machine whose firmware puts the kernel stack at `stack`, far from the device tree
    and the boot arguments. -/
def machine (stack : UInt64) : Environment where
  firmware :=
    { allocateAt := fun _ _ => .ok ()
      allocateAny := fun request _ =>
        .ok (match request with
          | 0 => 0x48000000
          | 1 => 0x47fff000
          | _ => stack) }
  sort := insertionSortByStart
  init := .ok ()
  imageFileSystem := .ok ()
  kernelFile := some (textFile 0x40000000)
  machoParse := Macho.parse
  configTables := []
  memory := fun _ => 0
  memoryMap := [⟨0x40000000, 0x40000⟩]

/-- The tree the loader makes up on such a machine. -/
def machineTree : AdtNode :=
  ⟨[⟨"name", asBytes "/"⟩, ⟨"compatible", asBytes "linux,dummy-virt"⟩,
      ⟨"model", asBytes "xnu-rs qemu virt"⟩, ⟨"#address-cells", beBytes 4 2⟩,
      ⟨"#size-cells", beBytes 4 2⟩],
    [⟨[⟨"name", asBytes "chosen"⟩, ⟨"bootargs", asBytes "rd=*devfs"⟩], []⟩,
      ⟨[⟨"name", asBytes "memory"⟩, ⟨"device_type", asBytes "memory"⟩,
        ⟨"reg", qemuVirtMemoryReg⟩], []⟩]⟩

/-- The boot arguments there. -/
def machineArgs : BootArgs :=
  { BootArgs.zeroed with
    physBase := 0x40000000
    memSize := 0x40000000
    memSizeActual := 0x40000000
    topOfKernelData := 0x40000010
    deviceTreeP := 0x48000000
    deviceTreeLength := 480 }

theorem machine_placed (stack : UInt64) :
    (allocateLoadRanges (machine stack).sort (machine stack).firmware
      (textMacho 0x40000000)).result = .ok () :=
  allocateLoadRanges_ok (by decide) fun _ _ => rfl

/-- A stack between the kernel and the boot arguments. -/
structure LowStack (stack stackTop : UInt64) : Prop where
  aligned : stack.toNat % 4096 = 0
  low : 0x40001000 ≤ stack.toNat
  high : stackTop.toNat ≤ 0x47fff000
  top : stackTop.toNat = stack.toNat + 4096 * stackPages

theorem LowStack.handedOver {stack stackTop : UInt64} (h : LowStack stack stackTop) :
    HandedOver (machine stack) (textMacho 0x40000000) ⟨0x40000000, 0x47fff000, stackTop⟩
      machineArgs where
  init := rfl
  imageFileSystem := rfl
  kernel := by
    simp only [kernelOf, machine, Option.bind_some]
    decide +kernel
  placed := machine_placed stack
  deviceTree := buildAppleDeviceTree_ok.mpr ⟨none, machineTree, machineTree.encode, rfl, rfl,
    writeAdtNode_nil_eq_ok.mpr ⟨by decide +kernel, by decide +kernel, rfl⟩, by decide +kernel,
    by decide +kernel, rfl⟩
  bootArgs := rfl
  stack := allocateKernelStack_ok.mpr ⟨stack, rfl, h.top⟩
  top := by decide
  entry := rfl
  filled := by
    show (fillBootArgs 0x47fff000 [⟨0x40000000, 0x40000⟩] _ _).result = _
    decide

theorem LowStack.placedApart {stack stackTop : UInt64} (h : LowStack stack stackTop) :
    PlacedApart (machine stack) (textMacho 0x40000000)
      (liveRegions ⟨0x40000000, 0x47fff000, stackTop⟩ machineArgs) := by
  -- one page for the tree, one for the arguments, and the stack
  have hregions : liveRegions ⟨0x40000000, 0x47fff000, stackTop⟩ machineArgs =
      [⟨0x48000000, 0x48001000⟩, ⟨0x47fff000, 0x48000000⟩, ⟨stack.toNat, stackTop.toNat⟩] := by
    simp only [liveRegions, h.top, Nat.add_sub_cancel]
    rfl
  have hlow := h.low
  have hhigh := h.high
  rw [hregions]
  refine ⟨?_, ?_, ?_⟩
  · simp [h.aligned]
  · simp only [List.pairwise_cons, List.mem_cons, List.not_mem_nil, or_false, forall_eq_or_imp,
      forall_eq, Span.Covers, id]
    refine ⟨⟨?_, ?_⟩, ?_, ?_⟩
    · omega
    · omega
    · omega
    · simp
  · rintro r hr a ⟨hle, -⟩ hallocated
    obtain ⟨segment, hmem, -, -, hlt⟩ := (allocated_iff (machine_placed stack)).mp hallocated
    rw [List.mem_singleton.mp hmem] at hlt
    have hend : a < 0x40001000 := hlt
    simp only [List.mem_cons, List.not_mem_nil, or_false] at hr
    rcases hr with hr | hr | hr
    · rw [hr] at hle
      exact absurd (hle.trans_lt hend) (by decide)
    · rw [hr] at hle
      exact absurd (hle.trans_lt hend) (by decide)
    · rw [hr] at hle
      exact absurd (hlow.trans hle) (not_le.mpr hend)

/-- A stack far above the user program is safe. -/
theorem hand_off_safe_iff_far_stack :
    (∀ r ∈ liveRegions ⟨0x40000000, 0x47fff000, 0x47010000⟩ machineArgs,
      r.stop ≤ (0x40200000 : UInt64).toNat ∨
        userTop 0x40200000 (textImage 0x100000000).span ≤ r.start) ∧
      ∀ a, UserMemory 0x40200000 (textImage 0x100000000).span a →
        ¬ Allocated (allocateLoadRanges (machine 0x47000000).sort (machine 0x47000000).firmware
            (textMacho 0x40000000)).log a ∧
          ∀ r ∈ liveRegions ⟨0x40000000, 0x47fff000, 0x47010000⟩ machineArgs,
            ¬ r.Covers id a := by
  have hlow : LowStack 0x47000000 0x47010000 := ⟨by decide, by decide, by decide, by decide⟩
  have hcond : ∀ r ∈ liveRegions ⟨0x40000000, 0x47fff000, 0x47010000⟩ machineArgs,
      r.stop ≤ (0x40200000 : UInt64).toNat ∨
        userTop 0x40200000 (textImage 0x100000000).span ≤ r.start := by decide
  exact ⟨hcond, (hand_off_safe_iff (loadAndJumpToKernel_ok.mpr ⟨_, hlow.handedOver⟩)
    hlow.handedOver.kernel hlow.placedApart (by decide)).mpr hcond⟩

/-- A stack that starts at the load base is overwritten. -/
theorem machine_stack_overwritten :
    ¬ ∀ env handOff args macho loadBase (image : UserImage),
      (loadAndJumpToKernel env).result = .ok (handOff, args) → kernelOf env = some macho →
      PlacedApart env macho (liveRegions handOff args) → loadBaseOf (some args) = .ok loadBase →
        ∀ a, UserMemory loadBase image.span a →
          ¬ Allocated (allocateLoadRanges env.sort env.firmware macho).log a ∧
            ∀ r ∈ liveRegions handOff args, ¬ r.Covers id a := by
  intro hclaim
  have hlow : LowStack 0x40200000 0x40210000 := ⟨by decide, by decide, by decide, by decide⟩
  have hsafe := hclaim _ _ _ _ 0x40200000 (textImage 0x100000000)
    (loadAndJumpToKernel_ok.mpr ⟨_, hlow.handedOver⟩) hlow.handedOver.kernel hlow.placedApart
    (by decide) 0x40200000 (.inl ⟨by decide, by decide⟩)
  exact hsafe.2 ⟨0x40200000, 0x40210000⟩ (by decide) ⟨by decide, by decide⟩

end XnuRs.Boot
