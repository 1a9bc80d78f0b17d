/-
  XnuRs.Boot.PowerOn

  From the firmware to the end of the user program.

  The loader leaves the kernel, the device tree, the boot arguments and a stack
  in memory, and jumps; the kernel prints what it finds and places the user
  program behind itself; the program runs at EL0, on a kernel that keeps its
  frames on the stack of the loader (`boot_to_exit`).
-/

import XnuRs.Boot.Console
import XnuRs.Boot.Hello

namespace XnuRs.Boot

open XnuRs.Loader XnuRs.Macho XnuRs.DeviceTree
open XnuRs.Kernel XnuRs.Kernel.Exec
open AArch64

variable {env : Environment} {macho : MachO} {handOff : KernelHandOff} {args : BootArgs}
  {loadBase : UInt64}

/-! ## The memory of the kernel -/

/-- The stack that the loader allocated for the kernel. -/
def OnStack (handOff : KernelHandOff) (a : UInt64) : Prop :=
  handOff.stackTop.toNat - 4096 * stackPages ≤ a.toNat ∧ a.toNat < handOff.stackTop.toNat

/-- A frame below a stack pointer that is not too low lies on the stack. -/
theorem frameInKernel_onStack {sp : UInt64}
    (hlow : handOff.stackTop.toNat - 4096 * stackPages + 272 ≤ sp.toNat)
    (hhigh : sp ≤ handOff.stackTop) : FrameInKernel (OnStack handOff) sp := by
  have h272 : (272 : UInt64).toNat = 272 := rfl
  have hframe : (sp - 272).toNat = sp.toNat - 272 := by
    apply UInt64.toNat_sub_of_le
    rw [UInt64.le_iff_toNat_le, h272]
    omega
  intro a ha
  have hsp := UInt64.le_iff_toNat_le.mp hhigh
  have hlt := a.toNat_lt
  have htop := handOff.stackTop.toNat_lt
  rw [UInt64.toNat_sub, hframe] at ha
  refine ⟨?_, ?_⟩
  · omega
  · omega

/-- The kernel writes to the memory of the user program only. -/
theorem imageOps_outside {m : Memory} {a : Nat} (ha : ¬ UserMemory loadBase testImage.span a) :
    m.run (imageOps testImage loadBase) a = m a := by
  have hspan : testImage.span.toNat = 4096 := by rw [testImage_span]; rfl
  have hout : ¬ (loadBase.toNat ≤ a ∧ a < loadBase.toNat + 4096) := by
    rw [← hspan]
    exact fun h => ha (.inl h)
  refine Memory.run_of_untouched fun op hop => ?_
  rw [imageOps_testImage, List.mem_cons, List.mem_singleton] at hop
  rcases hop with rfl | rfl
  · rw [MemOp.byteAt, hspan, if_neg hout]
  · rw [MemOp.byteAt_copy_eq_none, testCode_length]
    omega

/-- The memory in which the user program is entered: what the loader left is still there.  The
    statics of the kernel are not a part of this memory. -/
structure LeftAtEntry (env : Environment) (macho : MachO) (handOff : KernelHandOff)
    (args : BootArgs) (root : AdtNode) (m m' : Memory) : Prop where
  image : ∀ a, InPages macho.segments a → m' a = imageMemory env.sort env.firmware macho m a
  tree : m'.slice args.deviceTreeP.toNat args.deviceTreeLength = root.encode
  args : readArgs m' handOff.bootArgs.toNat = args

/-- The user program is placed behind everything that the loader left, or below it. -/
theorem leftAtEntry (h : HandedOver env macho handOff args)
    (hplaced : PlacedApart env macho (liveRegions handOff args))
    (hbase : loadBaseOf (some args) = .ok loadBase)
    (hregions : ∀ r ∈ liveRegions handOff args, ∀ a, UserMemory loadBase testImage.span a →
      ¬ r.Covers id a) {pad : Nat → UInt8} {m : Memory} {root : AdtNode}
    (htree : (jumpMemory pad env m).slice args.deviceTreeP.toNat args.deviceTreeLength =
      root.encode) :
    LeftAtEntry env macho handOff args root m
      ((jumpMemory pad env m).run (imageOps testImage loadBase)) := by
  obtain ⟨_, _, -, -, -, hlen, -⟩ := loadAndJumpToKernel_stores h pad
  have htreeRegion := hregions _ (List.mem_cons_self ..)
  have hargsRegion := hregions _ (List.mem_cons_of_mem _ (List.mem_cons_self ..))
  have hpages := le_pagesOf args.deviceTreeLength
  refine ⟨fun a hin => ?_, ?_, ?_⟩
  · have hlt := inPages_lt_loadBase h.top hbase hin
    obtain ⟨htreeOut, hargsOut⟩ := image_apart hplaced h.placed hin
    rw [imageOps_outside, jumpMemory_outside h m htreeOut hargsOut]
    -- user memory starts at the load base
    rintro (⟨hle, -⟩ | ⟨stackBase, stackTop, hstack, hle, -⟩)
    · omega
    · obtain ⟨-, hstackBase, -⟩ := placeStack_eq_ok.mp hstack
      have hup := le_roundUp (n := loadBase.toNat + testImage.span.toNat) (a := 4096) (by decide)
      omega
  · rw [← htree]
    refine Memory.slice_congr fun a hle hlt => imageOps_outside fun huser => htreeRegion a huser ?_
    refine ⟨hle, ?_⟩
    show a < args.deviceTreeP.toNat + 4096 * pagesOf args.deviceTreeLength
    omega
  · refine readArgs_of_stored ((Memory.slice_congr fun a hle hlt => ?_).trans
      (jumpMemory_args h pad m)) hlen
    refine imageOps_outside fun huser => hargsRegion a huser ?_
    rw [structSize_bootArgs] at hlt
    refine ⟨hle, ?_⟩
    show a < handOff.bootArgs.toNat + 4096
    omega

/-! ## The whole boot -/

/-- The prints of a run, in front of the others. -/
theorem consoleBytes_prefix {ops : List UartOp} {log : List KernelOp}
    (h : ops.map .uart <+: log) : consoleBytes ops <+: consoleBytes (printed log) := by
  have hops : printed (ops.map .uart) = ops := by
    rw [printed, List.filterMap_map]
    exact List.filterMap_some
  obtain ⟨rest, hrest⟩ := h.filterMap _
  rw [← printed, ← printed, hops] at hrest
  rw [← hrest, consoleBytes_append]
  exact List.prefix_append ..

/-- The first prints of the kernel, on what the loader left. -/
theorem start_bootLog {memory : Memory} {root : AdtNode} (h : HandedOver env macho handOff args)
    (hptr : args.deviceTreeP ≠ 0) (hreadable : root.Everywhere Readable)
    (hmax : root.encode.length ≤ isizeMax)
    (htree : memory.slice args.deviceTreeP.toNat args.deviceTreeLength = root.encode)
    (machoParse : List UInt8 → Option MachO) (bytes : List UInt8) :
    (bootLog args root).map .uart <+: (start machoParse bytes memory (some args)).log := by
  obtain ⟨-, -, -, hrevision, hversion⟩ := fillBootArgs_ok h.filled
  exact start_prefix (validateBootArgs_eq hrevision hversion hptr hreadable hmax htree) _ _

/-- The program and the stack of the kernel lie apart. -/
theorem placed_onStack (hroom : loadBase.toNat + 2 ^ 21 ≤ 2 ^ 64)
    (hregions : ∀ r ∈ liveRegions handOff args, ∀ a, UserMemory loadBase testImage.span a →
      ¬ r.Covers id a) : Placed (OnStack handOff) loadBase := by
  have hspan : testImage.span.toNat = 4096 := by rw [testImage_span]; rfl
  refine ⟨by omega, fun i hi => ?_⟩
  have hi64 : (UInt64.ofNat i).toNat = i := UInt64.toNat_ofNat_of_lt' (show i < 2 ^ 64 by omega)
  have hsum : (loadBase + .ofNat i).toNat = loadBase.toNat + i := by
    rw [toNat_add_of_lt (by omega), hi64]
  have huser : UserMemory loadBase testImage.span (loadBase.toNat + i) := .inl (by omega)
  have hstack : ⟨handOff.stackTop.toNat - 4096 * stackPages, handOff.stackTop.toNat⟩ ∈
      liveRegions handOff args := by simp [liveRegions]
  rintro ⟨hle, hlt⟩
  rw [hsum] at hle hlt
  exact hregions _ hstack _ huser (Span.covers_id.mpr ⟨hle, hlt⟩)

/-- **From the firmware to the exit of the user program.**  The loader has reached its jump, and
    the firmware has put what stays in use below the load base of the user program or behind
    its stack.  Then the kernel prints its boot arguments and the device tree and gets to EL0, with
    its image, the tree and the arguments as the loader left them.  Any machine that enters the
    program there, with its kernel stack on the one of the loader, runs it: unless the kernel
    faults, every run can be continued until the machine spins, and then the console holds what
    the kernel printed, the message of the program, and the text of its exit. -/
theorem boot_to_exit {machoParse : List UInt8 → Option MachO}
    (hloaded : (loadAndJumpToKernel env).result = .ok (handOff, args))
    (hkernel : kernelOf env = some macho)
    (hplaced : PlacedApart env macho (liveRegions handOff args)) (hptr : args.deviceTreeP ≠ 0)
    (hbase : loadBaseOf (some args) = .ok loadBase)
    (hregions : ∀ r ∈ liveRegions handOff args,
      r.stop ≤ loadBase.toNat ∨ userTop loadBase testImage.span ≤ r.start)
    (hparser : machoParse testUserMacho = Macho.parse testUserMacho)
    (pad : Nat → UInt8) (m : Memory) :
    let memory := jumpMemory pad env m
    let run := start machoParse testUserMacho memory
      (some (readArgs memory handOff.bootArgs.toNat))
    let console := consoleBytes (printed run.log)
    run.result = .ok .el0 ∧
    ∃ fdt root, findFdt env.memory env.configTables = .ok fdt ∧ appleDeviceTree fdt = .ok root ∧
      consoleBytes (bootLog args root) <+: console ∧
      LeftAtEntry env macho handOff args root m (memory.run (Exec.memOps run.log)) ∧
      ∀ (sp : UInt64) (t : Machine) (events : List SystemEvent) (s' : System),
        handOff.stackTop.toNat - 4096 * stackPages + 272 ≤ sp.toNat → sp ≤ handOff.stackTop →
        Entering sp loadBase (userFrame testImage loadBase) (memory.run (Exec.memOps run.log)) t →
        Runs (System.Step (OnStack handOff) a64Code) ⟨execAll userEnter t, .user, console⟩
          events s' →
        .fault ∉ events →
          (s'.mode = .spinning →
            s'.console = console ++ (asBytes "Hello from EL0!\n" ++ exitText 42)) ∧
          ∃ more s'', Runs (System.Step (OnStack handOff) a64Code) s' more s'' ∧ .fault ∉ more ∧
            s''.mode = .spinning := by
  intro memory run console
  obtain ⟨macho', h⟩ := loadAndJumpToKernel_ok.mp hloaded
  obtain rfl : macho' = macho := Option.some.inj (h.kernel.symm.trans hkernel)
  obtain ⟨heq, hroom⟩ := loadBaseOf_eq_ok hbase
  have hmod : loadBase.toNat % 4096 = 0 := by
    have hround := roundUp_mod args.topOfKernelData.toNat (2 * 1024 * 1024)
    omega
  have hapart : ∀ r ∈ liveRegions handOff args, ∀ a, UserMemory loadBase testImage.span a →
      ¬ r.Covers id a := fun r hr =>
    (userMemory_apart_iff hmod hroom (hplaced.aligned r hr) (liveRegions_nonempty h r hr)).mpr
      (hregions r hr)
  obtain ⟨-, -, -, hrevision, hversion⟩ := fillBootArgs_ok h.filled
  obtain ⟨_, _, -, -, -, hlen, -⟩ := loadAndJumpToKernel_stores h pad
  have hargs : readArgs memory handOff.bootArgs.toNat = args := readArgs_jumpMemory h pad m
  have haccepted : acceptedArgs (some args) = some args := by
    rw [acceptedArgs, Option.filter_some, if_pos]
    exact decide_eq_true ⟨hrevision, hversion⟩
  have hrun : run = start machoParse testUserMacho memory (some args) := by rw [← hargs]
  obtain ⟨-, hresult, -, hops⟩ := start_testUser hparser memory
    (fun args' hsome => by obtain rfl := Option.some.inj hsome; exact hlen)
    (haccepted.symm ▸ hbase)
  rw [← hrun] at hresult hops
  obtain ⟨fdt, root, hfdt, hroot, htree⟩ := jumpMemory_tree h hplaced pad m
  obtain ⟨hreadable, hmax⟩ := appleDeviceTree_readable hroot
  rw [hops]
  refine ⟨hresult, fdt, root, hfdt, hroot, consoleBytes_prefix ?_,
    leftAtEntry h hplaced hbase hapart htree, ?_⟩
  · rw [hrun]
    exact start_bootLog h hptr hreadable hmax htree _ _
  · intro sp t events s' hlow hhigh hentering hsteps hfault
    have hhello := hentering.saysHello (frameInKernel_onStack hlow hhigh)
      (placed_onStack (by omega) hapart) hsteps hfault
    exact ⟨hhello.finished, hhello.completes⟩

/-- On a machine whose firmware puts everything behind the program. -/
theorem boot_to_exit_machine :
    let memory := jumpMemory (fun _ => 0) (machine 0x47000000) fun _ => 0
    let run := start Macho.parse testUserMacho memory
      (some (readArgs memory (0x47fff000 : UInt64).toNat))
    ∃ (t : Machine) (events : List SystemEvent) (s' : System),
      Runs (System.Step (OnStack ⟨0x40000000, 0x47fff000, 0x47010000⟩) a64Code)
        ⟨execAll userEnter t, .user, consoleBytes (printed run.log)⟩ events s' ∧
      s'.mode = .spinning ∧
      s'.console = consoleBytes (printed run.log) ++ (asBytes "Hello from EL0!\n" ++ exitText 42) := by
  intro memory run
  have hlow : LowStack 0x47000000 0x47010000 := ⟨by decide, by decide, by decide, by decide⟩
  obtain ⟨-, fdt, root, -, -, -, -, hruns⟩ := boot_to_exit
    (loadAndJumpToKernel_ok.mpr ⟨_, hlow.handedOver⟩) hlow.handedOver.kernel hlow.placedApart
    (by decide) (show loadBaseOf (some machineArgs) = .ok 0x40200000 by decide +kernel)
    (by decide +kernel) (show Macho.parse testUserMacho = _ from rfl) (fun _ => 0) fun _ => 0
  obtain ⟨t, ht⟩ := exists_entering 0x47010000 0x40200000 (userFrame testImage 0x40200000)
    (memory.run (Exec.memOps run.log))
  have hhigh : (0x47010000 : UInt64) ≤ 0x47010000 := by decide
  have hdeep : (0x47010000 : UInt64).toNat - 4096 * stackPages + 272 ≤
    (0x47010000 : UInt64).toNat := by decide
  obtain ⟨-, more, s', hrun, hfault, hmode⟩ := hruns _ t [] _ hdeep hhigh ht .start nofun
  obtain ⟨hwhole, -⟩ := hruns _ t more s' hdeep hhigh ht hrun hfault
  exact ⟨t, more, s', hrun, hmode, hwhole hmode⟩

end XnuRs.Boot
