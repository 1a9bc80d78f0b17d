/-
  XnuRs.Boot.Hello

  The kernel runs the program it is built with.

  From its entry on, for all boot arguments with room behind the kernel, the
  kernel places the program, enters it, writes its message to the console and
  spins after its exit (`hello_from_el0`).
-/

import XnuRs.Boot.Entry
import XnuRs.Kernel.TestUserResults

namespace XnuRs.Boot

open XnuRs.Kernel XnuRs.Kernel.Exec
open AArch64
open XnuRs.Loader (BootArgs)

variable {machoParse : List UInt8 → Option Macho.MachO} {bytes : List UInt8} {memory : Memory}
  {bootArgs : Option BootArgs} {image : UserImage} {loadBase : UInt64}

/-! ## The memory of the user program -/

theorem validateBootArgs_noWrite (memory : Memory) (bootArgs : Option BootArgs) :
    (validateBootArgs memory bootArgs).Only NoWrite := by
  cases bootArgs with
  | none =>
      rw [validateBootArgs, printStr_bind_noWrite]
      exact Traced.only_pure _
  | some args =>
      simp only [validateBootArgs, printStr_bind_noWrite, printHexU64_bind_noWrite]
      split
      · rw [printStr_bind_noWrite]
        exact Traced.only_pure _
      · exact Traced.only_bind (dumpAppleDeviceTree_noWrite _ _) fun _ => Traced.only_pure _

/-- With any boot arguments, all that the kernel writes is the user image. -/
theorem memOps_start_image (hlen : ∀ args, bootArgs = some args → args.deviceTreeLength < 2 ^ 32)
    (hbase : loadBaseOf (acceptedArgs bootArgs) = .ok loadBase)
    (hparse : (Exec.parse machoParse bytes).result = .ok (some image))
    (hroom : loadBase.toNat + image.span.toNat < 2 ^ 64) :
    Exec.memOps (start machoParse bytes memory bootArgs).log = imageOps image loadBase := by
  have hlog : (start machoParse bytes memory bootArgs).log =
      .uart (.str "xnu-rs: entered kernel _start\n") ::
        ((validateBootArgs memory bootArgs).log ++
          .uart (.str "xnu-rs: launching test user binary at load_base=0x") ::
            .uart (.hexU64 loadBase.toNat) :: .uart (.str "\n") ::
              (loadAndRun machoParse bytes loadBase).log) := by
    simp only [start, printStr, printHexU64, Traced.emit_bind_log,
      Traced.bind_log_ok _ (validateBootArgs_result hlen), hbase, Traced.lift_ok_bind]
  rw [hlog, memOps_uart, Exec.memOps_append, memOps_eq_nil (validateBootArgs_noWrite _ _),
    List.nil_append, memOps_uart, memOps_uart, memOps_uart, memOps_loadAndRun hparse hroom]

/-- What the kernel makes of the file it is built with. -/
def testImage : UserImage where
  segments := [⟨0x100000000, 0x1000, testCode⟩]
  entryVa := 0x100000000
  linkBase := 0x100000000

theorem parse_testUserMacho (h : machoParse testUserMacho = Macho.parse testUserMacho) :
    (Exec.parse machoParse testUserMacho).result = .ok (some testImage) := by
  have hparse : (Exec.parse Macho.parse testUserMacho).result = .ok (some testImage) := by
    decide +kernel
  rw [Exec.parse, h, ← Exec.parse, hparse]

theorem testImage_span : testImage.span = 0x1000 := by decide

theorem imageOps_testImage (loadBase : UInt64) : imageOps testImage loadBase =
    [.fill loadBase.toNat testImage.span.toNat 0, .copy loadBase.toNat testCode] := by
  have hcopied : copied ⟨0x100000000, 0x1000, testCode⟩ = testCode := by decide +kernel
  show [_, MemOp.copy (loadBase.toNat + 0) (copied _)] = _
  rw [hcopied, Nat.add_zero]

/-- Behind the kernel's writes, the program stands at the load base. -/
theorem testImage_bytes (m : Memory) {i : Nat} (hi : i < testCode.length) :
    testCode[i]? = some (m.run (imageOps testImage loadBase) (loadBase.toNat + i)) := by
  have hbyte : (MemOp.copy loadBase.toNat testCode).byteAt (loadBase.toNat + i) = testCode[i]? :=
    MemOp.byteAt_copy_add ..
  rw [imageOps_testImage]
  show testCode[i]? = some (Memory.apply _ _ _)
  rw [Memory.apply, hbyte, List.getElem?_eq_getElem hi, Option.getD_some]

/-- The machine is about to enter the user program in `frame`: the kernel stack is empty, and
    the memory of the program is as in `m`. -/
structure Entering (sp loadBase : UInt64) (frame : TrapFrame) (m : Memory) (t : Machine) :
    Prop where
  spEl1 : t.spEl1 = sp
  frame : TrapFrame.read t.mem (t.x 0) = frame
  mem : ∀ i < 48, t.mem (loadBase + .ofNat i) = m (loadBase.toNat + i)

/-! ## The whole run -/

/-- The image can be entered at every load base that there is. -/
theorem testImage_enterable (hbase : loadBase.toNat + 2 ^ 21 ≤ 2 ^ 64) :
    Enterable testImage loadBase := by
  have hround := roundUp_lt (n := loadBase.toNat + testImage.span.toNat) (a := 4096) (by decide)
  rw [testImage_span] at hround
  have hspan : (0x1000 : UInt64).toNat = 4096 := rfl
  refine ⟨by decide, ?_, ?_⟩
  · show loadBase.toNat + 0 < 2 ^ 64
    omega
  · rw [stackTopOf, testImage_span]
    omega

/-- From the entry on, the kernel gets to EL0 with the program at the load base. -/
theorem start_testUser (hparser : machoParse testUserMacho = Macho.parse testUserMacho)
    (memory : Memory) (hlen : ∀ args, bootArgs = some args → args.deviceTreeLength < 2 ^ 32)
    (hok : loadBaseOf (acceptedArgs bootArgs) = .ok loadBase) :
    loadBase.toNat + 2 ^ 21 ≤ 2 ^ 64 ∧
    (start machoParse testUserMacho memory bootArgs).result = .ok .el0 ∧
    [.installVectors, .userEnter (userFrame testImage loadBase)] <:+
      (start machoParse testUserMacho memory bootArgs).log ∧
    Exec.memOps (start machoParse testUserMacho memory bootArgs).log =
      imageOps testImage loadBase := by
  have hparse := parse_testUserMacho hparser
  obtain ⟨hend, hbase⟩ := loadBaseOf_accepted.mp hok
  have htop : loadBase.toNat + 2 ^ 21 ≤ 2 ^ 64 := by
    have hmod := roundUp_mod (kernelEnd bootArgs).toNat (2 ^ 21)
    have hlt := loadBase.toNat_lt
    omega
  have hspan : testImage.span.toNat = 4096 := by rw [testImage_span]; rfl
  have henter := testImage_enterable htop
  refine ⟨htop, ?_, (henter.suffix_log hparse).trans (start_log hlen hok),
    memOps_start_image hlen hok hparse (by omega)⟩
  have hall : (start machoParse testUserMacho memory bootArgs).result = _ := start_result hlen
  rw [hall, hok, Outcome.ok_bind, loadAndRun_some loadBase hparse,
    henter.loadImage_ok (based_of_parse hparse), Outcome.ok_bind, (enterImage_ok henter).1]

/-- What a run of the program has come to: `console` is what was on the console before. -/
structure SaysHello (kernelMemory : UInt64 → Prop) (console : List UInt8)
    (events : List SystemEvent) (s : System) : Prop where
  length_le : events.length ≤ 29
  said : s.console <+: console ++ (asBytes "Hello from EL0!\n" ++ exitText 42)
  finished : s.mode = .spinning → s.console = console ++ (asBytes "Hello from EL0!\n" ++ exitText 42)
  completes : ∃ more s', Runs (System.Step kernelMemory a64Code) s more s' ∧ .fault ∉ more ∧
    s'.mode = .spinning

/-- A machine that enters the program runs it, while the kernel does not fault. -/
theorem Entering.saysHello {kernelMemory : UInt64 → Prop} {sp : UInt64} {m : Memory} {t : Machine}
    {console : List UInt8} {events : List SystemEvent} {s' : System}
    (hentering : Entering sp loadBase (userFrame testImage loadBase)
      (m.run (imageOps testImage loadBase)) t)
    (hframe : FrameInKernel kernelMemory sp) (hplaced : Placed kernelMemory loadBase)
    (hrun : Runs (System.Step kernelMemory a64Code) ⟨execAll userEnter t, .user, console⟩ events s')
    (hfault : .fault ∉ events) : SaysHello kernelMemory console events s' := by
  -- the machine behind `user_enter` is at the first instruction
  have hat : At loadBase 0 [] (.of (execAll userEnter t)) := by
    rw [execAll_userEnter, hentering.frame]
    refine ⟨fun i hi => ?_, ?_, nofun⟩
    · rw [testImage_bytes m hi]
      rw [testCode_length] at hi
      exact congrArg some (hentering.mem i hi).symm
    · show UInt64.ofNat (loadBase.toNat + 0) = loadBase + 0
      rw [Nat.add_zero, UInt64.ofNat_toNat, UInt64.add_zero]
  have hsp : (execAll userEnter t).spEl1 = sp := by
    rw [execAll_userEnter]
    exact hentering.spEl1
  have hstage := stage_of_run hframe hplaced hsp hat hrun hfault
  obtain ⟨hcount, htext, -, hwhole⟩ := hstage.facts
  exact ⟨hcount, htext, hwhole, hstage.complete hframe hplaced⟩

/-- **Hello from EL0.**  Whatever the boot arguments are, as long as there is room behind the
    kernel: the kernel gets to EL0, and any machine that enters the frame there, over what the
    kernel wrote, runs the program to its end.  Unless the kernel faults, every run has at most
    29 events and can be continued until the machine spins; what it prints is the message and the
    text of an exit with 42, whole when it spins, and nothing else before. -/
theorem hello_from_el0 (hparser : machoParse testUserMacho = Macho.parse testUserMacho)
    (memory : Memory) (hlen : ∀ args, bootArgs = some args → args.deviceTreeLength < 2 ^ 32)
    (hend : (kernelEnd bootArgs).toNat + 2 ^ 21 < 2 ^ 64)
    (hbase : loadBase.toNat = roundUp (kernelEnd bootArgs).toNat (2 ^ 21)) :
    let run := start machoParse testUserMacho memory bootArgs
    let frame := userFrame testImage loadBase
    run.result = .ok .el0 ∧ [.installVectors, .userEnter frame] <:+ run.log ∧
    ∀ (kernelMemory : UInt64 → Prop) (sp : UInt64) (m : Memory) (t : Machine)
      (console : List UInt8) (events : List SystemEvent) (s' : System),
      FrameInKernel kernelMemory sp → (∀ i < 48, ¬ kernelMemory (loadBase + .ofNat i)) →
      Entering sp loadBase frame (m.run (Exec.memOps run.log)) t →
      Runs (System.Step kernelMemory a64Code) ⟨execAll userEnter t, .user, console⟩ events s' →
      .fault ∉ events →
        events.length ≤ 29 ∧
        s'.console <+: console ++ (asBytes "Hello from EL0!\n" ++ exitText 42) ∧
        (s'.mode = .spinning →
          s'.console = console ++ (asBytes "Hello from EL0!\n" ++ exitText 42)) ∧
        ∃ more s'', Runs (System.Step kernelMemory a64Code) s' more s'' ∧ .fault ∉ more ∧
          s''.mode = .spinning := by
  intro run frame
  obtain ⟨htop, hresult, hsuffix, hops⟩ :=
    start_testUser hparser memory hlen (loadBaseOf_accepted.mpr ⟨hend, hbase⟩)
  refine ⟨hresult, hsuffix, ?_⟩
  intro kernelMemory sp m t console events s' hframe houtside hentering hrun hfault
  have hentering : Entering sp loadBase frame (m.run (imageOps testImage loadBase)) t :=
    hops ▸ hentering
  obtain ⟨hcount, htext, hwhole, hcompletes⟩ :=
    hentering.saysHello hframe ⟨by omega, houtside⟩ hrun hfault
  exact ⟨hcount, htext, hwhole, hcompletes⟩

/-- There are machines that enter a program in any frame. -/
theorem exists_entering (sp loadBase : UInt64) (frame : TrapFrame) (m : Memory) :
    ∃ t, Entering sp loadBase frame m t := by
  -- the frame lies right behind the program
  obtain ⟨framed, hframed⟩ := frame.exists_read (loadBase + 48)
  let mem : Mem := fun a =>
    if (a - (loadBase + 48)).toNat < 272 then framed a else m (loadBase.toNat + (a - loadBase).toNat)
  have hword : ∀ k < 34, word mem (slot (loadBase + 48) k) = word framed (slot (loadBase + 48) k) := by
    intro k hk
    refine word_congr fun i hi => if_pos ?_
    have hoffset : slot (loadBase + 48) k + .ofNat i - (loadBase + 48) = .ofNat (8 * k + i) := by
      rw [slot, UInt64.add_assoc, ← UInt64.ofNat_add, UInt64.add_comm, UInt64.add_sub_cancel]
    rw [hoffset, UInt64.toNat_ofNat_of_lt' (show 8 * k + i < 2 ^ 64 by omega)]
    omega
  obtain ⟨hx, hspEl0, hpc, hpstate⟩ := TrapFrame.read_eq_iff.mp hframed
  refine ⟨⟨fun _ => loadBase + 48, sp, fun _ => 0, 0, 0, mem⟩, rfl, ?_, fun i hi => ?_⟩
  · refine TrapFrame.read_eq_iff.mpr ⟨fun r => ?_, ?_, ?_, ?_⟩
    · have hr := r.isLt
      rw [hword r (by omega), hx]
    · rw [hword 31 (by omega), hspEl0]
    · rw [hword 32 (by omega), hpc]
    · rw [hword 33 (by omega), hpstate]
  · have hi64 : (UInt64.ofNat i).toNat = i := UInt64.toNat_ofNat_of_lt' (show i < 2 ^ 64 by omega)
    have hbehind : (loadBase + .ofNat i - (loadBase + 48)).toNat = 2 ^ 64 - 48 + i := by
      have h48 : (48 : UInt64).toNat = 48 := rfl
      have hlt := loadBase.toNat_lt
      rw [UInt64.toNat_sub, UInt64.toNat_add, UInt64.toNat_add, hi64, h48]
      omega
    have hself : loadBase + .ofNat i - loadBase = .ofNat i := by
      rw [UInt64.add_comm, UInt64.add_sub_cancel]
    show (if _ then _ else _) = _
    rw [if_neg (by omega), hself, hi64]

/-- Without boot arguments, the program runs 64 MiB into the memory of the machine. -/
theorem hello_from_el0_none :
    ∃ (t : Machine) (events : List SystemEvent) (s' : System),
      Runs (System.Step frameMemory a64Code) ⟨execAll userEnter t, .user, []⟩ events s' ∧
      s'.mode = .spinning ∧ s'.console = asBytes "Hello from EL0!\n" ++ exitText 42 := by
  obtain ⟨-, -, hruns⟩ := @hello_from_el0 Macho.parse none 0x44000000
    rfl (fun _ => 0) nofun (by decide) (by decide)
  obtain ⟨t, ht⟩ := exists_entering 0x8000 0x44000000 (userFrame testImage 0x44000000)
    (Memory.run (fun _ => 0) (Exec.memOps (start Macho.parse testUserMacho (fun _ => 0) none).log))
  have hframe : FrameInKernel frameMemory 0x8000 := fun _ h => h
  have hout : ∀ i < 48, ¬ (0x44000000 + UInt64.ofNat i - (0x8000 - 272)).toNat < 272 := by
    decide +kernel
  obtain ⟨-, -, -, more, s', hrun, hfault, hmode⟩ :=
    hruns frameMemory 0x8000 _ t [] [] _ hframe hout ht .start nofun
  obtain ⟨-, -, hwhole, -⟩ := hruns frameMemory 0x8000 _ t [] more s' hframe hout ht hrun hfault
  exact ⟨t, more, s', hrun, hmode, hwhole hmode⟩

end XnuRs.Boot
