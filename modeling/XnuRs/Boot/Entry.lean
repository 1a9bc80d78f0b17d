/-
  XnuRs.Boot.Entry

  Whether the kernel gets to EL0 (kernel/src/main.rs: `_start`;
  kernel/src/exec/loader.rs: `load_and_run`), and with which frame.

  A file that is not accepted makes the kernel spin.  An image that can be
  entered (`Enterable`) is entered, behind the vectors; any other one ends in a
  panic (`loadAndRun_outcome`).
-/

import XnuRs.Boot.CacheMaintenance
import XnuRs.Boot.HandOff
import XnuRs.DeviceTree.Total
import XnuRs.Kernel.Exec.MachoResults

namespace XnuRs.Boot

open XnuRs.Kernel XnuRs.Kernel.Exec
open XnuRs.Loader (BootArgs)

variable {machoParse : List UInt8 → Option Macho.MachO} {bytes : List UInt8}
  {image : UserImage} {loadBase : UInt64}

/-! ## Images that can be entered -/

/-- Where the user stack ends. -/
def stackTopOf (image : UserImage) (loadBase : UInt64) : Nat :=
  roundUp (loadBase.toNat + image.span.toNat) 4096 + 64 * 1024

/-- The entry is not below the image, and neither it nor the stack gets past the top of the
    address space. -/
structure Enterable (image : UserImage) (loadBase : UInt64) : Prop where
  entry : image.linkBase ≤ image.entryVa
  entryPhys : loadBase.toNat + (image.entryVa.toNat - image.linkBase.toNat) < 2 ^ 64
  stack : stackTopOf image loadBase < 2 ^ 64

/-- The frame the program is entered with. -/
def userFrame (image : UserImage) (loadBase : UInt64) : TrapFrame :=
  .newUser (.ofNat (loadBase.toNat + (image.entryVa.toNat - image.linkBase.toNat)))
    (.ofNat (stackTopOf image loadBase))

theorem exists_placeStack_iff :
    (∃ stack, placeStack loadBase image.span = .ok stack) ↔ stackTopOf image loadBase < 2 ^ 64 := by
  have hup := le_roundUp (n := loadBase.toNat + image.span.toNat) (a := 4096) (by decide)
  constructor
  · rintro ⟨⟨stackBase, stackTop⟩, hstack⟩
    obtain ⟨-, hbase, htop⟩ := placeStack_eq_ok.mp hstack
    rw [stackTopOf, ← hbase, ← htop]
    exact stackTop.toNat_lt
  · intro hlt
    rw [stackTopOf] at hlt
    have hbase : (UInt64.ofNat (roundUp (loadBase.toNat + image.span.toNat) 4096)).toNat =
        roundUp (loadBase.toNat + image.span.toNat) 4096 :=
      UInt64.toNat_ofNat_of_lt' (show _ < 2 ^ 64 by omega)
    refine ⟨(.ofNat (roundUp (loadBase.toNat + image.span.toNat) 4096),
      .ofNat (stackTopOf image loadBase)), placeStack_eq_ok.mpr ⟨by omega, hbase, ?_⟩⟩
    rw [hbase, stackTopOf]
    exact UInt64.toNat_ofNat_of_lt' hlt

/-- The entry address that `load_and_run` computes. -/
theorem entryPhys_eq_ok {entryPhys : UInt64} :
    (∃ offset, checkedSub image.entryVa image.linkBase = some offset ∧
      checkedAdd loadBase offset = some entryPhys) ↔
      image.linkBase ≤ image.entryVa ∧
        entryPhys.toNat = loadBase.toNat + (image.entryVa.toNat - image.linkBase.toNat) := by
  simp only [checkedSub_eq_some, checkedAdd_eq_some]
  rw [UInt64.le_iff_toNat_le]
  constructor
  · rintro ⟨offset, hsub, hadd⟩
    omega
  · rintro ⟨hle, hadd⟩
    have hlt := image.entryVa.toNat_lt
    have hoffset : (UInt64.ofNat (image.entryVa.toNat - image.linkBase.toNat)).toNat =
        image.entryVa.toNat - image.linkBase.toNat :=
      UInt64.toNat_ofNat_of_lt' (show _ < 2 ^ 64 by omega)
    refine ⟨.ofNat (image.entryVa.toNat - image.linkBase.toNat), ?_, ?_⟩
    · omega
    · omega

/-- An image that can be entered is entered, right behind the vectors are installed. -/
theorem enterImage_ok (h : Enterable image loadBase) :
    (enterImage image loadBase).result = .ok .el0 ∧
    [.installVectors, .userEnter (userFrame image loadBase)] <:+
      (enterImage image loadBase).log := by
  have hup := le_roundUp (n := loadBase.toNat + image.span.toNat) (a := 4096) (by decide)
  have hstackTop := h.stack
  rw [stackTopOf] at hstackTop
  have hstop : (UInt64.ofNat (loadBase.toNat + image.span.toNat)).toNat =
      loadBase.toNat + image.span.toNat := UInt64.toNat_ofNat_of_lt' (show _ < 2 ^ 64 by omega)
  have hflush := kernel_maintenance hstop (by omega)
  have hphys : (UInt64.ofNat (loadBase.toNat +
      (image.entryVa.toNat - image.linkBase.toNat))).toNat = _ :=
    UInt64.toNat_ofNat_of_lt' h.entryPhys
  obtain ⟨offset, hsub, hadd⟩ := entryPhys_eq_ok.mpr ⟨h.entry, hphys⟩
  obtain ⟨⟨stackBase, stackTop⟩, hstack⟩ := exists_placeStack_iff.mpr h.stack
  have htop : stackTop = .ofNat (stackTopOf image loadBase) := by
    obtain ⟨-, hbase, htop⟩ := placeStack_eq_ok.mp hstack
    rw [← UInt64.toNat_inj, htop, hbase]
    exact (UInt64.toNat_ofNat_of_lt' h.stack).symm
  subst htop
  rw [enterImage, hflush]
  simp only [Traced.mk_ok_bind, hsub, hadd, hstack, Outcome.orPanic_some, Traced.lift_ok_bind,
    printStr, printHexU64]
  refine ⟨rfl, ?_⟩
  simp only [Traced.emit_bind_log, Traced.pure_log]
  exact ⟨_, List.append_assoc _ [_, _, _, _, _, _] _⟩

/-- An image that is entered can be entered. -/
theorem enterable_of_ok {ending : Ending} (h : (enterImage image loadBase).result = .ok ending) :
    Enterable image loadBase := by
  obtain ⟨_, -, h⟩ := Outcome.bind_eq_ok.mp ((Traced.bind_result _ _).symm.trans h)
  obtain ⟨offset, hsub, h⟩ := Outcome.bind_eq_ok.mp ((Traced.bind_result _ _).symm.trans h)
  obtain ⟨entryPhys, hadd, h⟩ := Outcome.bind_eq_ok.mp ((Traced.bind_result _ _).symm.trans h)
  obtain ⟨stack, hstack, -⟩ := Outcome.bind_eq_ok.mp ((Traced.bind_result _ _).symm.trans h)
  obtain ⟨hentry, hphys⟩ :=
    entryPhys_eq_ok.mp ⟨offset, Outcome.orPanic_eq_ok.mp hsub, Outcome.orPanic_eq_ok.mp hadd⟩
  exact ⟨hentry, hphys ▸ entryPhys.toNat_lt, exists_placeStack_iff.mp ⟨stack, hstack⟩⟩

/-! ## What becomes of a user file -/

theorem findEntry_onlyPanics (macho : Macho.MachO) (cmds : List Macho.LoadCommand) :
    (findEntry macho cmds).OnlyPanics := by
  induction cmds with
  | nil => exact .ok _
  | cons cmd rest ih =>
      rw [findEntry]
      split
      · split
        · exact (Outcome.OnlyPanics.orPanic _).bind fun _ => .ok _
        · exact .ok _
      · exact ih

theorem parse_onlyPanics (machoParse : List UInt8 → Option Macho.MachO) (bytes : List UInt8) :
    (Exec.parse machoParse bytes).result.OnlyPanics := by
  cases hmacho : machoParse bytes with
  | none =>
      rw [parse_none hmacho]
      exact .ok none
  | some macho =>
      rw [parse_result hmacho]
      split
      · exact .ok none
      · exact (findEntry_onlyPanics macho _).bind fun _ => .ok _

theorem loadImage_onlyPanics (image : UserImage) (loadBase : UInt64) :
    (loadImage image loadBase).result.OnlyPanics := by
  refine Traced.onlyPanics_forEach (fun seg => ?_) image.segments
  refine Traced.onlyPanics_bind ?_ fun _ => .ok ()
  exact (Outcome.OnlyPanics.orPanic _).bind fun _ => .orPanic _

theorem cacheLoop_onlyPanics (op : UInt64 → KernelOp) (addr stop : UInt64) :
    (cacheLoop op addr stop).result.OnlyPanics := by
  fun_induction cacheLoop op addr stop with
  | case1 addr hlt ih =>
      refine Traced.onlyPanics_emit_bind ?_
      split
      · exact ih _ ‹_›
      · exact .panic
  | case2 addr hlt => exact .ok ()

theorem alignUp_onlyPanics (value align : UInt64) : (Exec.alignUp value align).OnlyPanics :=
  (Outcome.OnlyPanics.orPanic _).bind fun _ => (Outcome.OnlyPanics.orPanic _).bind fun _ => .ok _

theorem enterImage_onlyPanics (image : UserImage) (loadBase : UInt64) :
    (enterImage image loadBase).result.OnlyPanics := by
  refine Traced.onlyPanics_bind ?_ fun _ => ?_
  · refine Traced.onlyPanics_bind (.orPanic _) fun stop => ?_
    refine Traced.onlyPanics_bind (cacheLoop_onlyPanics _ _ _) fun _ => ?_
    refine Traced.onlyPanics_emit_bind ?_
    refine Traced.onlyPanics_bind (cacheLoop_onlyPanics _ _ _) fun _ => ?_
    exact Traced.onlyPanics_emit_bind (.ok ())
  · refine Traced.onlyPanics_bind (.orPanic _) fun _ => ?_
    refine Traced.onlyPanics_bind (.orPanic _) fun _ => ?_
    refine Traced.onlyPanics_bind ?_ fun _ => .ok _
    refine (Outcome.OnlyPanics.orPanic _).bind fun _ => ?_
    exact (alignUp_onlyPanics _ _).bind fun _ => (Outcome.OnlyPanics.orPanic _).bind fun _ => .ok _

/-- The image can be placed when it can be entered. -/
theorem Enterable.loadImage_ok (h : Enterable image loadBase) (hbased : image.Based) :
    (loadImage image loadBase).result = .ok () := by
  have hup := le_roundUp (n := loadBase.toNat + image.span.toNat) (a := 4096) (by decide)
  have hstack := h.stack
  rw [stackTopOf] at hstack
  exact (hbased.loadImage_ok (by omega)).1

theorem loadAndRun_none (h : (Exec.parse machoParse bytes).result = .ok none) :
    (loadAndRun machoParse bytes loadBase).result = .ok .spin := by
  rw [loadAndRun, Traced.bind_result, h]
  rfl

theorem loadAndRun_some (loadBase : UInt64)
    (h : (Exec.parse machoParse bytes).result = .ok (some image)) :
    (loadAndRun machoParse bytes loadBase).result =
      (loadImage image loadBase).result >>= fun _ => (enterImage image loadBase).result := by
  rw [loadAndRun, Traced.bind_result, h, Outcome.ok_bind]
  exact Traced.bind_result _ _

/-- **What becomes of a user file.**  Whatever the parser, the file and the load base are: the
    kernel spins for the files that are not accepted, and gets to EL0 with the images that can
    be entered; in every other case it panics. -/
theorem loadAndRun_cases (machoParse : List UInt8 → Option Macho.MachO) (bytes : List UInt8)
    (loadBase : UInt64) :
    ((Exec.parse machoParse bytes).result = .ok none ∧
      (loadAndRun machoParse bytes loadBase).result = .ok .spin) ∨
    (∃ image, (Exec.parse machoParse bytes).result = .ok (some image) ∧
      Enterable image loadBase ∧ (loadAndRun machoParse bytes loadBase).result = .ok .el0) ∨
    ((Exec.parse machoParse bytes).result ≠ .ok none ∧
      (∀ image, (Exec.parse machoParse bytes).result = .ok (some image) →
        ¬ Enterable image loadBase) ∧
      (loadAndRun machoParse bytes loadBase).result = .panic) := by
  have honly : (loadAndRun machoParse bytes loadBase).result.OnlyPanics := by
    refine Traced.onlyPanics_bind (parse_onlyPanics _ _) fun image => ?_
    cases image with
    | none => exact Outcome.OnlyPanics.ok Ending.spin
    | some image =>
        exact Traced.onlyPanics_bind (loadImage_onlyPanics _ _) fun _ => enterImage_onlyPanics _ _
  cases hparse : (Exec.parse machoParse bytes).result with
  | error fault =>
      refine .inr (.inr ⟨by simp, by simp, honly.eq_panic fun ending hok => ?_⟩)
      rw [loadAndRun, Traced.bind_result, hparse] at hok
      cases hok
  | ok found =>
      cases found with
      | none => exact .inl ⟨rfl, loadAndRun_none hparse⟩
      | some image =>
          right
          have hresult := loadAndRun_some loadBase hparse
          by_cases h : Enterable image loadBase
          · left
            refine ⟨image, rfl, h, ?_⟩
            rw [hresult, h.loadImage_ok (based_of_parse hparse), Outcome.ok_bind,
              (enterImage_ok h).1]
          · right
            refine ⟨by simp, ?_, honly.eq_panic fun ending hok => ?_⟩
            · intro image' himage
              obtain rfl := Option.some.inj (Except.ok.inj himage)
              exact h
            · rw [hresult] at hok
              obtain ⟨_, -, henter⟩ := Outcome.bind_eq_ok.mp hok
              exact h (enterable_of_ok henter)

/-! ## `_start` -/

/-- The boot arguments that `validate_boot_args` hands on. -/
def acceptedArgs (bootArgs : Option BootArgs) : Option BootArgs :=
  bootArgs.filter fun args =>
    decide (args.revision = bootArgsRevision2 ∧ args.version = bootArgsVersion2)

variable {memory : Memory} {bootArgs : Option BootArgs}

theorem dumpAppleDeviceTree_ok {args : BootArgs} (hlen : args.deviceTreeLength < 2 ^ 32) :
    (dumpAppleDeviceTree memory args).result = .ok () := by
  unfold dumpAppleDeviceTree
  split
  · rfl
  · have hdump : (dump (memory.slice args.deviceTreeP.toNat args.deviceTreeLength)).result =
        .ok () := by
      apply DeviceTree.dump_completes
      rw [Memory.slice, List.length_map, List.length_range, isizeMax]
      omega
    rw [ofPrinting, hdump]

/-- `validate_boot_args` always returns. -/
theorem validateBootArgs_result
    (hlen : ∀ args, bootArgs = some args → args.deviceTreeLength < 2 ^ 32) :
    (validateBootArgs memory bootArgs).result = .ok (acceptedArgs bootArgs) := by
  cases bootArgs with
  | none => rfl
  | some args =>
      simp only [validateBootArgs, printStr, printHexU64, Traced.bind_result, Traced.emit_result,
        Outcome.ok_bind]
      by_cases hknown : args.revision = bootArgsRevision2 ∧ args.version = bootArgsVersion2
      · rw [if_neg (by tauto), Traced.bind_result, dumpAppleDeviceTree_ok (hlen args rfl),
          acceptedArgs, Option.filter_some_pos (by simpa using hknown)]
        rfl
      · rw [if_pos (by tauto), acceptedArgs, Option.filter_some_neg (by simpa using hknown)]
        rfl

/-- Behind the load base, `_start` ends as `load_and_run` does. -/
theorem start_result (hlen : ∀ args, bootArgs = some args → args.deviceTreeLength < 2 ^ 32) :
    (start machoParse bytes memory bootArgs).result =
      loadBaseOf (acceptedArgs bootArgs) >>= fun loadBase =>
        (loadAndRun machoParse bytes loadBase).result := by
  simp only [start, printStr, printHexU64, Traced.bind_result, Traced.emit_result, Outcome.ok_bind,
    Traced.lift_result, validateBootArgs_result hlen]

/-- Where the memory of the kernel ends, as far as `_start` knows. -/
def kernelEnd (bootArgs : Option BootArgs) : UInt64 :=
  (acceptedArgs bootArgs).elim (0x40000000 + 64 * 1024 * 1024) (·.topOfKernelData)

/-- The load base is the next multiple of 2 MiB, if that is a word. -/
theorem loadBaseOf_accepted :
    loadBaseOf (acceptedArgs bootArgs) = .ok loadBase ↔
      (kernelEnd bootArgs).toNat + 2 ^ 21 < 2 ^ 64 ∧
        loadBase.toNat = roundUp (kernelEnd bootArgs).toNat (2 ^ 21) := by
  have hpow : (2 * 1024 * 1024 : UInt64).toNat = 2 ^ 21 := rfl
  rw [kernelEnd]
  cases acceptedArgs bootArgs with
  | none => exact alignUp_eq_ok (by decide) hpow
  | some args => exact alignUp_eq_ok (by decide) hpow

theorem loadBaseOf_onlyPanics (args : Option BootArgs) : (loadBaseOf args).OnlyPanics := by
  cases args with
  | none => exact alignUp_onlyPanics _ _
  | some args => exact alignUp_onlyPanics _ _

/-- `load_and_run` is the last part of `_start`. -/
theorem start_log (hlen : ∀ args, bootArgs = some args → args.deviceTreeLength < 2 ^ 32)
    (hbase : loadBaseOf (acceptedArgs bootArgs) = .ok loadBase) :
    (loadAndRun machoParse bytes loadBase).log <:+ (start machoParse bytes memory bootArgs).log := by
  refine Traced.suffix_emit_bind_log ?_
  refine Traced.suffix_bind_log (validateBootArgs_result hlen) ?_
  refine Traced.suffix_bind_log hbase ?_
  refine Traced.suffix_emit_bind_log (Traced.suffix_emit_bind_log ?_)
  exact Traced.suffix_emit_bind_log List.suffix_rfl

/-- Entering the image is the last part of `load_and_run`. -/
theorem Enterable.suffix_log (h : Enterable image loadBase)
    (hparse : (Exec.parse machoParse bytes).result = .ok (some image)) :
    [.installVectors, .userEnter (userFrame image loadBase)] <:+
      (loadAndRun machoParse bytes loadBase).log := by
  refine Traced.suffix_bind_log hparse ?_
  exact Traced.suffix_bind_log (h.loadImage_ok (based_of_parse hparse)) (enterImage_ok h).2

/-- **How the kernel's entry ends.**  It spins for a user file that is not accepted, leaves for
    EL0 with an image that can be entered behind the kernel, and panics in every other case.
    Before it leaves it installs the vectors, and the frame it leaves with starts the image. -/
theorem start_outcome (machoParse : List UInt8 → Option Macho.MachO) (bytes : List UInt8)
    (memory : Memory) (bootArgs : Option BootArgs)
    (hlen : ∀ args, bootArgs = some args → args.deviceTreeLength < 2 ^ 32) :
    ((start machoParse bytes memory bootArgs).result = .ok .spin ↔
      (kernelEnd bootArgs).toNat + 2 ^ 21 < 2 ^ 64 ∧
        (Exec.parse machoParse bytes).result = .ok none) ∧
    ((start machoParse bytes memory bootArgs).result = .ok .el0 ↔
      ∃ loadBase image, (kernelEnd bootArgs).toNat + 2 ^ 21 < 2 ^ 64 ∧
        loadBase.toNat = roundUp (kernelEnd bootArgs).toNat (2 ^ 21) ∧
        (Exec.parse machoParse bytes).result = .ok (some image) ∧ Enterable image loadBase) ∧
    (∀ loadBase image, (start machoParse bytes memory bootArgs).result = .ok .el0 →
      loadBase.toNat = roundUp (kernelEnd bootArgs).toNat (2 ^ 21) →
      (Exec.parse machoParse bytes).result = .ok (some image) →
        [.installVectors, .userEnter (userFrame image loadBase)] <:+
          (start machoParse bytes memory bootArgs).log) ∧
    ((start machoParse bytes memory bootArgs).result = .ok .spin ∨
      (start machoParse bytes memory bootArgs).result = .ok .el0 ∨
      (start machoParse bytes memory bootArgs).result = .panic) := by
  rw [start_result hlen]
  cases hbase : loadBaseOf (acceptedArgs bootArgs) with
  | error fault =>
      obtain rfl := loadBaseOf_onlyPanics _ fault hbase
      have hover : ¬ (kernelEnd bootArgs).toNat + 2 ^ 21 < 2 ^ 64 := by
        intro hlt
        have hround := roundUp_lt (n := (kernelEnd bootArgs).toNat) (a := 2 ^ 21) (by decide)
        have hok := loadBaseOf_accepted.mpr ⟨hlt,
          UInt64.toNat_ofNat_of_lt' (show roundUp _ (2 ^ 21) < 2 ^ 64 by omega)⟩
        exact nomatch hok.symm.trans hbase
      refine ⟨⟨nofun, fun h => absurd h.1 hover⟩, ⟨nofun, ?_⟩, nofun, .inr (.inr rfl)⟩
      rintro ⟨-, -, hlt, -⟩
      exact absurd hlt hover
  | ok loadBase =>
      obtain ⟨hlt, hround⟩ := loadBaseOf_accepted.mp hbase
      have hlog : (loadAndRun machoParse bytes loadBase).log <:+
          (start machoParse bytes memory bootArgs).log := start_log hlen hbase
      rw [Outcome.ok_bind]
      -- the load base is determined by the boot arguments
      have hsame : ∀ {loadBase' : UInt64},
          loadBase'.toNat = roundUp (kernelEnd bootArgs).toNat (2 ^ 21) → loadBase' = loadBase :=
        fun h => UInt64.toNat_inj.mp (h.trans hround.symm)
      rcases loadAndRun_cases machoParse bytes loadBase with
        ⟨hnone, hresult⟩ | ⟨image, himage, henter, hresult⟩ | ⟨hnot, hstuck, hresult⟩
      · rw [hresult, hnone]
        exact ⟨⟨fun _ => ⟨hlt, rfl⟩, fun _ => rfl⟩, ⟨nofun, fun ⟨_, _, _, _, h, _⟩ => nomatch h⟩,
          nofun, .inl rfl⟩
      · rw [hresult, himage]
        refine ⟨⟨nofun, fun h => nomatch h.2⟩, ⟨fun _ => ?_, fun _ => rfl⟩, ?_, .inr (.inl rfl)⟩
        · exact ⟨loadBase, image, hlt, hround, rfl, henter⟩
        · rintro loadBase' image' - hround' himage'
          obtain rfl := hsame hround'
          obtain rfl := Option.some.inj (Except.ok.inj himage')
          exact (henter.suffix_log himage).trans hlog
      · rw [hresult]
        refine ⟨⟨nofun, fun h => absurd h.2 hnot⟩, ⟨nofun, ?_⟩, nofun, .inr (.inr rfl)⟩
        rintro ⟨loadBase', image, -, hround', himage, henter⟩
        obtain rfl := hsame hround'
        exact absurd henter (hstuck image himage)

/-- Without boot arguments, the load base is 64 MiB into the memory of the machine. -/
theorem start_outcome_text :
    (start Macho.parse (textFile 0x100000000) (fun _ => 0) none).result = .ok .el0 :=
  (start_outcome Macho.parse (textFile 0x100000000) (fun _ => 0) none nofun).2.1.mpr
    ⟨0x44000000, textImage 0x100000000, by decide, by decide, by decide +kernel,
      by decide, by decide, by decide⟩

end XnuRs.Boot
