/-
  XnuRs.Kernel.Arch.ExceptionResults

  System calls are transparent to the user program.

  The save half of `save_restore_eret` leaves a frame that holds the registers of
  the trap (`save_frame`), the restore half leaves the registers that the frame
  holds (`execAll_restore`), and in between the handler sets `x[0]` and nothing
  else (`dispatch_result`).  `run_transparent` puts the three together, for every
  trap of every run.
-/

import XnuRs.Kernel.Arch.Exception

namespace XnuRs.Kernel

open AArch64

/-! ## Frames -/

namespace TrapFrame

variable {frame : TrapFrame} {m : Mem} {a : UInt64}

/-- The frame that holds the user registers of a trap. -/
def ofMachine (s : Machine) : TrapFrame where
  x := .ofFn s.x
  sp := s.sys .spEl0
  pc := s.sys .elrEl1
  pstate := s.sys .spsrEl1

@[simp] theorem x_read (r : Reg) : (read m a).x[r] = word m (slot a r) := by
  simp [read]

@[simp] theorem x_ofMachine (s : Machine) (r : Reg) : (ofMachine s).x[r] = s.x r := by
  simp [ofMachine]

@[simp] theorem x_setX0 (v : UInt64) (r : Reg) :
    (frame.setX0 v).x[r] = if r = 0 then v else frame.x[r] := by
  simp only [setX0, Fin.getElem_fin, Vector.getElem_set, Fin.ext_iff, Fin.val_zero,
    eq_comm (a := 0)]

/-- The frame at an address is the one whose fields its words hold. -/
theorem read_eq_iff : read m a = frame ↔
    (∀ r : Reg, word m (slot a r) = frame.x[r]) ∧ word m (slot a 31) = frame.sp ∧
      word m (slot a 32) = frame.pc ∧ word m (slot a 33) = frame.pstate := by
  constructor
  · rintro rfl
    exact ⟨fun r => (x_read r).symm, rfl, rfl, rfl⟩
  · rintro ⟨hx, hsp, hpc, hpstate⟩
    refine TrapFrame.ext (Vector.ext fun i hi => ?_) hsp hpc hpstate
    exact (x_read ⟨i, hi⟩).trans (hx ⟨i, hi⟩)

/-- A store to word 0 of a frame sets `x[0]`. -/
theorem read_storeWord (v : UInt64) : read (storeWord m (slot a 0) v) a = (read m a).setX0 v := by
  have hword : ∀ k < maxSlots,
      word (storeWord m (slot a 0) v) (slot a k) = if k = 0 then v else word m (slot a k) :=
    fun k hk => word_storeWord_slot (by decide) hk
  rw [read_eq_iff]
  refine ⟨fun r => ?_, hword 31 (by decide), hword 32 (by decide), hword 33 (by decide)⟩
  rw [hword r (Reg.lt_maxSlots r), x_setX0, x_read]
  simp only [Fin.ext_iff, Fin.val_zero]

end TrapFrame

/-! ## Saving -/

theorem saveGeneral_saves : ∀ i ∈ saveGeneral, i.Saves .sp := by decide

theorem saveGeneral_moves (r : Reg) : r ∈ saveGeneral.flatMap Instr.moves := by
  revert r
  decide

/-- The stores of the system registers change the memory and `x0` only. -/
theorem execAll_saveSystem (s : Machine) :
    execAll saveSystem s =
      { s with
        x := (execAll saveSystem s).x
        mem := storeWord (storeWord (storeWord s.mem (slot s.spEl1 31) (s.sys .spEl0))
          (slot s.spEl1 32) (s.sys .elrEl1)) (slot s.spEl1 33) (s.sys .spsrEl1) } := rfl

/-- The save half leaves a frame of 272 bytes that holds the user's registers, and passes its
    address. -/
theorem execAll_save (s : Machine) :
    (execAll save s).spEl1 = s.spEl1 - 272 ∧ (execAll save s).x 0 = s.spEl1 - 272 ∧
    (execAll save s).sys = s.sys ∧
    TrapFrame.read (execAll save s).mem (s.spEl1 - 272) = .ofMachine s := by
  -- the machine with the frame allocated, and with the general registers in it
  generalize hs₀ : (Instr.subSp 272).exec s = s₀
  have hsp₀ : s₀.baseOf .sp = s.spEl1 - 272 := by
    rw [← hs₀]
    rfl
  have hx₀ : s₀.x = s.x := by
    rw [← hs₀]
    rfl
  have hgeneral := execAll_saves saveGeneral_saves s₀
  have hsave : execAll save s =
      (Instr.movSp 0).exec (execAll saveSystem (execAll saveGeneral s₀)) := by
    rw [save, execAll_append, execAll_append, execAll_cons, execAll_nil, execAll_cons, hs₀]
  rw [hsave, execAll_saveSystem]
  generalize execAll saveGeneral s₀ = s₁ at hgeneral
  have hsp : s₁.spEl1 = s.spEl1 - 272 := (hgeneral.baseOf_eq .sp).trans hsp₀
  have hsys : s₁.sys = s.sys := by
    rw [hgeneral.onlyMem, ← hs₀]
    rfl
  refine ⟨hsp, hsp, hsys, ?_⟩
  show TrapFrame.read (storeWord _ _ _) _ = _
  rw [hsp, hsys]
  have hslots : (33 : Nat) < maxSlots := by decide
  rw [TrapFrame.read_eq_iff]
  refine ⟨fun r => ?_, ?_, ?_, ?_⟩
  · -- the system registers are stored behind the general ones
    have hr := r.isLt
    have hr' := Reg.lt_maxSlots r
    rw [word_storeWord_slot (by omega) hr', if_neg (by omega),
      word_storeWord_slot (by omega) hr', if_neg (by omega),
      word_storeWord_slot (by omega) hr', if_neg (by omega), TrapFrame.x_ofMachine]
    have hsaved := hgeneral.saved r (saveGeneral_moves r)
    rwa [hsp₀, hx₀] at hsaved
  · rw [word_storeWord_slot hslots (by omega), if_neg (by decide),
      word_storeWord_slot (by omega) (by omega), if_neg (by decide), word_storeWord]
    rfl
  · rw [word_storeWord_slot hslots (by omega), if_neg (by decide), word_storeWord]
    rfl
  · rw [word_storeWord]
    rfl

/-! ## Restoring -/

theorem restoreGeneral_reloads : ∀ i ∈ restoreGeneral, i.Reloads .sp := by decide

theorem restoreGeneral_moves (r : Reg) : r ∈ restoreGeneral.flatMap Instr.moves := by
  revert r
  decide

/-- The system registers after they are loaded from a frame. -/
def TrapFrame.systemOf (frame : TrapFrame) (sys : SysReg → UInt64) : SysReg → UInt64 :=
  Function.update (Function.update (Function.update sys .spsrEl1 frame.pstate) .elrEl1 frame.pc)
    .spEl0 frame.sp

theorem restoreSystem_sys (s : Machine) :
    (execAll restoreSystem s).sys = (TrapFrame.read s.mem s.spEl1).systemOf s.sys := by
  have hpstate : s.load .sp 264 = (TrapFrame.read s.mem s.spEl1).pstate := s.load_slot .sp 33
  have hpc : s.load .sp 256 = (TrapFrame.read s.mem s.spEl1).pc := s.load_slot .sp 32
  have hsp : s.load .sp 248 = (TrapFrame.read s.mem s.spEl1).sp := s.load_slot .sp 31
  rw [TrapFrame.systemOf, ← hpstate, ← hpc, ← hsp]
  rfl

/-- The loads of the system registers change these and `x0` only. -/
theorem execAll_restoreSystem (s : Machine) :
    execAll restoreSystem s =
      { s with
        x := (execAll restoreSystem s).x
        sys := (TrapFrame.read s.mem s.spEl1).systemOf s.sys } :=
  Machine.ext rfl rfl (restoreSystem_sys s) rfl rfl rfl

/-- The restore half leaves EL1 with the registers that the frame holds, and frees it. -/
theorem execAll_restore (s : Machine) :
    execAll restore s =
      { x := fun r => (TrapFrame.read s.mem s.spEl1).x[r]
        spEl1 := s.spEl1 + 272
        sys := (TrapFrame.read s.mem s.spEl1).systemOf s.sys
        pc := (TrapFrame.read s.mem s.spEl1).pc
        pstate := (TrapFrame.read s.mem s.spEl1).pstate
        mem := s.mem } := by
  have hgeneral := execAll_reloads restoreGeneral_reloads (fun _ _ => nofun)
    (execAll restoreSystem s)
  have hrestore : execAll restore s =
      Instr.eret.exec
        ((Instr.addSp 272).exec (execAll restoreGeneral (execAll restoreSystem s))) := by
    rw [restore, execAll_append, execAll_append, execAll_cons, execAll_cons, execAll_nil]
  rw [hrestore, hgeneral, execAll_restoreSystem]
  refine Machine.ext (funext fun r => ?_) rfl rfl rfl rfl rfl
  show _ = (TrapFrame.read s.mem s.spEl1).x[r]
  rw [TrapFrame.x_read]
  exact if_pos (restoreGeneral_moves r)

/-! ## The handler -/

/-- A `write` that is carried out: to standard output or standard error, from a buffer that is
    not null, of at most 65536 bytes. -/
def AcceptedWrite (x : Reg → UInt64) : Prop :=
  x 16 = sysWrite ∧ (x 0 = 1 ∨ x 0 = 2) ∧ x 1 ≠ 0 ∧ x 2 ≤ 65536

instance (x : Reg → UInt64) : Decidable (AcceptedWrite x) :=
  inferInstanceAs (Decidable (_ ∧ _ ∧ _ ∧ _))

/-- What a system call returns. -/
def syscallResult (x : Reg → UInt64) : UInt64 := if AcceptedWrite x then x 2 else u64Max

/-- A system call that is not `exit` returns, and changes `x[0]` only. -/
theorem dispatch_result (m : Mem) {frame : TrapFrame} (h : frame.x.get 16 ≠ sysExit) :
    (dispatch m frame).result = .ok (some (frame.setX0 (syscallResult frame.x.get))) := by
  have hne : sysWrite ≠ sysExit := by decide
  have hprint : ∀ bytes, (Traced.forEach printByte bytes).result = .ok () := fun bytes =>
    Traced.forEach_ok.mpr fun _ _ => rfl
  by_cases hwrite : frame.x.get 16 = sysWrite
  · by_cases haccepted :
        (frame.x.get 0 = 1 ∨ frame.x.get 0 = 2) ∧ frame.x.get 1 ≠ 0 ∧ frame.x.get 2 ≤ 65536
    · have hresult : syscallResult frame.x.get = frame.x.get 2 := if_pos ⟨hwrite, haccepted⟩
      rw [hresult]
      simp [dispatch, hwrite, hne, haccepted, hprint]
    · have hresult : syscallResult frame.x.get = u64Max := if_neg fun hall => haccepted hall.2
      rw [hresult]
      simp [dispatch, hwrite, hne, haccepted]
  · have hresult : syscallResult frame.x.get = u64Max := if_neg fun hall => hwrite hall.1
    rw [hresult]
    simp [dispatch, h, hwrite, printStr, printHexU64]

theorem dispatch_exit (m : Mem) {frame : TrapFrame} (h : frame.x.get 16 = sysExit) :
    (dispatch m frame).result = .ok none := by
  simp [dispatch, h, printStr, printHexU64]

/-- The exception class of a `svc`. -/
theorem svcSyndrome_class (imm : UInt16) : (svcSyndrome imm >>> 26) &&& 0x3f = 0x15 := by
  have himm := imm.toNat_lt
  have hclass : (0x15 * 2 ^ 26 + 2 ^ 25 + imm.toNat) / 2 ^ 26 = 0x15 := by omega
  rw [← UInt64.toNat_inj, UInt64.toNat_and, UInt64.toNat_shiftRight, svcSyndrome,
    UInt64.toNat_ofNat_of_lt' (by show _ < 2 ^ 64; omega)]
  show (0x15 * 2 ^ 26 + 2 ^ 25 + imm.toNat) >>> 26 &&& 0x3f = 0x15
  rw [Nat.shiftRight_eq_div_pow, hclass]
  rfl

theorem exceptionLowerElSync_svc (imm : UInt16) (far : UInt64) (m : Mem) (frame : TrapFrame) :
    exceptionLowerElSync (svcSyndrome imm) far m frame = dispatch m frame :=
  if_pos (svcSyndrome_class imm)

/-! ## Traps -/

/-- The user program finds the machine after the trap as it left it, but for the result in
    `x0`, and the kernel has given back its stack. -/
structure Transparent (before after : Machine) : Prop where
  x : ∀ r : Reg, r ≠ 0 → after.x r = before.x r
  x0 : after.x 0 = syscallResult before.x
  spEl0 : after.sys .spEl0 = before.sys .spEl0
  pc : after.pc = before.pc
  pstate : after.pstate = before.pstate
  spEl1 : after.spEl1 = before.spEl1

variable {s s' : Machine} {imm : UInt16}

/-- The frame that a trap leaves on the stack. -/
def trapFrame (s : Machine) : TrapFrame := ⟨.ofFn s.x, s.sys .spEl0, s.pc, s.pstate⟩

@[simp] theorem x_trapFrame (s : Machine) (r : Reg) : (trapFrame s).x[r] = s.x r := by
  simp [trapFrame]

@[simp] theorem get_x_trapFrame (s : Machine) : (trapFrame s).x.get = s.x :=
  funext (x_trapFrame s)

/-- The machine of a trap when the handler is called. -/
theorem save_trap (s : Machine) (imm : UInt16) :
    let t := execAll save (s.takeException (svcSyndrome imm))
    t.spEl1 = s.spEl1 - 272 ∧ t.x 0 = t.spEl1 ∧ t.sys .esrEl1 = svcSyndrome imm ∧
      TrapFrame.read t.mem t.spEl1 = trapFrame s := by
  intro t
  obtain ⟨hsp, hx0, hsys, hframe⟩ := execAll_save (s.takeException (svcSyndrome imm))
  refine ⟨hsp, hx0.trans hsp.symm, ?_, ?_⟩
  · rw [hsys, Machine.takeException_esrEl1]
  · rw [show t.spEl1 = _ from hsp]
    exact hframe

/-- A call of the handler for a trap returns unless the call is `exit`, with the result of the
    system call in `x[0]` of the frame. -/
theorem call_svc_iff {t s₁ : Machine} (hx0 : t.x 0 = t.spEl1)
    (hesr : t.sys .esrEl1 = svcSyndrome imm) (hframe : TrapFrame.read t.mem t.spEl1 = trapFrame s) :
    Handler.Call .exceptionLowerElSync t s₁ ↔
      s.x 16 ≠ sysExit ∧ s₁.spEl1 = t.spEl1 ∧
      (∀ r : Reg, 19 ≤ r.val → r.val ≤ 29 → s₁.x r = t.x r) ∧
      TrapFrame.read s₁.mem t.spEl1 = (trapFrame s).setX0 (syscallResult s.x) := by
  have hrun : Handler.run .exceptionLowerElSync (t.sys .esrEl1) (t.sys .farEl1) t.mem
      (.read t.mem (t.x 0)) = dispatch t.mem (trapFrame s) := by
    rw [hx0, hesr, hframe]
    exact exceptionLowerElSync_svc imm _ _ _
  -- the number and the arguments of the call, as the saved frame has them
  have hnr : (trapFrame s).x.get 16 = s.x 16 := x_trapFrame s 16
  have hargs := get_x_trapFrame s
  have hresult (h : (trapFrame s).x.get 16 ≠ sysExit) := dispatch_result t.mem h
  rw [hnr] at hresult
  constructor
  · rintro ⟨hreturns, hsp, hkept⟩
    rw [hrun, hx0] at hreturns
    have hnoexit : s.x 16 ≠ sysExit := by
      intro hexit
      rw [dispatch_exit _ (by rwa [hnr])] at hreturns
      exact nomatch hreturns
    rw [hresult hnoexit, hargs] at hreturns
    exact ⟨hnoexit, hsp, hkept, (Option.some.inj (Except.ok.inj hreturns)).symm⟩
  · rintro ⟨hnoexit, hsp, hkept, hread⟩
    refine ⟨?_, hsp, hkept⟩
    rw [hrun, hx0, hresult hnoexit, hargs, hread]

/-- A trap that returns does so from a frame in which only `x[0]` has changed. -/
theorem svc_iff : UserStep s (.svc imm s s') s' ↔
    ∃ s₁, Handler.Call .exceptionLowerElSync (execAll save (s.takeException (svcSyndrome imm))) s₁ ∧
      s' = execAll restore s₁ := by
  constructor
  · rintro (_ | hrun)
    exact runs_call_iff.mp hrun
  · exact fun h => .svc (runs_call_iff.mpr h)

theorem svc_transparent (h : UserStep s (.svc imm s s') s') : Transparent s s' := by
  obtain ⟨s₁, hcall, rfl⟩ := svc_iff.mp h
  obtain ⟨hsp, hx0, hesr, hframe⟩ := save_trap s imm
  obtain ⟨-, hsp₁, -, hread⟩ := (call_svc_iff hx0 hesr hframe).mp hcall
  rw [← hsp₁] at hread
  have hback : s₁.spEl1 + 272 = s.spEl1 := by
    rw [hsp₁, hsp, UInt64.sub_add_cancel]
  rw [execAll_restore, hread, hback]
  have hx : ∀ r : Reg, ((trapFrame s).setX0 (syscallResult s.x)).x[r] =
      if r = 0 then syscallResult s.x else s.x r := fun r => by
    rw [TrapFrame.x_setX0, x_trapFrame]
  exact ⟨fun r hr => (hx r).trans (if_neg hr), (hx 0).trans (if_pos rfl), rfl, rfl, rfl, rfl⟩

/-- Every trap but `exit` returns. -/
theorem svc_returns (h : s.x 16 ≠ sysExit) (imm : UInt16) :
    ∃ s', UserStep s (.svc imm s s') s' := by
  obtain ⟨-, hx0, hesr, hframe⟩ := save_trap s imm
  -- a handler that stores the result in the frame and changes nothing else
  let t := execAll save (s.takeException (svcSyndrome imm))
  refine ⟨_, svc_iff.mpr ⟨{ t with mem := storeWord t.mem (slot t.spEl1 0) (syscallResult s.x) },
    ?_, rfl⟩⟩
  refine (call_svc_iff hx0 hesr hframe).mpr ⟨h, rfl, fun _ _ _ => rfl, ?_⟩
  rw [← hframe]
  exact TrapFrame.read_storeWord _

/-! ## Runs -/

/-- Every trap but `exit` returns.  In every run of a user program, with any number of traps and
    whatever it computes between them, each trap is transparent, and it begins and ends with
    the kernel stack that the run began with. -/
theorem run_transparent :
    (∀ (s : Machine) (imm : UInt16), s.x 16 ≠ sysExit → ∃ s', UserStep s (.svc imm s s') s') ∧
    ∀ {s s' : Machine} {events : List UserEvent}, Runs UserStep s events s' →
      s'.spEl1 = s.spEl1 ∧
      ∀ imm before after, .svc imm before after ∈ events →
        Transparent before after ∧ before.spEl1 = s.spEl1 := by
  refine ⟨fun s imm h => svc_returns h imm, fun {s s' events} hrun => ?_⟩
  -- the stack pointer of EL1 is the same before every trap, and so is its frame
  refine Runs.history (I := fun events s' => s'.spEl1 = s.spEl1 ∧
    ∀ imm before after, .svc imm before after ∈ events →
      Transparent before after ∧ before.spEl1 = s.spEl1) ⟨rfl, fun _ _ _ h => (nomatch h)⟩ ?_ hrun
  rintro ls s₁ event s₂ ⟨hsp, htraps⟩ hstep
  cases hstep with
  | compute hkept =>
      refine ⟨hkept.trans hsp, fun imm before after hmem => ?_⟩
      exact htraps imm before after (by simpa using hmem)
  | svc h =>
      have htransparent := svc_transparent (.svc h)
      refine ⟨htransparent.spEl1.trans hsp, fun imm before after hmem => ?_⟩
      rcases List.mem_append.mp hmem with hold | hnew
      · exact htraps imm before after hold
      · obtain ⟨rfl, rfl, rfl⟩ := UserEvent.svc.inj (List.mem_singleton.mp hnew)
        exact ⟨htransparent, hsp⟩

/-- A user program about to `write(1, 0x1000, 5)`. -/
def writing : Machine where
  x := fun r => if r = 16 then 4 else if r = 0 then 1 else if r = 1 then 0x1000 else r.val.toUInt64 + 3
  spEl1 := 0x8000
  sys := fun _ => 0
  pc := 0x400004
  pstate := 0x60000000
  mem := fun a => a.toUInt8

/-- A run with a write, and then a system call that does not exist. -/
theorem run_transparent_writing : ∃ after after' : Machine,
    Runs UserStep writing
      [.svc 0x80 writing after, .compute, .svc 0x80 (after.setX 16 99) after'] after' ∧
    after.x 0 = 5 ∧ after'.x 0 = u64Max ∧ after'.x 30 = 33 ∧ after'.spEl1 = 0x8000 := by
  obtain ⟨after, hfirst⟩ := run_transparent.1 writing 0x80 (by decide)
  have hnr : (after.setX 16 99).x 16 = 99 := by simp
  obtain ⟨after', hsecond⟩ := run_transparent.1 (after.setX 16 99) 0x80 (by
    rw [hnr]
    decide)
  -- a write of five bytes, then a number that is no call
  have hcompute : UserStep after .compute (after.setX 16 99) := .compute rfl
  have hrun := Runs.cons hfirst (.cons hcompute (.cons hsecond .start))
  obtain ⟨hsp, htraps⟩ := run_transparent.2 hrun
  obtain ⟨hwrite, -⟩ := htraps 0x80 writing after (by simp)
  obtain ⟨hother, -⟩ := htraps 0x80 (after.setX 16 99) after' (by simp)
  refine ⟨after, after', hrun, ?_, ?_, ?_, hsp⟩
  · rw [hwrite.x0]
    decide
  · rw [hother.x0, syscallResult, if_neg]
    rintro ⟨hcall, -⟩
    rw [hnr] at hcall
    exact absurd hcall (by decide)
  · rw [hother.x 30 (by decide), Machine.x_setX, if_neg (by decide), hwrite.x 30 (by decide)]
    decide

end XnuRs.Kernel
