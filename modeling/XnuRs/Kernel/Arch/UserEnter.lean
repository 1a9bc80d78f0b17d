/-
  XnuRs.Kernel.Arch.UserEnter

  What a user program finds in its registers when the kernel enters it.

  `user_enter` loads every register that EL0 can read from the frame in `x0`, so
  the machine behind its `eret` depends on the frame alone
  (`execAll_userEnter`).  Saving the registers of a trap gives the frame back
  that was entered, and entering a saved frame gives the registers back
  (`userEnter_save`).
-/

import XnuRs.Kernel.Arch.ExceptionResults

namespace XnuRs.Kernel

open AArch64

variable {s s' : Machine} {frame : TrapFrame}

/-! ## The loads -/

@[simp] theorem TrapFrame.systemOf_spEl0 (frame : TrapFrame) (sys : SysReg → UInt64) :
    frame.systemOf sys .spEl0 = frame.sp := rfl

@[simp] theorem TrapFrame.systemOf_elrEl1 (frame : TrapFrame) (sys : SysReg → UInt64) :
    frame.systemOf sys .elrEl1 = frame.pc := rfl

@[simp] theorem TrapFrame.systemOf_spsrEl1 (frame : TrapFrame) (sys : SysReg → UInt64) :
    frame.systemOf sys .spsrEl1 = frame.pstate := rfl

/-- A system register loaded from word `k` of the frame, through `x1`. -/
theorem execAll_loadSys (s : Machine) (r : SysReg) (k : Nat) :
    execAll [.ldr 1 (.x 0) (8 * k), .msr r 1] s =
      { s with
        x := Function.update s.x 1 (word s.mem (slot (s.x 0) k))
        sys := Function.update s.sys r (word s.mem (slot (s.x 0) k)) } := by
  refine Machine.ext rfl rfl ?_ rfl rfl rfl
  show Function.update s.sys r (Function.update s.x 1 _ 1) = _
  rw [Function.update_self]
  rfl

/-- The loads of the system registers change these and `x1` only. -/
theorem execAll_enterSystem (s : Machine) :
    execAll enterSystem s =
      { s with
        x := Function.update s.x 1 (TrapFrame.read s.mem (s.x 0)).pstate
        sys := (TrapFrame.read s.mem (s.x 0)).systemOf s.sys } := by
  have hsplit : enterSystem = [.ldr 1 (.x 0) (8 * 31), .msr .spEl0 1] ++
      ([.ldr 1 (.x 0) (8 * 32), .msr .elrEl1 1] ++ [.ldr 1 (.x 0) (8 * 33), .msr .spsrEl1 1]) := rfl
  -- `x1` is the scratch register, so the pointer in `x0` stays
  have hne : (0 : Reg) ≠ 1 := by decide
  have hx0 : ∀ v, Function.update s.x 1 v 0 = s.x 0 := fun v => Function.update_of_ne hne v _
  rw [hsplit, execAll_append, execAll_append, execAll_loadSys, execAll_loadSys, execAll_loadSys]
  have hsp : word s.mem (slot (s.x 0) 31) = (TrapFrame.read s.mem (s.x 0)).sp := rfl
  have hpc : word s.mem (slot (s.x 0) 32) = (TrapFrame.read s.mem (s.x 0)).pc := rfl
  have hpstate : word s.mem (slot (s.x 0) 33) = (TrapFrame.read s.mem (s.x 0)).pstate := rfl
  simp only [hx0, Function.update_idem, hsp, hpc, hpstate]
  refine Machine.ext rfl rfl (funext fun r => ?_) rfl rfl rfl
  cases r <;> simp [TrapFrame.systemOf]

theorem enterGeneral_reloads : ∀ i ∈ enterGeneral, i.Reloads (.x 0) := by decide

/-- The pointer in `x0` is not among what the first loads change. -/
theorem enterGeneral_keeps : ∀ r ∈ enterGeneral.flatMap Instr.moves, Base.x 0 ≠ .x r := by decide

theorem userEnter_moves (r : Reg) : r ∈ enterGeneral.flatMap Instr.moves ++ [0, 1] := by
  revert r
  decide

/-- **What `user_enter` leaves**: the registers that the frame holds, at EL0. -/
theorem execAll_userEnter (s : Machine) :
    execAll userEnter s =
      { x := (TrapFrame.read s.mem (s.x 0)).x.get
        spEl1 := s.spEl1
        sys := (TrapFrame.read s.mem (s.x 0)).systemOf s.sys
        pc := (TrapFrame.read s.mem (s.x 0)).pc
        pstate := (TrapFrame.read s.mem (s.x 0)).pstate
        mem := s.mem } := by
  have hne : (0 : Reg) ≠ 1 := by decide
  -- the loads of the system registers go through `x1`, and leave the pointer alone
  have hx0 : (execAll enterSystem s).x 0 = s.x 0 := by
    rw [execAll_enterSystem]
    exact Function.update_of_ne hne (TrapFrame.read s.mem (s.x 0)).pstate s.x
  -- the pointer is overwritten by the last load only
  have hlast : (Instr.ldp 0 1 (.x 0) 0).Reloads (.x 0) := by decide
  have huserEnter : execAll userEnter s = Instr.eret.exec
      ((Instr.ldp 0 1 (.x 0) 0).exec (execAll enterGeneral (execAll enterSystem s))) := by
    rw [userEnter, execAll_append, execAll_append, execAll_cons, execAll_cons, execAll_nil]
  rw [huserEnter, execAll_reloads enterGeneral_reloads enterGeneral_keeps, hlast.exec_eq,
    Machine.reloaded_append _ _ enterGeneral_keeps]
  refine Machine.ext (funext fun r => ?_) ?_ ?_ ?_ ?_ ?_
  · refine (if_pos (userEnter_moves r)).trans ?_
    show word (execAll enterSystem s).mem (slot ((execAll enterSystem s).x 0) r) =
      (TrapFrame.read s.mem (s.x 0)).x[r]
    rw [hx0, TrapFrame.x_read, execAll_enterSystem]
  all_goals
    rw [execAll_enterSystem]
    rfl

/-! ## Frames -/

/-- The registers of the frame are in the machine, and it is at EL0 where the frame says. -/
structure Entered (frame : TrapFrame) (s : Machine) : Prop where
  x : ∀ r : Reg, s.x r = frame.x.get r
  spEl0 : s.sys .spEl0 = frame.sp
  elrEl1 : s.sys .elrEl1 = frame.pc
  spsrEl1 : s.sys .spsrEl1 = frame.pstate
  pc : s.pc = frame.pc
  pstate : s.pstate = frame.pstate

/-- What a program at EL0 can read of two machines is the same. -/
structure SameAtEl0 (s s' : Machine) : Prop where
  x : s.x = s'.x
  spEl0 : s.sys .spEl0 = s'.sys .spEl0
  pc : s.pc = s'.pc
  pstate : s.pstate = s'.pstate

theorem Entered.same (h : Entered frame s) (h' : Entered frame s') : SameAtEl0 s s' where
  x := funext fun r => (h.x r).trans (h'.x r).symm
  spEl0 := h.spEl0.trans h'.spEl0.symm
  pc := h.pc.trans h'.pc.symm
  pstate := h.pstate.trans h'.pstate.symm

/-- Taking an exception moves the return address and the state to where they are saved from. -/
theorem TrapFrame.ofMachine_takeException (s : Machine) (syndrome : UInt64) :
    ofMachine (s.takeException syndrome) = trapFrame s := rfl

/-- The frame that a trap leaves on the stack is the one that was entered. -/
theorem Entered.trapFrame_eq (h : Entered frame s) : trapFrame s = frame := by
  refine TrapFrame.ext (Vector.ext fun i hi => ?_) h.spEl0 h.pc h.pstate
  exact (x_trapFrame s ⟨i, hi⟩).trans (h.x ⟨i, hi⟩)

theorem entered_userEnter (h : TrapFrame.read s.mem (s.x 0) = frame) :
    Entered frame (execAll userEnter s) := by
  rw [execAll_userEnter, h]
  exact ⟨fun _ => rfl, rfl, rfl, rfl, rfl, rfl⟩

/-- Every frame lies somewhere in some memory. -/
theorem TrapFrame.exists_read (frame : TrapFrame) (a : UInt64) :
    ∃ m, TrapFrame.read m a = frame := by
  -- saving the registers of a machine that holds the frame puts it there
  have hholds : ∃ s : Machine, s.spEl1 = a + 272 ∧ TrapFrame.ofMachine s = frame := by
    refine ⟨⟨frame.x.get, a + 272, frame.systemOf fun _ => 0, 0, 0, fun _ => 0⟩, rfl, ?_⟩
    simp only [ofMachine, systemOf_spEl0, systemOf_elrEl1, systemOf_spsrEl1]
    refine TrapFrame.ext (Vector.ext fun i hi => ?_) rfl rfl rfl
    rw [Vector.getElem_ofFn]
    rfl
  obtain ⟨s, hsp, hframe⟩ := hholds
  obtain ⟨-, -, -, hread⟩ := execAll_save s
  rw [hsp, hframe, UInt64.add_sub_cancel] at hread
  exact ⟨_, hread⟩

/-- Entering the frame that the save half passes on gives its registers back. -/
theorem userEnter_save (s : Machine) :
    Entered (.ofMachine s) (execAll userEnter (execAll save s)) := by
  obtain ⟨-, hx0, -, hframe⟩ := execAll_save s
  apply entered_userEnter
  rw [hx0, hframe]

/-- **`user_enter` and the trap entry are inverse on frames.**  From any machine that passes a
    frame, the registers of the user are those of the frame and depend on nothing else; a
    trap taken then saves the same frame; and for a new user task every general register
    is zero. -/
theorem userEnter_inverse (h : TrapFrame.read s.mem (s.x 0) = frame) :
    Entered frame (execAll userEnter s) ∧
    (∀ s' : Machine, TrapFrame.read s'.mem (s'.x 0) = frame →
      SameAtEl0 (execAll userEnter s) (execAll userEnter s')) ∧
    (∀ syndrome, let trapped := execAll save ((execAll userEnter s).takeException syndrome)
      TrapFrame.read trapped.mem trapped.spEl1 = frame) ∧
    ∀ entry sp, frame = .newUser entry sp → ∀ r, (execAll userEnter s).x r = 0 := by
  have hentered := entered_userEnter h
  refine ⟨hentered, ?_, ?_, ?_⟩
  · intro s' h'
    exact hentered.same (entered_userEnter h')
  · intro syndrome
    obtain ⟨hsp, -, -, hframe⟩ := execAll_save ((execAll userEnter s).takeException syndrome)
    rw [← hsp, TrapFrame.ofMachine_takeException, hentered.trapFrame_eq] at hframe
    exact hframe
  · rintro entry sp rfl r
    rw [hentered.x r]
    exact Vector.getElem_replicate _

/-- A kernel about to enter a new user task at 0x400000. -/
def entering : Machine where
  x := fun r => if r = 0 then 0x1000 else 0xdead
  spEl1 := 0x8000
  sys := fun _ => 0xdead
  pc := 0
  pstate := 0
  mem := storeWord (storeWord (fun _ => 0) (slot 0x1000 31) 0x7000) (slot 0x1000 32) 0x400000

theorem userEnter_inverse_entering :
    Entered (.newUser 0x400000 0x7000) (execAll userEnter entering) ∧
      (execAll userEnter entering).x 19 = 0 := by
  have hzero : ∀ a, word (fun _ => 0) a = 0 := by
    intro a
    rw [word, List.map_const']
    decide
  have hslots : (32 : Nat) < maxSlots := by decide
  -- all words of the frame are zero, but for the stack and the entry
  have hword : ∀ k < maxSlots, word entering.mem (slot 0x1000 k) =
      if k = 32 then 0x400000 else if k = 31 then 0x7000 else 0 := by
    intro k hk
    rw [entering, word_storeWord_slot hslots hk, word_storeWord_slot (by omega) hk, hzero]
  have hread : TrapFrame.read entering.mem 0x1000 = .newUser 0x400000 0x7000 := by
    refine TrapFrame.read_eq_iff.mpr ⟨fun r => ?_, ?_, ?_, ?_⟩
    · have hr := r.isLt
      rw [hword r (Reg.lt_maxSlots r), if_neg (by omega), if_neg (by omega)]
      exact (Vector.getElem_replicate _).symm
    · exact hword 31 (by omega)
    · exact hword 32 (by omega)
    · exact hword 33 (by decide)
  have hx0 : entering.x 0 = 0x1000 := rfl
  rw [← hx0] at hread
  obtain ⟨hentered, -, -, hzeroed⟩ := userEnter_inverse hread
  exact ⟨hentered, hzeroed _ _ rfl 19⟩

end XnuRs.Kernel
