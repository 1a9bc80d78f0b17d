/-
  XnuRs.Kernel.Arch.SystemResults

  The kernel's machine does what a process can count on.

  A trap leaves the registers of the user in the frame, and the handler prints
  and returns what the process expects (`dispatch_serves`).  Every step of the
  machine is then matched by at most one step of the process (`simulates`), and
  so is every run (`system_refines`).  A program comes back from a trap exactly
  when that is a system call other than `exit` (`resumes_iff`).
-/

import XnuRs.Kernel.Arch.Process
import XnuRs.Kernel.Arch.UserEnter
import XnuRs.Lib.Simulation

namespace XnuRs.Kernel

open AArch64

variable {kernelMemory : UInt64 → Prop} {code : UserCode} {sp : UInt64}

/-! ## Vectors -/

/-- The handler of an exception: the one named for its origin and kind. -/
def handlerFor : Origin → ExceptionKind → Option Handler
  | .currentElSpx, .sync => some .exceptionEl1Sync
  | .currentElSpx, .irq => some .exceptionEl1Irq
  | .lowerElAArch64, .sync => some .exceptionLowerElSync
  | .lowerElAArch64, .irq => some .exceptionLowerElIrq
  | _, _ => none

/-- The table sends every exception to its handler, and those without one to a branch to
    itself. -/
theorem vectorCode_eq (origin : Origin) (kind : ExceptionKind) :
    vectorCode origin kind =
      some ((handlerFor origin kind).elim .branchToSelf .saveRestoreEret) := by
  cases origin <;> cases kind <;> rfl

/-! ## The user's part of the machine -/

namespace UserState

variable {u : UserState} {s : Machine}

/-- The frame with the user's registers. -/
def frame (u : UserState) : TrapFrame := ⟨.ofFn u.x, u.sp, u.pc, u.pstate⟩

@[simp] theorem of_into (u : UserState) (s : Machine) : of (u.into s) = u := by
  refine UserState.ext rfl ?_ rfl rfl rfl
  exact Function.update_self SysReg.spEl0 u.sp s.sys

theorem get_x_frame (u : UserState) : u.frame.x.get = u.x := by
  funext r
  show (Vector.ofFn u.x)[r] = u.x r
  simp

theorem trapFrame_eq (s : Machine) : trapFrame s = (of s).frame := rfl

end UserState

/-! ## The call of the handler -/

/-- The machine `t` is about to call the handler for the exception `e` of a user in state `u`,
    on a kernel stack that is empty but for the frame. -/
structure Called (kernelMemory : UInt64 → Prop) (sp : UInt64) (u : UserState) (e : Exception)
    (t : Machine) : Prop where
  spEl1 : t.spEl1 = sp - 272
  x0 : t.x 0 = t.spEl1
  esr : t.sys .esrEl1 = e.esr
  far : t.sys .farEl1 = e.far
  frame : TrapFrame.read t.mem t.spEl1 = u.frame
  mem : ∀ a, ¬ kernelMemory a → t.mem a = u.mem a

/-- The save half writes no byte outside the frame. -/
theorem execAll_save_mem {s : Machine} {a : UInt64} (hout : 272 ≤ (a - (s.spEl1 - 272)).toNat) :
    (execAll save s).mem a = s.mem a := by
  generalize hs₀ : (Instr.subSp 272).exec s = s₀
  have hsp₀ : s₀.baseOf .sp = s.spEl1 - 272 := by
    rw [← hs₀]
    rfl
  have hmem₀ : s₀.mem = s.mem := by
    rw [← hs₀]
    rfl
  have hgeneral : (execAll saveGeneral s₀).mem a = s₀.mem a :=
    execAll_saves_mem saveGeneral_saves (by rw [hsp₀]; omega)
  have hbase := (execAll_saves saveGeneral_saves s₀).baseOf_eq .sp
  have hsave : execAll save s =
      (Instr.movSp 0).exec (execAll saveSystem (execAll saveGeneral s₀)) := by
    rw [save, execAll_append, execAll_append, execAll_cons, execAll_nil, execAll_cons, hs₀]
  have hslots : (34 : Nat) < maxSlots := by decide
  -- the words of the system registers are the last three of the frame
  have hsp : (execAll saveGeneral s₀).spEl1 = s.spEl1 - 272 := hbase.trans hsp₀
  rw [hsave, execAll_saveSystem]
  show storeWord _ _ _ a = _
  rw [hsp, storeWord_slot_of_outside (n := 34) (by decide) hslots hout,
    storeWord_slot_of_outside (n := 34) (by decide) hslots hout,
    storeWord_slot_of_outside (n := 34) (by decide) hslots hout, hgeneral, hmem₀]

/-- The bytes of the frame of a trap belong to the kernel. -/
def FrameInKernel (kernelMemory : UInt64 → Prop) (sp : UInt64) : Prop :=
  ∀ a, (a - (sp - 272)).toNat < 272 → kernelMemory a

/-- An exception from EL0 gets to its handler. -/
theorem called_of_take (hframe : FrameInKernel kernelMemory sp) {s : Machine}
    (hsp : s.spEl1 = sp) (u : UserState) (e : Exception) :
    Called kernelMemory sp u e (execAll save (e.take (u.into s))) := by
  obtain ⟨hsp', hx0, hsys, hread⟩ := execAll_save (e.take (u.into s))
  have hspEl1 : (e.take (u.into s)).spEl1 = sp := hsp
  rw [hspEl1] at hsp' hx0 hread
  refine ⟨hsp', hx0.trans hsp'.symm, ?_, ?_, ?_, ?_⟩
  · rw [hsys]
    exact Machine.takeException_esrEl1 _ _
  · rw [hsys]
    simp [Exception.take, Machine.takeException, Machine.setSys]
  · rw [hsp', hread, Exception.take, TrapFrame.ofMachine_takeException]
    show (UserState.of (u.into s)).frame = u.frame
    rw [UserState.of_into]
  · intro a ha
    refine execAll_save_mem ?_
    rw [hspEl1]
    exact not_lt.mp fun hlt => ha (hframe a hlt)

/-- A handler that is called for an exception runs on its syndrome and on the registers of
    the user. -/
theorem Called.callRun_eq {u : UserState} {e : Exception} {t : Machine}
    (h : Called kernelMemory sp u e t) (handler : Handler) :
    handler.callRun t = handler.run e.esr e.far t.mem u.frame := by
  rw [Handler.callRun, h.esr, h.far, h.x0, h.frame]

/-- For an `svc`, the handler is `dispatch`. -/
theorem Called.callRun_svc {u : UserState} {e : Exception} {t : Machine}
    (h : Called kernelMemory sp u e t) (hsvc : e.IsSvc) :
    Handler.exceptionLowerElSync.callRun t = dispatch t.mem u.frame :=
  (h.callRun_eq _).trans (if_pos hsvc.2)

/-- A system call other than `exit` returns its result. -/
theorem Called.callRun_result {u : UserState} {e : Exception} {t : Machine}
    (h : Called kernelMemory sp u e t) (hsvc : e.IsSvc) (hexit : u.x 16 ≠ sysExit) :
    (Handler.exceptionLowerElSync.callRun t).result =
      .ok (some (u.frame.setX0 (syscallResult u.x))) := by
  have hnr : u.frame.x.get 16 ≠ sysExit := by
    rwa [u.get_x_frame]
  rw [h.callRun_svc hsvc, dispatch_result t.mem hnr, u.get_x_frame]

/-- The user behind a system call: only the result and the memory of the kernel have changed,
    and the kernel stack is empty again. -/
theorem Called.of_restore {u : UserState} {e : Exception} {t s' : Machine}
    (h : Called kernelMemory sp u e t) (hsvc : e.IsSvc) (hexit : u.x 16 ≠ sysExit)
    (hreturns : Handler.exceptionLowerElSync.Returns kernelMemory t s') :
    UserState.of (execAll restore s') =
        { u with x := Function.update u.x 0 (syscallResult u.x), mem := s'.mem } ∧
      (execAll restore s').spEl1 = sp ∧ ∀ a, ¬ kernelMemory a → s'.mem a = u.mem a := by
  obtain ⟨⟨hresult, hsp, -⟩, hmem⟩ := hreturns
  -- the frame that the handler leaves
  have hread : TrapFrame.read s'.mem s'.spEl1 = u.frame.setX0 (syscallResult u.x) := by
    have hsame := Option.some.inj (Except.ok.inj
      (hresult.symm.trans (h.callRun_result hsvc hexit)))
    rw [hsp, ← h.x0, hsame]
  have hback : s'.spEl1 + 272 = sp := by
    rw [hsp, h.spEl1, UInt64.sub_add_cancel]
  refine ⟨?_, ?_, fun a ha => (hmem a ha).trans (h.mem a ha)⟩
  · rw [execAll_restore, hread]
    refine UserState.ext (funext fun r => ?_) rfl rfl rfl rfl
    show (u.frame.setX0 (syscallResult u.x)).x[r] =
      Function.update u.x 0 (syscallResult u.x) r
    rw [TrapFrame.x_setX0, Function.update_apply]
    split
    · rfl
    · exact congrFun u.get_x_frame r
  · rw [execAll_restore]
    exact hback

/-! ## The handlers -/

@[simp] theorem printed_nil : printed [] = [] := rfl

@[simp] theorem printed_uart (op : UartOp) (log : List KernelOp) :
    printed (.uart op :: log) = op :: printed log := rfl

/-- The bytes of a buffer, printed one by one. -/
theorem printed_forEach_printByte (bytes : List UInt8) :
    printed (Traced.forEach printByte bytes).log = bytes.map .byte := by
  rw [Traced.forEach_log fun _ _ => rfl]
  induction bytes with
  | nil => rfl
  | cons b rest ih =>
      rw [List.map_cons, ← ih]
      rfl

section Dispatch

variable {u : UserState} (m : Mem)

/-- A `write` that is carried out prints the buffer, byte by byte. -/
theorem printed_write (h : AcceptedWrite u.x) :
    printed (dispatch m u.frame).log =
      ((List.range (u.x 2).toNat).map fun i => m (u.x 1 + .ofNat i)).map .byte := by
  obtain ⟨hwrite, haccepted⟩ := h
  have hget : ∀ r, u.frame.x.get r = u.x r := congrFun u.get_x_frame
  have hne : sysWrite ≠ sysExit := by decide
  rw [← printed_forEach_printByte]
  simp only [dispatch, hget, hwrite, if_neg hne, if_pos, if_pos haccepted]
  rw [Traced.bind_log_of_silent fun _ => rfl]

theorem printed_rejected (hwrite : u.x 16 = sysWrite) (h : ¬ AcceptedWrite u.x) :
    printed (dispatch m u.frame).log = [] := by
  have hrejected : ¬ ((u.x 0 = 1 ∨ u.x 0 = 2) ∧ u.x 1 ≠ 0 ∧ u.x 2 ≤ 65536) :=
    fun haccepted => h ⟨hwrite, haccepted⟩
  have hget : ∀ r, u.frame.x.get r = u.x r := congrFun u.get_x_frame
  have hne : sysWrite ≠ sysExit := by decide
  simp only [dispatch, hget, hwrite, if_neg hne, if_pos, if_neg hrejected]
  rfl

theorem printed_unimplemented (hexit : u.x 16 ≠ sysExit) (hwrite : u.x 16 ≠ sysWrite) :
    printed (dispatch m u.frame).log =
      [.str "xnu-rs: unimplemented syscall x16=0x", .hexU64 (u.x 16).toNat, .str "\n"] := by
  have hget : ∀ r, u.frame.x.get r = u.x r := congrFun u.get_x_frame
  simp only [dispatch, hget, if_neg hexit, if_neg hwrite, printStr, printHexU64,
    Traced.emit_bind_log, Traced.pure_log, printed_uart, printed_nil]

theorem printed_exit (hexit : u.x 16 = sysExit) :
    printed (dispatch m u.frame).log =
      [.str "xnu-rs: user exit(", .hexU64 (u.x 0).toNat, .str ")\n"] := by
  have hget : ∀ r, u.frame.x.get r = u.x r := congrFun u.get_x_frame
  simp only [dispatch, hget, if_pos hexit, printStr, printHexU64, Traced.emit_bind_log,
    Traced.pure_log, printed_uart, printed_nil]

variable {m}

/-- What `dispatch` prints and returns, for a call other than `exit`. -/
theorem dispatch_serves (hmem : ∀ a, ¬ kernelMemory a → m a = u.mem a)
    (hexit : u.x 16 ≠ sysExit) :
    Syscall kernelMemory u (consoleBytes (printed (dispatch m u.frame).log)) (syscallResult u.x) := by
  by_cases haccepted : AcceptedWrite u.x
  · rw [printed_write m haccepted, consoleBytes_map_byte, syscallResult, if_pos haccepted]
    refine .write haccepted (by simp) fun i hi hout => ?_
    rw [List.length_map, List.length_range] at hi
    rw [List.getElem?_map, List.getElem?_range hi]
    exact congrArg some (hmem _ hout)
  · rw [syscallResult, if_neg haccepted]
    by_cases hwrite : u.x 16 = sysWrite
    · rw [printed_rejected m hwrite haccepted]
      exact .rejected hwrite haccepted
    · have htext : consoleBytes (printed (dispatch m u.frame).log) =
          unimplementedText (u.x 16) := by
        simp only [printed_unimplemented m hexit hwrite, consoleBytes_cons, consoleBytes_nil,
          UartOp.bytes, unimplementedText, List.append_assoc, List.append_nil]
      rw [htext]
      exact .unimplemented hexit hwrite

end Dispatch

/-- What is printed of a handler that does not return, and that it does not. -/
structure Hangs (run : Executing (Option TrapFrame)) (text : List UInt8) : Prop where
  result : run.result = .ok none
  text : consoleBytes (printed run.log) = text

theorem dispatch_hangs {u : UserState} (m : Mem) (hexit : u.x 16 = sysExit) :
    Hangs (dispatch m u.frame) (exitText (u.x 0)) := by
  have hnr : u.frame.x.get 16 = sysExit := by
    rwa [u.get_x_frame]
  refine ⟨dispatch_exit m hnr, ?_⟩
  simp only [printed_exit m hexit, consoleBytes_cons, consoleBytes_nil, UartOp.bytes, exitText,
    List.append_assoc, List.append_nil]

theorem exceptionLowerElSync_hangs {e : Exception} (hec : e.ec ≠ 0x15) (m : Mem)
    (frame : TrapFrame) :
    Hangs (exceptionLowerElSync e.esr e.far m frame) (unexpectedText e frame.pc) := by
  have hrun : exceptionLowerElSync e.esr e.far m frame = _ := if_neg hec
  refine ⟨by rw [hrun]; rfl, ?_⟩
  rw [hrun]
  simp only [printStr, printHexU64, Traced.emit_bind_log, Traced.pure_log, printed_uart,
    printed_nil, consoleBytes_cons, consoleBytes_nil, UartOp.bytes, unexpectedText, Exception.ec,
    List.append_assoc, List.append_nil]

theorem unhandledIrq_hangs (message : String) : Hangs (unhandledIrq message) (asBytes message) := by
  refine ⟨rfl, ?_⟩
  simp only [unhandledIrq, printStr, Traced.emit_bind_log, Traced.pure_log, printed_uart,
    printed_nil, consoleBytes_cons, consoleBytes_nil, UartOp.bytes, List.append_nil]

theorem exceptionEl1Sync_hangs (esr : UInt64) (frame : TrapFrame) :
    Hangs (exceptionEl1Sync esr frame) (faultText esr frame.pc) := by
  refine ⟨rfl, ?_⟩
  simp only [exceptionEl1Sync, printStr, printHexU64, Traced.emit_bind_log, Traced.pure_log,
    printed_uart, printed_nil, consoleBytes_cons, consoleBytes_nil, UartOp.bytes, faultText,
    List.append_assoc, List.append_nil]

/-! ## The simulation -/

/-- The handler runs for the exception `e` of a user in state `u`, and prints `text` in all. -/
inductive Serves (kernelMemory : UInt64 → Prop) (sp : UInt64) (u : UserState) (e : Exception)
    (t : Machine) : Handler → List UInt8 → Prop
  | syscall (hsvc : e.IsSvc) (hexit : u.x 16 ≠ sysExit) (ht : Called kernelMemory sp u e t) :
      Serves kernelMemory sp u e t .exceptionLowerElSync
        (consoleBytes (printed (dispatch t.mem u.frame).log))
  | final {handler : Handler} {text : List UInt8} (hfinal : Final u e text)
      (hne : handler ≠ .exceptionEl1Sync) (hnone : (handler.callRun t).result = .ok none) :
      Serves kernelMemory sp u e t handler text
  | fault {text : List UInt8} (hfault : Faulted (Prints kernelMemory u e) text)
      (hnone : (Handler.exceptionEl1Sync.callRun t).result = .ok none) :
      Serves kernelMemory sp u e t .exceptionEl1Sync text

/-- The kernel's machine, and the process it shows.  While a handler runs, the process is
    still at its trap, and the console is ahead of it by the bytes that are already sent. -/
inductive Shows (kernelMemory : UInt64 → Prop) (code : UserCode) (sp : UInt64) :
    System → Process → Prop
  | user {s : Machine} {console : List UInt8} (hsp : s.spEl1 = sp) :
      Shows kernelMemory code sp ⟨s, .user, console⟩ ⟨.of s, console, false⟩
  | handling {t : Machine} {u u' : UserState} {e : Exception} {handler : Handler}
      {console sent : List UInt8} {pending : List UartOp} (hraises : code.raises u e u')
      (hserves : Serves kernelMemory sp u' e t handler (sent ++ consoleBytes pending)) :
      Shows kernelMemory code sp ⟨t, .handling handler pending, console ++ sent⟩
        ⟨u, console, false⟩
  | spinning {t : Machine} {u : UserState} {console : List UInt8} :
      Shows kernelMemory code sp ⟨t, .spinning, console⟩ ⟨u, console, true⟩

/-- The steps of the process that a step of the machine completes. -/
def SystemEvent.seen : SystemEvent → List ProcessEvent
  | compute => [.compute]
  | take e => if e.kind = .fiq ∨ e.kind = .serror then [.halt] else []
  | print => []
  | resume => [.syscall]
  | hang handler => if handler = .exceptionEl1Sync then [.fault] else [.halt]
  | fault => []

theorem serves_of_sync (hframe : FrameInKernel kernelMemory sp) {s : Machine} (hsp : s.spEl1 = sp)
    {u : UserState} {e : Exception} (hkind : e.kind = .sync) :
    let t := execAll save (e.take (u.into s))
    Serves kernelMemory sp u e t .exceptionLowerElSync
      (consoleBytes (printed (Handler.exceptionLowerElSync.callRun t).log)) := by
  intro t
  have ht : Called kernelMemory sp u e t := called_of_take hframe hsp u e
  by_cases hec : e.ec = 0x15
  · have hrun := ht.callRun_svc ⟨hkind, hec⟩
    rw [hrun]
    by_cases hexit : u.x 16 = sysExit
    · have hhangs := dispatch_hangs t.mem hexit
      rw [hhangs.text]
      refine .final (.exit ⟨hkind, hec⟩ hexit) (by decide) ?_
      rw [hrun, hhangs.result]
    · exact .syscall ⟨hkind, hec⟩ hexit ht
  · have hrun : Handler.exceptionLowerElSync.callRun t =
        exceptionLowerElSync e.esr e.far t.mem u.frame := ht.callRun_eq _
    have hhangs := exceptionLowerElSync_hangs hec t.mem u.frame
    rw [hrun, hhangs.text]
    refine .final (.unexpected hkind hec) (by decide) ?_
    rw [hrun, hhangs.result]

/-- Entering the code of the vector of an exception from EL0. -/
theorem take_shows (hframe : FrameInKernel kernelMemory sp) {s : Machine} (hsp : s.spEl1 = sp)
    {u : UserState} {e : Exception} {c : VectorCode} {console : List UInt8}
    (hraises : code.raises (.of s) e u) (hc : vectorCode .lowerElAArch64 e.kind = some c) :
    ∃ p, Runs (Process.Step kernelMemory code) ⟨.of s, console, false⟩ (SystemEvent.take e).seen p ∧
      Shows kernelMemory code sp (c.enter (e.take (u.into s)) console) p := by
  rw [vectorCode_eq] at hc
  obtain rfl := Option.some.inj hc
  have hstuck (hkind : e.kind = .fiq ∨ e.kind = .serror) :
      ∃ p, Runs (Process.Step kernelMemory code) ⟨.of s, console, false⟩ (SystemEvent.take e).seen p ∧
        Shows kernelMemory code sp ⟨e.take (u.into s), .spinning, console⟩ p := by
    have hhalt : Process.Step kernelMemory code ⟨.of s, console, false⟩ .halt
        ⟨u, console ++ [], true⟩ := .halt hraises (.silent hkind)
    rw [List.append_nil] at hhalt
    refine ⟨⟨u, console, true⟩, ?_, .spinning⟩
    rw [SystemEvent.seen, if_pos hkind]
    exact Runs.start.snoc hhalt
  -- with a handler, nothing of the text is sent yet
  have hhandled (handler : Handler) (hnot : ¬ (e.kind = .fiq ∨ e.kind = .serror))
      (hserves : let t := execAll save (e.take (u.into s))
        Serves kernelMemory sp u e t handler (consoleBytes (printed (handler.callRun t).log))) :
      ∃ p, Runs (Process.Step kernelMemory code) ⟨.of s, console, false⟩ (SystemEvent.take e).seen p ∧
        Shows kernelMemory code sp ((VectorCode.saveRestoreEret handler).enter (e.take (u.into s))
          console) p := by
    refine ⟨⟨.of s, console, false⟩, ?_, ?_⟩
    · rw [SystemEvent.seen, if_neg hnot]
      exact .start
    · have hshows := @Shows.handling kernelMemory code sp _ _ _ _ _ console [] _ hraises hserves
      rwa [List.append_nil] at hshows
  cases hkind : e.kind with
  | sync =>
      exact hhandled _ (by simp [hkind]) (serves_of_sync hframe hsp hkind)
  | irq =>
      refine hhandled _ (by simp [hkind]) ?_
      have hhangs := unhandledIrq_hangs "xnu-rs: unhandled lower-EL IRQ\n"
      refine .final ?_ (by decide) hhangs.result
      have htext : consoleBytes (printed (Handler.exceptionLowerElIrq.callRun
          (execAll save (e.take (u.into s)))).log) = interruptText := hhangs.text
      rw [htext]
      exact .irq hkind
  | fiq => exact hstuck (.inl hkind)
  | serror => exact hstuck (.inr hkind)

/-- A system call that returns. -/
theorem resume_shows {t s' : Machine} {u u' : UserState} {e : Exception} {console : List UInt8}
    (hraises : code.raises u e u') (hsvc : e.IsSvc) (hexit : u'.x 16 ≠ sysExit)
    (ht : Called kernelMemory sp u' e t)
    (hreturns : Handler.exceptionLowerElSync.Returns kernelMemory t s') :
    let text := consoleBytes (printed (dispatch t.mem u'.frame).log)
    ∃ p, Process.Step kernelMemory code ⟨u, console, false⟩ .syscall p ∧
      Shows kernelMemory code sp ⟨execAll restore s', .user, console ++ text⟩ p := by
  intro text
  obtain ⟨hof, hback, hmem⟩ := ht.of_restore hsvc hexit hreturns
  refine ⟨⟨.of (execAll restore s'), console ++ text, false⟩, ?_, .user hback⟩
  rw [hof]
  exact .syscall hraises hsvc (dispatch_serves ht.mem hexit) hmem

/-- A synchronous exception in a handler: what is sent is a part of the text, and a report
    follows it. -/
theorem fault_shows {t s' : Machine} {u u' : UserState} {e e' : Exception} {handler : Handler}
    {console sent : List UInt8} {pending : List UartOp} (hraises : code.raises u e u')
    (hserves : Serves kernelMemory sp u' e t handler (sent ++ consoleBytes pending)) :
    Shows kernelMemory code sp
      ((VectorCode.saveRestoreEret .exceptionEl1Sync).enter (e'.take s') (console ++ sent))
      ⟨u, console, false⟩ := by
  generalize htext : sent ++ consoleBytes pending = text at hserves
  have hsent : sent <+: text := ⟨_, htext⟩
  let t' := execAll save (e'.take s')
  have hhangs : Hangs (Handler.exceptionEl1Sync.callRun t') _ := exceptionEl1Sync_hangs _ _
  refine .handling hraises (.fault ?_ hhangs.result)
  rw [hhangs.text]
  cases hserves with
  | syscall hsvc hexit ht =>
      exact .once (.inl ⟨hsvc, _, dispatch_serves ht.mem hexit⟩) hsent
  | final hfinal => exact .once (.inr hfinal) hsent
  | fault hfault => exact .again hfault hsent

/-- A handler that has sent its whole text returns or hangs. -/
theorem Serves.resume {t s' : Machine} {u u' : UserState} {e : Exception} {handler : Handler}
    {console text : List UInt8} (hserves : Serves kernelMemory sp u' e t handler text)
    (hraises : code.raises u e u') (hreturns : handler.Returns kernelMemory t s') :
    ∃ p, Process.Step kernelMemory code ⟨u, console, false⟩ .syscall p ∧
      Shows kernelMemory code sp ⟨execAll restore s', .user, console ++ text⟩ p := by
  cases hserves with
  | syscall hsvc hexit ht => exact resume_shows hraises hsvc hexit ht hreturns
  | final _ _ hnone => exact nomatch hnone.symm.trans hreturns.call.frame
  | fault _ hnone => exact nomatch hnone.symm.trans hreturns.call.frame

theorem Serves.hang {t : Machine} {u u' : UserState} {e : Exception} {handler : Handler}
    {console text : List UInt8} (hserves : Serves kernelMemory sp u' e t handler text)
    (hraises : code.raises u e u') (hnone : (handler.callRun t).result = .ok none) :
    Runs (Process.Step kernelMemory code) ⟨u, console, false⟩ (SystemEvent.hang handler).seen
      ⟨u', console ++ text, true⟩ := by
  cases hserves with
  | syscall hsvc hexit ht =>
      -- a system call other than `exit` returns
      exact nomatch (ht.callRun_result hsvc hexit).symm.trans hnone
  | final hfinal hne _ =>
      rw [SystemEvent.seen, if_neg hne]
      exact Runs.start.snoc (.halt hraises hfinal)
  | fault hfault _ => exact Runs.start.snoc (.fault hraises hfault)

/-- The process keeps up with every step of the machine. -/
theorem simulates (hframe : FrameInKernel kernelMemory sp) :
    Simulates (System.Step kernelMemory code) (Process.Step kernelMemory code) SystemEvent.seen
      (Shows kernelMemory code sp) := by
  intro s l s₁ p hstep hshows
  cases hstep with
  | @compute t console u hcomputes =>
      cases hshows with
      | user hsp =>
          have huser : Shows kernelMemory code sp ⟨u.into t, .user, console⟩
              ⟨.of (u.into t), console, false⟩ := .user hsp
          rw [UserState.of_into] at huser
          exact ⟨_, Runs.start.snoc (.compute hcomputes), huser⟩
  | take hraises hc =>
      cases hshows with
      | user hsp => exact take_shows hframe hsp hraises hc
  | @print t console handler op pending =>
      cases hshows with
      | handling hraises hserves =>
          -- the bytes of the print move from what is pending to what is sent
          rw [consoleBytes_cons, ← List.append_assoc] at hserves
          rw [List.append_assoc]
          exact ⟨_, .start, .handling hraises hserves⟩
  | resume hreturns =>
      cases hshows with
      | handling hraises hserves =>
          rw [consoleBytes_nil, List.append_nil] at hserves
          obtain ⟨p, hstep, hshows⟩ := hserves.resume hraises hreturns
          exact ⟨p, Runs.start.snoc hstep, hshows⟩
  | hang hnone =>
      cases hshows with
      | handling hraises hserves =>
          rw [consoleBytes_nil, List.append_nil] at hserves
          exact ⟨_, hserves.hang hraises hnone, .spinning⟩
  | fault hkind hc =>
      rw [vectorCode_eq, hkind] at hc
      obtain rfl := Option.some.inj hc
      cases hshows with
      | handling hraises hserves => exact ⟨_, .start, fault_shows hraises hserves⟩

/-- What the console of a machine has that the process has not printed yet. -/
theorem Shows.facts {s : System} {p : Process} (h : Shows kernelMemory code sp s p) :
    p.console <+: s.console ∧
    (s.mode = .user → p = ⟨.of s.machine, s.console, false⟩ ∧ s.machine.spEl1 = sp) ∧
    (s.mode = .spinning → p.halted = true ∧ p.console = s.console) ∧
    (p.halted = true → s.mode = .spinning) := by
  cases h with
  | user hsp => exact ⟨List.prefix_rfl, fun _ => ⟨rfl, hsp⟩, nofun, nofun⟩
  | handling => exact ⟨List.prefix_append .., nofun, nofun, nofun⟩
  | spinning => exact ⟨List.prefix_rfl, nofun, fun _ => ⟨rfl, rfl⟩, fun _ => rfl⟩

/-- **The kernel refines the process.**  Whatever the user code is, and in whatever order it
    computes, traps and is interrupted: every run of the machine from EL0 is one of the process,
    step by step.  At EL0 the two have the same registers, memory and console, and the kernel
    stack is empty; in a handler the console is at most ahead; and the machine spins exactly when
    the process has halted. -/
theorem system_refines (hframe : FrameInKernel kernelMemory sp) {s : Machine} {s' : System}
    {console : List UInt8} {events : List SystemEvent} (hsp : s.spEl1 = sp)
    (hrun : Runs (System.Step kernelMemory code) ⟨s, .user, console⟩ events s') :
    ∃ p, Runs (Process.Step kernelMemory code) ⟨.of s, console, false⟩
        (events.flatMap SystemEvent.seen) p ∧
      p.console <+: s'.console ∧
      (s'.mode = .user → p = ⟨.of s'.machine, s'.console, false⟩ ∧ s'.machine.spEl1 = sp) ∧
      (s'.mode = .spinning → p.halted = true ∧ p.console = s'.console) ∧
      (p.halted = true → s'.mode = .spinning) := by
  obtain ⟨p, hprocess, hshows⟩ := (simulates hframe).run hrun (.user hsp)
  exact ⟨p, hprocess, hshows.facts⟩

/-! ## Traps that are returned from -/

/-- A handler can send what it has to print. -/
theorem runs_print (t : Machine) (handler : Handler) (pending : List UartOp)
    (console : List UInt8) :
    Runs (System.Step kernelMemory code) ⟨t, .handling handler pending, console⟩
      (.replicate pending.length .print)
      ⟨t, .handling handler [], console ++ consoleBytes pending⟩ := by
  induction pending generalizing console with
  | nil =>
      rw [consoleBytes_nil, List.append_nil]
      exact .start
  | cons op rest ih =>
      rw [consoleBytes_cons, ← List.append_assoc]
      exact .cons .print (ih (console ++ op.bytes))

/-- A system call other than `exit` can return. -/
theorem Called.exists_returns (hframe : FrameInKernel kernelMemory sp) {u : UserState}
    {e : Exception} {t : Machine} (ht : Called kernelMemory sp u e t) (hsvc : e.IsSvc)
    (hexit : u.x 16 ≠ sysExit) :
    ∃ s', Handler.exceptionLowerElSync.Returns kernelMemory t s' := by
  -- a handler that stores the result in the frame and changes nothing else
  refine ⟨{ t with mem := storeWord t.mem (slot t.spEl1 0) (syscallResult u.x) },
    ⟨?_, rfl, fun _ _ _ => rfl⟩, fun a ha => ?_⟩
  · have hrun := ht.callRun_result hsvc hexit
    rw [Handler.callRun, ht.x0, ht.frame] at hrun
    show _ = Except.ok (some (TrapFrame.read (storeWord t.mem (slot t.spEl1 0) _) (t.x 0)))
    rw [ht.x0, TrapFrame.read_storeWord, ht.frame]
    exact hrun
  · refine storeWord_slot_of_outside (n := 34) (by decide) (by decide) ?_
    rw [ht.spEl1]
    exact not_lt.mp fun hlt => ha (hframe a hlt)

/-- The program runs again after a system call other than `exit`. -/
theorem exists_resume (hframe : FrameInKernel kernelMemory sp) {s : Machine} (hsp : s.spEl1 = sp)
    {u : UserState} {e : Exception} {c : VectorCode} (hsvc : e.IsSvc) (hexit : u.x 16 ≠ sysExit)
    (console : List UInt8) (hc : vectorCode .lowerElAArch64 e.kind = some c) :
    ∃ events s', Runs (System.Step kernelMemory code) (c.enter (e.take (u.into s)) console)
      events s' ∧ s'.mode = .user := by
  have ht : Called kernelMemory sp u e (execAll save (e.take (u.into s))) :=
    called_of_take hframe hsp u e
  obtain ⟨s', hreturns⟩ := ht.exists_returns hframe hsvc hexit
  rw [vectorCode_eq, hsvc.1] at hc
  obtain rfl := Option.some.inj hc
  exact ⟨_, _, (runs_print _ _ _ console).snoc (.resume hreturns), rfl⟩

/-- The machine will not be at EL0 again. -/
def System.Doomed (s : System) : Prop :=
  match s.mode with
  | .user => False
  | .handling handler _ => (handler.callRun s.machine).result = .ok none
  | .spinning => True

/-- A doomed machine stays doomed, and only prints. -/
theorem System.Doomed.step {s s' : System} {l : SystemEvent} (h : s.Doomed)
    (hstep : System.Step kernelMemory code s l s') :
    s'.Doomed ∧ (l = .print ∨ l = .fault ∨ ∃ handler, l = .hang handler) := by
  cases hstep with
  | compute => exact h.elim
  | take => exact h.elim
  | print => exact ⟨h, .inl rfl⟩
  | resume hreturns => exact nomatch h.symm.trans hreturns.call.frame
  | hang => exact ⟨trivial, .inr (.inr ⟨_, rfl⟩)⟩
  | fault hkind hc =>
      rw [vectorCode_eq, hkind] at hc
      obtain rfl := Option.some.inj hc
      exact ⟨rfl, .inr (.inl rfl)⟩

theorem System.Doomed.run {s s' : System} {ls : List SystemEvent} (h : s.Doomed)
    (hrun : Runs (System.Step kernelMemory code) s ls s') :
    s'.Doomed ∧ ∀ l ∈ ls, l = .print ∨ l = .fault ∨ ∃ handler, l = .hang handler := by
  refine hrun.history (I := fun ls s' => s'.Doomed ∧
    ∀ l ∈ ls, l = .print ∨ l = .fault ∨ ∃ handler, l = .hang handler) ⟨h, nofun⟩ ?_
  rintro ls s₁ l s₂ ⟨hdoomed, hall⟩ hstep
  obtain ⟨hdoomed', hl⟩ := hdoomed.step hstep
  refine ⟨hdoomed', fun l' hmem => ?_⟩
  rcases List.mem_append.mp hmem with hold | hnew
  · exact hall l' hold
  · rwa [List.mem_singleton.mp hnew]

/-- A fault of the kernel, or the loop at the end of a handler, dooms the machine. -/
theorem doomed_of_event {s s' : System} {l : SystemEvent}
    (hl : l = .fault ∨ ∃ handler, l = .hang handler)
    (hstep : System.Step kernelMemory code s l s') : s'.Doomed := by
  cases hstep with
  | hang => trivial
  | fault hkind hc =>
      rw [vectorCode_eq, hkind] at hc
      obtain rfl := Option.some.inj hc
      rfl
  | compute | take | print | resume => simp at hl

/-- A handler that serves anything but a system call that returns does not return. -/
theorem Serves.hangs_of_not {u : UserState} {e : Exception} {t : Machine} {handler : Handler}
    {text : List UInt8} (h : Serves kernelMemory sp u e t handler text)
    (hnot : ¬ (e.IsSvc ∧ u.x 16 ≠ sysExit)) : (handler.callRun t).result = .ok none := by
  cases h with
  | syscall hsvc hexit => exact absurd ⟨hsvc, hexit⟩ hnot
  | final _ _ hnone => exact hnone
  | fault _ hnone => exact hnone

/-- Every other exception dooms the machine when it is taken. -/
theorem doomed_of_take (hframe : FrameInKernel kernelMemory sp) {s : Machine} (hsp : s.spEl1 = sp)
    {u : UserState} {e : Exception} {c : VectorCode} {console : List UInt8}
    (hc : vectorCode .lowerElAArch64 e.kind = some c) (hnot : ¬ (e.IsSvc ∧ u.x 16 ≠ sysExit)) :
    (c.enter (e.take (u.into s)) console).Doomed := by
  rw [vectorCode_eq] at hc
  obtain rfl := Option.some.inj hc
  cases hkind : e.kind with
  | sync => exact (serves_of_sync hframe hsp hkind).hangs_of_not hnot
  | irq => exact (unhandledIrq_hangs _).result
  | fiq => trivial
  | serror => trivial

/-- **When a program runs again.**  An exception is returned from exactly when it is a system
    call other than `exit`.  After a fault in the kernel, and once a handler is in its last
    loop, the machine never gets back to EL0: all that still happens is that texts of faults
    are printed. -/
theorem resumes_iff (hframe : FrameInKernel kernelMemory sp) {s : Machine} (hsp : s.spEl1 = sp)
    {u : UserState} {e : Exception} {c : VectorCode} (console : List UInt8)
    (hc : vectorCode .lowerElAArch64 e.kind = some c) :
    ((∃ events s', Runs (System.Step kernelMemory code) (c.enter (e.take (u.into s)) console)
        events s' ∧ s'.mode = .user) ↔ e.IsSvc ∧ u.x 16 ≠ sysExit) ∧
    ∀ (start s' : System) (before after : List SystemEvent) (l : SystemEvent),
      Runs (System.Step kernelMemory code) start (before ++ l :: after) s' →
      (l = .fault ∨ ∃ handler, l = .hang handler) →
      s'.mode ≠ .user ∧ ∀ l' ∈ after, l' = .print ∨ l' = .fault ∨ ∃ handler, l' = .hang handler := by
  have hstays : ∀ {s s' : System} {ls : List SystemEvent}, s.Doomed →
      Runs (System.Step kernelMemory code) s ls s' → s'.mode ≠ .user := by
    intro s s' ls hdoomed hrun huser
    have hdoomed' := (hdoomed.run hrun).1
    rw [System.Doomed, huser] at hdoomed'
    exact hdoomed'
  refine ⟨⟨?_, ?_⟩, ?_⟩
  · rintro ⟨events, s', hrun, huser⟩
    by_contra hnot
    exact hstays (doomed_of_take hframe hsp hc hnot) hrun huser
  · rintro ⟨hsvc, hexit⟩
    exact exists_resume hframe hsp hsvc hexit console hc
  · intro start s' before after l hrun hl
    obtain ⟨s₁, -, hrest⟩ := hrun.of_append
    obtain ⟨s₂, hstep, hafter⟩ := hrest.of_cons
    have hdoomed := doomed_of_event hl hstep
    exact ⟨hstays hdoomed hafter, (hdoomed.run hafter).2⟩

/-! ## A write -/

/-- The `svc` of a program. -/
def svcException : Exception := ⟨.sync, svcSyndrome 0x80, 0⟩

/-- A kernel whose memory is the frame of a trap, below a stack pointer of 0x8000. -/
def frameMemory (a : UInt64) : Prop := (a - (0x8000 - 272)).toNat < 272

theorem system_refines_writing :
    ∃ (events : List SystemEvent) (s' : System) (p : Process),
      Runs (System.Step frameMemory .any) ⟨writing, .user, []⟩ (.take svcException :: events) s' ∧
      Runs (Process.Step frameMemory .any) ⟨.of writing, [], false⟩
        ((.take svcException :: events).flatMap SystemEvent.seen) p ∧
      p = ⟨.of s'.machine, s'.console, false⟩ ∧ s'.machine.spEl1 = 0x8000 := by
  have hframe : FrameInKernel frameMemory 0x8000 := fun _ h => h
  have hsvc : svcException.IsSvc := by decide +kernel
  have hexit : (UserState.of writing).x 16 ≠ sysExit := by decide
  obtain ⟨events, s', hrun, huser⟩ : ∃ events s', Runs (System.Step frameMemory .any)
      ((VectorCode.saveRestoreEret .exceptionLowerElSync).enter
        (svcException.take ((UserState.of writing).into writing)) []) events s' ∧
      s'.mode = .user := exists_resume hframe rfl hsvc hexit [] rfl
  have hall : Runs (System.Step frameMemory .any) ⟨writing, .user, []⟩
      (.take svcException :: events) s' := .cons (.take trivial rfl) hrun
  obtain ⟨p, hprocess, -, hback, -⟩ := system_refines hframe rfl hall
  exact ⟨events, s', p, hall, hprocess, hback huser⟩

theorem resumes_iff_writing :
    ∃ (events : List SystemEvent) (s' : System),
      Runs (System.Step frameMemory .any)
        ((VectorCode.saveRestoreEret .exceptionLowerElSync).enter
          (svcException.take ((UserState.of writing).into writing)) []) events s' ∧
      s'.mode = .user :=
  have hframe : FrameInKernel frameMemory 0x8000 := fun _ h => h
  (resumes_iff hframe rfl [] rfl).1.mpr ⟨by decide +kernel, by decide⟩

end XnuRs.Kernel
