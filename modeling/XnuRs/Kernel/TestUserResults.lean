/-
  XnuRs.Kernel.TestUserResults

  What the built-in user program does on the kernel: it writes its message,
  exits with 42, and the kernel spins.

  The program has two straight lines of instructions that end in an `svc`
  (`legs`).  A machine that runs it goes through one `Stage` after the other, 29
  in all, unless the kernel itself faults; `Stage.step` says that there is no
  other way and `Stage.progress` that there is always one.
-/

import XnuRs.Kernel.Arch.SystemResults
import XnuRs.Kernel.Arch.UserCode
import XnuRs.Kernel.TestUser

namespace XnuRs.Kernel

open AArch64
open A64 (HoldsAt)

variable {kernelMemory : UInt64 → Prop} {sp base : UInt64} {u v : UserState} {e : Exception}

/-! ## The program in memory -/

/-- The program and its message. -/
def testCode : List UInt8 := A64.assemble testProgram ++ testMessage

theorem testCode_length : testCode.length = 48 := by decide +kernel

/-- The user is at instruction `k` of the program at `base`, with some known registers. -/
structure At (base : UInt64) (k : Nat) (known : List (Reg × UInt64)) (u : UserState) : Prop where
  code : HoldsAt u.mem base testCode
  pc : u.pc = base + .ofNat (4 * k)
  known : ∀ r ∈ known, u.x r.1 = r.2

/-- The registers that the program has set, and will use, in front of each instruction. -/
def knownAt (base : UInt64) : Nat → List (Reg × UInt64)
  | 1 => [(1, base + 32)]
  | 2 => [(0, 1), (1, base + 32)]
  | 3 => [(0, 1), (1, base + 32), (2, 16)]
  | 4 => [(0, 1), (1, base + 32), (2, 16), (16, 4)]
  | 6 => [(0, 42)]
  | 7 => [(0, 42), (16, 1)]
  | _ => []

theorem At.instr {k : Nat} {known : List (Reg × UInt64)} {i : A64.Instr}
    (h : At base k known u) (hi : testProgram[k]? = some i) : u.instr = some i := by
  rw [UserState.instr, h.pc]
  exact A64.decode_fetch h.code.left hi

/-- An instruction that sets one register, and goes on. -/
theorem At.set {k : Nat} {known known' : List (Reg × UInt64)} {r : Reg} {w : UInt64}
    (h : At base k known u)
    (hknown : ∀ p ∈ known', p = (r, w) ∨ (p ∈ known ∧ p.1 ≠ r)) :
    At base (k + 1) known' { u with x := Function.update u.x r w, pc := u.pc + 4 } where
  code := h.code
  pc := by
    show u.pc + UInt64.ofNat 4 = _
    rw [h.pc, UInt64.add_assoc, ← UInt64.ofNat_add]
    rfl
  known := by
    intro p hp
    rcases hknown p hp with rfl | ⟨hmem, hne⟩
    · exact Function.update_self ..
    · exact (Function.update_of_ne hne ..).trans (h.known p hmem)

/-- The instructions that are no `svc`. -/
theorem At.exec {k : Nat} (h : At base k (knownAt base k) u) (hlt : k < 7) (hne : k ≠ 4) :
    ∃ i v, u.instr = some i ∧ u.exec i = some v ∧ At base (k + 1) (knownAt base (k + 1)) v := by
  have hcases : k = 0 ∨ k = 1 ∨ k = 2 ∨ k = 3 ∨ k = 5 ∨ k = 6 := by omega
  rcases hcases with rfl | rfl | rfl | rfl | rfl | rfl
  · refine ⟨_, _, h.instr rfl, rfl, ?_⟩
    have hpc : u.pc + .ofBitVec (BitVec.signExtend 64 (32 : BitVec 21)) = base + 32 := by
      rw [h.pc]
      show base + 0 + 32 = _
      rw [UInt64.add_zero]
    have hset : At base 1 (knownAt base 1) _ :=
      h.set (r := 1) (w := base + 32) (by simp [knownAt])
    rw [← hpc] at hset
    exact hset
  · exact ⟨_, _, h.instr rfl, rfl, h.set (r := 0) (w := 1) (by simp [knownAt])⟩
  · exact ⟨_, _, h.instr rfl, rfl, h.set (r := 2) (w := 16) (by simp [knownAt])⟩
  · exact ⟨_, _, h.instr rfl, rfl, h.set (r := 16) (w := 4) (by simp [knownAt])⟩
  · exact ⟨_, _, h.instr rfl, rfl, h.set (r := 0) (w := 42) (by simp [knownAt])⟩
  · exact ⟨_, _, h.instr rfl, rfl, h.set (r := 16) (w := 1) (by simp [knownAt])⟩

/-- The `svc` raises its exception, and only this. -/
theorem At.svc_iff {k : Nat} {known : List (Reg × UInt64)} (h : At base k known u)
    (hi : testProgram[k]? = some (.svc 0x80)) :
    a64Code.raises u e v ↔ IsException 0x80 e ∧ v = { u with pc := u.pc + 4 } :=
  a64_raises_svc_iff (h.instr hi)

theorem At.behind {k : Nat} {known : List (Reg × UInt64)} (h : At base k known u) :
    At base (k + 1) known { u with pc := u.pc + 4 } where
  code := h.code
  pc := by
    show u.pc + UInt64.ofNat 4 = _
    rw [h.pc, UInt64.add_assoc, ← UInt64.ofNat_add]
    rfl
  known := h.known

/-! ## Legs -/

/-- A straight line of instructions up to an `svc`: the instructions, how many events come
    before it, what is on the console then, and what the `svc` prints. -/
structure Leg where
  first : Nat
  svc : Nat
  before : Nat
  text : List UInt8
  ops : List UartOp

/-- `write(1, message, 16)`. -/
def writeLeg : Leg := ⟨0, 4, 0, [], testMessage.map .byte⟩

/-- `exit(42)`. -/
def exitLeg : Leg :=
  ⟨5, 7, 22, testMessage, [.str "xnu-rs: user exit(", .hexU64 (42 : UInt64).toNat, .str ")\n"]⟩

def legs : List Leg := [writeLeg, exitLeg]

theorem mem_legs {leg : Leg} : leg ∈ legs ↔ leg = writeLeg ∨ leg = exitLeg := by simp [legs]

theorem legs_svc : ∀ leg ∈ legs, leg.first ≤ leg.svc ∧ leg.svc ≤ 7 ∧
    testProgram[leg.svc]? = some (.svc 0x80) ∧
    ∀ k < leg.svc, leg.first ≤ k → k ≠ 4 := by decide

/-- The program lies below the top of the address space, and its bytes are not the kernel's. -/
structure Placed (kernelMemory : UInt64 → Prop) (base : UInt64) : Prop where
  room : base.toNat + 48 ≤ 2 ^ 64
  outside : ∀ i < 48, ¬ kernelMemory (base + .ofNat i)

/-- The kernel can do what it likes to its own memory. -/
theorem Placed.keeps (hplaced : Placed kernelMemory base) {m m' : Mem}
    (h : HoldsAt m base testCode) (hmem : ∀ a, ¬ kernelMemory a → m' a = m a) :
    HoldsAt m' base testCode := by
  refine h.congr fun i hi => hmem _ (hplaced.outside i ?_)
  rwa [testCode_length] at hi

theorem Placed.message_ne_zero (hplaced : Placed kernelMemory base) : base + 32 ≠ 0 := by
  have hroom := hplaced.room
  have h32 : (32 : UInt64).toNat = 32 := rfl
  rw [Ne, ← UInt64.toNat_inj, UInt64.toNat_add, h32, Nat.mod_eq_of_lt (by omega)]
  simp

/-- Where the message stands. -/
theorem message_of_holds {m : Mem} (h : HoldsAt m base testCode) :
    (List.range 16).map (fun i => m (base + 32 + .ofNat i)) = testMessage := by
  have hright := h.right
  have hlen : testMessage.length = 16 := by decide +kernel
  rw [A64.assemble_length] at hright
  apply List.ext_getElem?
  intro k
  by_cases hk : k < 16
  · rw [hright k (by omega), List.getElem?_map, List.getElem?_range hk]
    rfl
  · rw [List.getElem?_eq_none (by simpa using hk), List.getElem?_eq_none (by omega)]

section Legs

variable (hplaced : Placed kernelMemory base)
include hplaced

/-- What the program asks for at the end of its first leg. -/
theorem At.write (h : At base 5 (knownAt base 4) u) :
    AcceptedWrite u.x ∧ u.x 1 = base + 32 ∧ u.x 2 = 16 := by
  obtain ⟨h0, h1, h2, h16⟩ : u.x 0 = 1 ∧ u.x 1 = base + 32 ∧ u.x 2 = 16 ∧ u.x 16 = 4 := by
    simpa [knownAt] using h.known
  refine ⟨⟨h16, ?_⟩, h1, h2⟩
  rw [h0, h1, h2]
  exact ⟨.inl rfl, hplaced.message_ne_zero, by decide⟩

/-- Each leg ends in a system call that prints what the leg says. -/
theorem printed_leg {leg : Leg} (hleg : leg ∈ legs) {t : Machine}
    (h : At base (leg.svc + 1) (knownAt base leg.svc) u) (ht : Called kernelMemory sp u e t) :
    printed (dispatch t.mem u.frame).log = leg.ops := by
  rcases mem_legs.mp hleg with rfl | rfl
  · obtain ⟨haccepted, h1, h2⟩ := At.write hplaced h
    have hholds := hplaced.keeps h.code ht.mem
    rw [printed_write t.mem haccepted, h1, h2]
    exact congrArg (List.map UartOp.byte) (message_of_holds hholds)
  · obtain ⟨h0, h16⟩ : u.x 0 = 42 ∧ u.x 16 = 1 := by
      simpa [knownAt, exitLeg] using h.known
    rw [printed_exit t.mem h16, h0]
    rfl

end Legs

/-! ## Stages -/

/-- The machine after `n` events of the program, when `console` was printed before. -/
inductive Stage (kernelMemory : UInt64 → Prop) (sp base : UInt64) (console : List UInt8) :
    Nat → System → Prop
  | user {leg : Leg} {k : Nat} {s : Machine} (hleg : leg ∈ legs) (hfirst : leg.first ≤ k)
      (hsvc : k ≤ leg.svc) (hsp : s.spEl1 = sp) (hat : At base k (knownAt base k) (.of s)) :
      Stage kernelMemory sp base console (leg.before + (k - leg.first))
        ⟨s, .user, console ++ leg.text⟩
  | handling {leg : Leg} {sent pending : List UartOp} {u : UserState} {e : Exception} {t : Machine}
      (hleg : leg ∈ legs) (hops : sent ++ pending = leg.ops) (hsvc : e.IsSvc)
      (hat : At base (leg.svc + 1) (knownAt base leg.svc) u) (ht : Called kernelMemory sp u e t) :
      Stage kernelMemory sp base console (leg.before + (leg.svc - leg.first) + 1 + sent.length)
        ⟨t, .handling .exceptionLowerElSync pending, console ++ leg.text ++ consoleBytes sent⟩
  | done {t : Machine} :
      Stage kernelMemory sp base console 29
        ⟨t, .spinning, console ++ (testMessage ++ exitText 42)⟩

variable {console : List UInt8} {n : Nat} {s s' : System} {l : SystemEvent}

theorem consoleBytes_exitLeg : consoleBytes exitLeg.ops = exitText 42 := by
  simp only [exitLeg, consoleBytes_cons, consoleBytes_nil, UartOp.bytes, exitText,
    List.append_assoc, List.append_nil]

/-- A leg is over before the machine spins, and prints a part of the whole text. -/
theorem leg_bounds {leg : Leg} (hleg : leg ∈ legs) :
    leg.before + (leg.svc - leg.first) + 1 + leg.ops.length ≤ 28 ∧
      leg.text ++ consoleBytes leg.ops <+: testMessage ++ exitText 42 := by
  rcases mem_legs.mp hleg with rfl | rfl
  · refine ⟨by decide +kernel, ?_⟩
    show [] ++ consoleBytes (testMessage.map .byte) <+: _
    rw [consoleBytes_map_byte, List.nil_append]
    exact List.prefix_append ..
  · refine ⟨by decide, ?_⟩
    rw [consoleBytes_exitLeg]
    exact List.prefix_rfl

/-- The console never has anything but what the program prints. -/
theorem Stage.facts (h : Stage kernelMemory sp base console n s) :
    n ≤ 29 ∧ s.console <+: console ++ (testMessage ++ exitText 42) ∧
      (s.mode = .spinning ↔ n = 29) ∧
      (s.mode = .spinning → s.console = console ++ (testMessage ++ exitText 42)) := by
  cases h with
  | @user leg k _ hleg hfirst hsvc =>
      obtain ⟨hbound, htext⟩ := leg_bounds hleg
      have hprefix := (List.prefix_append leg.text (consoleBytes leg.ops)).trans htext
      refine ⟨by omega, (List.prefix_append_right_inj console).mpr hprefix, ?_, nofun⟩
      exact ⟨nofun, fun hn => by omega⟩
  | @handling leg sent pending u e t hleg hops =>
      obtain ⟨hbound, htext⟩ := leg_bounds hleg
      have hlength := congrArg List.length hops
      rw [List.length_append] at hlength
      have hprefix : leg.text ++ consoleBytes sent <+: testMessage ++ exitText 42 := by
        refine List.IsPrefix.trans ?_ htext
        rw [← hops, consoleBytes_append, ← List.append_assoc]
        exact List.prefix_append ..
      refine ⟨by omega, ?_, ⟨nofun, fun hn => by omega⟩, nofun⟩
      rw [List.append_assoc]
      exact (List.prefix_append_right_inj console).mpr hprefix
  | done => exact ⟨le_rfl, List.prefix_rfl, by simp, fun _ => rfl⟩

/-- An `svc` gets to its handler. -/
theorem stage_take (hframe : FrameInKernel kernelMemory sp) (hplaced : Placed kernelMemory base)
    {leg : Leg} (hleg : leg ∈ legs) {s : Machine} (hsp : s.spEl1 = sp)
    (hat : At base leg.svc (knownAt base leg.svc) (.of s)) {c : VectorCode}
    (hraises : a64Code.raises (.of s) e v) (hc : vectorCode .lowerElAArch64 e.kind = some c)
    (console : List UInt8) :
    Stage kernelMemory sp base console (leg.before + (leg.svc - leg.first) + 1)
      (c.enter (e.take (v.into s)) (console ++ leg.text)) := by
  obtain ⟨-, -, hinstr, -⟩ := legs_svc leg hleg
  obtain ⟨hexception, rfl⟩ := (hat.svc_iff hinstr).mp hraises
  have hsvc := hexception.isSvc
  have hat' := hat.behind
  rw [vectorCode_eq, hsvc.1] at hc
  obtain rfl := Option.some.inj hc
  have ht := called_of_take hframe hsp { UserState.of s with pc := (UserState.of s).pc + 4 } e
  have hprinted := printed_leg hplaced hleg hat' ht
  have hstage : Stage kernelMemory sp base console _ ⟨_, .handling _ leg.ops, _⟩ :=
    .handling hleg (List.nil_append leg.ops) hsvc hat' ht
  rw [← hprinted, ← ht.callRun_svc hsvc, List.length_nil, consoleBytes_nil,
    List.append_nil] at hstage
  exact hstage

/-- After its text, the handler of the first leg returns to the second one, and that of the
    second leg does not return. -/
theorem stage_end (hplaced : Placed kernelMemory base) {leg : Leg} (hleg : leg ∈ legs)
    {t : Machine} (hsvc : e.IsSvc) (hat : At base (leg.svc + 1) (knownAt base leg.svc) u)
    (ht : Called kernelMemory sp u e t) (console : List UInt8) :
    (leg = writeLeg ∧ u.x 16 ≠ sysExit ∧
      ∀ t', Handler.exceptionLowerElSync.Returns kernelMemory t t' →
        Stage kernelMemory sp base console
          (leg.before + (leg.svc - leg.first) + 1 + leg.ops.length + 1)
          ⟨execAll restore t', .user, console ++ leg.text ++ consoleBytes leg.ops⟩) ∨
    (leg = exitLeg ∧ (Handler.exceptionLowerElSync.callRun t).result = .ok none) := by
  rcases mem_legs.mp hleg with rfl | rfl
  · left
    obtain ⟨haccepted, -, -⟩ := At.write hplaced hat
    have hexit : u.x 16 ≠ sysExit := by
      rw [haccepted.1]
      decide
    refine ⟨rfl, hexit, fun t' hreturns => ?_⟩
    obtain ⟨hof, hsp, hmem⟩ := ht.of_restore hsvc hexit hreturns
    have hat' : At base 5 (knownAt base 5) (.of (execAll restore t')) := by
      rw [hof]
      exact ⟨hplaced.keeps hat.code hmem, hat.pc, nofun⟩
    have hstage : Stage kernelMemory sp base console (exitLeg.before + (5 - exitLeg.first)) _ :=
      .user (mem_legs.mpr (.inr rfl)) le_rfl (by decide) hsp hat'
    have hcount : writeLeg.ops.length = 16 := by decide +kernel
    have htext : console ++ writeLeg.text ++ consoleBytes writeLeg.ops = console ++ testMessage := by
      rw [writeLeg, consoleBytes_map_byte, List.append_nil]
    rw [hcount, htext]
    exact hstage
  · right
    have h16 : u.x 16 = sysExit := hat.known (16, 1) (by simp [knownAt, exitLeg])
    refine ⟨rfl, ?_⟩
    rw [ht.callRun_svc hsvc]
    exact (dispatch_hangs t.mem h16).result

theorem Stage.step (hframe : FrameInKernel kernelMemory sp) (hplaced : Placed kernelMemory base)
    (h : Stage kernelMemory sp base console n s)
    (hstep : System.Step kernelMemory a64Code s l s') (hl : l ≠ .fault) :
    Stage kernelMemory sp base console (n + 1) s' := by
  cases h with
  | @user leg k m hleg hfirst hsvc hsp hat =>
      obtain ⟨hle, hle7, hinstr, hnot⟩ := legs_svc leg hleg
      cases hstep with
      | @compute _ _ u hcomputes =>
          rcases Nat.lt_or_eq_of_le hsvc with hlt | rfl
          · obtain ⟨i, v, hi, hexec, hat'⟩ := hat.exec (by omega) (hnot k hlt hfirst)
            obtain rfl := Option.some.inj (hexec.symm.trans ((a64_computes_iff hi).mp hcomputes))
            rw [← UserState.of_into v m] at hat'
            have hcount : leg.before + (k + 1 - leg.first) = leg.before + (k - leg.first) + 1 := by
              omega
            rw [← hcount]
            exact .user hleg (Nat.le_succ_of_le hfirst) hlt hsp hat'
          · exact nomatch (a64_computes_iff (hat.instr hinstr)).mp hcomputes
      | take hraises hc =>
          rcases Nat.lt_or_eq_of_le hsvc with hlt | rfl
          · obtain ⟨i, v, hi, hexec, -⟩ := hat.exec (by omega) (hnot k hlt hfirst)
            exact absurd hraises (a64_not_raises hi hexec)
          · exact stage_take hframe hplaced hleg hsp hat hraises hc console
  | @handling leg sent pending u e t hleg hops hsvc hat ht =>
      have hend := stage_end hplaced hleg hsvc hat ht console
      cases hstep with
      | @print _ _ _ op rest =>
          rw [List.append_cons] at hops
          have hstage : Stage kernelMemory sp base console _ _ := .handling hleg hops hsvc hat ht
          rw [consoleBytes_append, consoleBytes_cons, consoleBytes_nil, List.append_nil,
            List.length_append, ← List.append_assoc] at hstage
          exact hstage
      | resume hreturns =>
          rw [List.append_nil] at hops
          obtain ⟨rfl, -, hstage⟩ | ⟨rfl, hnone⟩ := hend
          · rw [hops]
            exact hstage _ hreturns
          · exact nomatch hnone.symm.trans hreturns.call.frame
      | hang hnone =>
          rw [List.append_nil] at hops
          obtain ⟨rfl, hexit, -⟩ | ⟨rfl, -⟩ := hend
          · exact nomatch (ht.callRun_result hsvc hexit).symm.trans hnone
          · rw [hops, consoleBytes_exitLeg, List.append_assoc]
            exact .done
      | fault => exact absurd rfl hl
  | done => cases hstep

theorem Stage.progress (hframe : FrameInKernel kernelMemory sp)
    (hplaced : Placed kernelMemory base) (h : Stage kernelMemory sp base console n s)
    (hn : n ≠ 29) : ∃ l s', l ≠ .fault ∧ System.Step kernelMemory a64Code s l s' := by
  cases h with
  | @user leg k m hleg hfirst hsvc hsp hat =>
      obtain ⟨-, hle7, hinstr, hnot⟩ := legs_svc leg hleg
      rcases Nat.lt_or_eq_of_le hsvc with hlt | rfl
      · obtain ⟨i, v, hi, hexec, -⟩ := hat.exec (by omega) (hnot k hlt hfirst)
        exact ⟨.compute, _, nofun, .compute ((a64_computes_iff hi).mpr hexec)⟩
      · have hraises := (hat.svc_iff (e := ⟨.sync, svcSyndrome 0x80, 0⟩) hinstr).mpr
          ⟨⟨rfl, rfl⟩, rfl⟩
        exact ⟨.take _, _, nofun, .take hraises rfl⟩
  | @handling leg sent pending u e t hleg hops hsvc hat ht =>
      cases pending with
      | cons op rest => exact ⟨.print, _, nofun, .print⟩
      | nil =>
          rcases stage_end hplaced hleg hsvc hat ht console with ⟨-, hexit, -⟩ | ⟨-, hnone⟩
          · obtain ⟨t', hreturns⟩ := ht.exists_returns hframe hsvc hexit
            exact ⟨.resume, _, nofun, .resume hreturns⟩
          · exact ⟨.hang _, _, nofun, .hang hnone⟩
  | done => exact absurd rfl hn

/-- From every stage, the program can run to its end. -/
theorem Stage.complete (hframe : FrameInKernel kernelMemory sp)
    (hplaced : Placed kernelMemory base) (h : Stage kernelMemory sp base console n s) :
    ∃ events s', Runs (System.Step kernelMemory a64Code) s events s' ∧ .fault ∉ events ∧
      s'.mode = .spinning := by
  obtain ⟨hle, -, hspins, -⟩ := h.facts
  generalize hleft : 29 - n = left
  induction left generalizing n s with
  | zero => exact ⟨[], s, .start, nofun, hspins.mpr (by omega)⟩
  | succ left ih =>
      obtain ⟨l, s₁, hl, hstep⟩ := h.progress hframe hplaced (by omega)
      have hnext := h.step hframe hplaced hstep hl
      obtain ⟨hle', -, hspins', -⟩ := hnext.facts
      obtain ⟨events, s', hrun, hfault, hmode⟩ := ih hnext hle' hspins' (by omega)
      refine ⟨l :: events, s', .cons hstep hrun, ?_, hmode⟩
      rw [List.mem_cons, not_or]
      exact ⟨hl.symm, hfault⟩

/-- Without a fault of the kernel, every run of the program is at the stage that its number of
    events says. -/
theorem stage_of_run (hframe : FrameInKernel kernelMemory sp) (hplaced : Placed kernelMemory base)
    {m : Machine} (hsp : m.spEl1 = sp) (hat : At base 0 [] (.of m)) {events : List SystemEvent}
    (hrun : Runs (System.Step kernelMemory a64Code) ⟨m, .user, console⟩ events s')
    (hfault : .fault ∉ events) : Stage kernelMemory sp base console events.length s' := by
  refine hrun.history (I := fun ls s' => .fault ∉ ls →
    Stage kernelMemory sp base console ls.length s') (fun _ => ?_) ?_ hfault
  · have hstage : Stage kernelMemory sp base console _ ⟨m, .user, console ++ writeLeg.text⟩ :=
      .user (mem_legs.mpr (.inl rfl)) le_rfl (Nat.zero_le _) hsp hat
    rw [writeLeg, List.append_nil] at hstage
    exact hstage
  · intro ls s₁ l s₂ ih hstep hnot
    rw [List.mem_append, not_or, List.mem_singleton] at hnot
    rw [List.length_append]
    exact (ih hnot.1).step hframe hplaced hstep fun hl => hnot.2 hl.symm

end XnuRs.Kernel
