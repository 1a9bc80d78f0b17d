/-
  XnuRs.Boot.Levels

  The jump into the kernel and the drop to EL1 (loader/src/main.rs:
  `jump_to_entry`; kernel/src/arch/aarch64/boot.rs: `drop_to_el1_if_needed`).

  The operands of `jump_to_entry` are in registers that the compiler chooses.
  The second instruction writes `x0`, and the third one reads the entry: the jump
  gets there exactly when the entry is not in `x0` (`jump_arrives_iff`).

  The drop is right at every level and for every `HCR_EL2`, and goes on with the
  stack that it was called on (`drop_to_el1`).
-/

import XnuRs.Lib.Levels
import XnuRs.Loader.Image

namespace XnuRs.Boot

open XnuRs.Loader (KernelHandOff)
open AArch64 (Reg)
open Levels

/-! ## The jump -/

/-- The operands of the `asm!` in `jump_to_entry`. -/
inductive Operand where
  | stackTop
  | bootArgs
  | entry
deriving DecidableEq

/-- What an operand stands for. -/
def operandOf (handOff : KernelHandOff) : Operand → UInt64
  | .stackTop => handOff.stackTop
  | .bootArgs => handOff.bootArgs
  | .entry => handOff.entry

/-- The instructions of `jump_to_entry`, with the operands in the registers `reg`. -/
def jumpToEntry (reg : Operand → Reg) : List Instr := [
  .movToSp (reg .stackTop),
  .mov 0 (reg .bootArgs),
  .br (reg .entry)]

variable {eager : Bool} {s : Cpu} {reg : Operand → Reg} {handOff : KernelHandOff}

/-- **Where the loader jumps to.**  Whatever registers the compiler chooses for the operands, the
    kernel gets its stack, and its boot arguments in `x0`; it is entered exactly when the entry
    was not given in `x0`. -/
theorem jump_arrives_iff (hreg : ∀ o, s.x (reg o) = operandOf handOff o) :
    ∃ s', execAll eager (jumpToEntry reg) s = some s' ∧
      s'.currentSp = handOff.stackTop ∧ s'.x 0 = handOff.bootArgs ∧
      (∀ r, r ≠ 0 → s'.x r = s.x r) ∧ s'.mem = s.mem ∧ s'.level = s.level ∧
      (s'.pc = handOff.entry ↔ reg .entry ≠ 0 ∨ handOff.entry = handOff.bootArgs) := by
  refine ⟨_, rfl, ?_, ?_, fun r hr => Function.update_of_ne hr .., rfl, rfl, ?_⟩
  · exact (Function.update_self _ (s.x (reg .stackTop)) s.sp).trans (hreg .stackTop)
  · exact (Function.update_self 0 (s.x (reg .bootArgs)) s.x).trans (hreg .bootArgs)
  · show Function.update s.x 0 (s.x (reg .bootArgs)) (reg .entry) = _ ↔ _
    have hargs : s.x (reg .bootArgs) = handOff.bootArgs := hreg .bootArgs
    have hentry : s.x (reg .entry) = handOff.entry := hreg .entry
    by_cases hzero : reg .entry = 0
    · rw [hzero, Function.update_self, hargs]
      simp [eq_comm]
    · rw [Function.update_of_ne hzero, hentry]
      simp [hzero]

/-- A processor with `x` in its registers. -/
def cpuWith (level : Level) (hcr : UInt64) (x : Reg → UInt64) : Cpu where
  x := x
  sp := fun _ => 0x47ff0000
  level := level
  spSel := true
  daif := 0
  illegal := false
  pc := 0x43000000
  hcr := hcr
  hcrInEffect := hcr
  spsrEl2 := 0
  elrEl2 := 0
  mem := fun _ => 0

/-- A choice of registers with the entry in `x0`. -/
def entryInX0 : Operand → Reg
  | .entry => 0
  | .stackTop => 1
  | .bootArgs => 2

/-- With it, the loader jumps to the boot arguments. -/
theorem jump_arrives_iff_x0 :
    ∃ s', execAll true (jumpToEntry entryInX0)
      (cpuWith 2 0 fun r => [0x40000000, 0x47010000, 0x47fff000].getD r 0) = some s' ∧
        s'.pc ≠ 0x40000000 := by
  obtain ⟨s', hrun, -, -, -, -, -, hiff⟩ := @jump_arrives_iff true
    (cpuWith 2 0 fun r => [0x40000000, 0x47010000, 0x47fff000].getD r 0) entryInX0
    ⟨0x40000000, 0x47fff000, 0x47010000⟩ (by rintro (_ | _ | _) <;> rfl)
  refine ⟨s', hrun, fun hpc => ?_⟩
  rcases hiff.mp hpc with hreg | hargs
  · exact hreg rfl
  · exact absurd hargs (by decide)

/-! ## The drop to EL1 -/

/-- The first `asm!`: the current level, in the register `el`. -/
def readCurrentEl (el : Reg) : List Instr := [.mrsCurrentEl el, .lsr el el 2]

/-- The second one.  The label is right behind it, three instructions behind the `adr`. -/
def dropBlock : List Instr := [
  -- RW=1, TGE=0
  .mrsHcrEl2 0,
  .orrImm 0 0 0x80000000,
  .movz 1 0x800 16,
  .bic 0 0 1,
  .msrHcrEl2 0,
  .isb,
  -- the stack stays the same
  .movFromSp 0,
  .msrSpEl1 0,
  -- EL1h, everything masked
  .movz 0 0x3C5 0,
  .msrSpsrEl2 0,
  .adr 0 12,
  .msrElrEl2 0,
  .eret]

/-- `drop_to_el1_if_needed`, with the second block at the address `block`. -/
def dropToEl1IfNeeded (eager : Bool) (el : Reg) (block : UInt64) (s : Cpu) : Option Cpu := do
  let s ← execAll eager (readCurrentEl el) s
  if s.x el ≠ 2 then some s
  else execAll eager dropBlock { s with pc := block }

/-- `HCR_EL2` behind the drop. -/
def droppedHcr (hcr : UInt64) : UInt64 := (hcr ||| 0x80000000) &&& ~~~0x8000000

/-- Two bits are set and cleared, and the others are kept. -/
theorem bits_droppedHcr (hcr : UInt64) {i : Nat} (hi : i < 64) :
    bits (droppedHcr hcr) i = (decide (i = rwBit) || (bits hcr i && decide (i ≠ tgeBit))) := by
  have hrw : (0x80000000 : UInt64).toNat = 2 ^ rwBit := rfl
  have htge : (0x8000000 : UInt64).toNat = 2 ^ tgeBit := rfl
  have hset : bits 0x80000000 i = decide (i = rwBit) := by
    rw [bits, hrw, Nat.testBit_two_pow]
    exact decide_eq_decide.mpr eq_comm
  have hclear : bits 0x8000000 i = decide (i = tgeBit) := by
    rw [bits, htge, Nat.testBit_two_pow]
    exact decide_eq_decide.mpr eq_comm
  rw [droppedHcr, bits_and, bits_or, bits_not, hset, hclear]
  simp only [hi, decide_true, Bool.true_and]
  by_cases h31 : i = rwBit
  · subst h31
    simp [rwBit, tgeBit]
  · simp [h31]

/-- The return is legal for the two bits that were set and cleared. -/
theorem legalReturn_el1 (hcr : UInt64) :
    LegalReturn hcr 0x3C5 ↔ bits hcr rwBit ∧ bits hcr tgeBit = false := by
  have hlevel : targetLevel 0x3C5 = 1 := by decide
  have hmode : bits 0x3C5 4 = false ∧ bits 0x3C5 1 = false := by decide
  rw [LegalReturn, hlevel]
  simp [hmode]

/-- At EL2, the block drops to EL1. -/
theorem execAll_dropBlock (hlevel : s.level = 2) : execAll eager dropBlock s = some
    { s with
      x := Function.update (Function.update s.x 1 0x8000000) 0 (s.pc + 52)
      sp := Function.update s.sp 1 s.currentSp
      level := 1
      spSel := true
      daif := 0b1111
      illegal := false
      pc := s.pc + 52
      hcr := droppedHcr s.hcr
      hcrInEffect := droppedHcr s.hcr
      spsrEl2 := 0x3C5
      elrEl2 := s.pc + 52 } := by
  have hlegal : LegalReturn (droppedHcr s.hcr) 0x3C5 := by
    rw [legalReturn_el1, bits_droppedHcr _ (by decide), bits_droppedHcr _ (by decide)]
    simp [rwBit, tgeBit]
  have hmask : (0x800 : UInt64) <<< 16 = 0x8000000 := by decide
  have htarget : targetLevel 0x3C5 = 1 ∧ bits 0x3C5 0 = true ∧ bits 0x3C5 20 = false := by decide
  have hlabel : s.pc + 4 + 4 + 4 + 4 + 4 + 4 + 4 + 4 + 4 + 4 + 12 = s.pc + 52 := by
    simp only [UInt64.add_assoc]
    rfl
  -- `x0` is written before `x1` and behind it
  have hregs : ∀ v w z : UInt64, Function.update (Function.update (Function.update s.x 0 v) 1 w) 0 z =
      Function.update (Function.update s.x 1 w) 0 z := by
    intro v w z
    rw [Function.update_comm (by decide : (0 : Reg) ≠ 1), Function.update_idem]
  simp [dropBlock, execAll, Instr.exec, Cpu.setX, Cpu.next, hlevel, hmask, hlabel, hregs,
    Cpu.currentSp, Cpu.eret, ← droppedHcr.eq_def, hlegal, htarget]

/-- The first block finds the level. -/
theorem execAll_readCurrentEl (el : Reg) (hlevel : s.level ≠ 0) :
    execAll eager (readCurrentEl el) s =
      some { s with x := Function.update s.x el (.ofNat s.level), pc := s.pc + 8 } := by
  have hshift : ∀ l : Level, (UInt64.ofNat (4 * l.val)) >>> 2 = .ofNat l.val := by decide
  have hpc : s.pc + 4 + 4 = s.pc + 8 := by
    rw [UInt64.add_assoc]
    rfl
  have hdigit := hshift s.level
  simp only [readCurrentEl, execAll, Instr.exec, Cpu.setX, hlevel, if_false, Option.bind_eq_bind,
    Option.bind_some, Function.update_self, Function.update_idem, hdigit, hpc]

theorem dropToEl1IfNeeded_eq (el : Reg) (block : UInt64) (hlevel : s.level ≠ 0) :
    dropToEl1IfNeeded eager el block s =
      if s.level = 2 then
        execAll eager dropBlock { s with x := Function.update s.x el (.ofNat s.level), pc := block }
      else some { s with x := Function.update s.x el (.ofNat s.level), pc := s.pc + 8 } := by
  have hword : ∀ l : Level, UInt64.ofNat l.val = 2 ↔ l = 2 := by decide
  rw [dropToEl1IfNeeded, execAll_readCurrentEl el hlevel, Option.bind_eq_bind, Option.bind_some]
  simp only [Function.update_self, ne_eq, hword, ite_not]

/-- **The drop to EL1.**  At whatever level the kernel is entered, and whatever `HCR_EL2` holds:
    no instruction is out of place there, the stack stays the same, and so do the memory and the
    registers but those that the blocks name.  From EL2 the kernel goes on right behind the block
    at EL1, on a stack of its own, with all interrupts masked, and of `HCR_EL2` only `RW` and
    `TGE` have changed; at the other levels nothing else happens. -/
theorem drop_to_el1 (eager : Bool) (el : Reg) (block : UInt64) (s : Cpu) (hlevel : s.level ≠ 0) :
    ∃ s', dropToEl1IfNeeded eager el block s = some s' ∧
      s'.currentSp = s.currentSp ∧ s'.mem = s.mem ∧
      (∀ r, r ≠ el → r ≠ 0 → r ≠ 1 → s'.x r = s.x r) ∧
      (s.level ≠ 2 → s' = { s with x := s'.x, pc := s.pc + 8 }) ∧
      (s.level = 2 →
        s'.level = 1 ∧ s'.spSel = true ∧ s'.daif = 0b1111 ∧ s'.illegal = false ∧
        s'.pc = block + .ofNat (4 * dropBlock.length) ∧ s'.hcrInEffect = s'.hcr ∧
        (∀ l, l ≠ 1 → s'.sp l = s.sp l) ∧
        ∀ i < 64, bits s'.hcr i =
          (decide (i = rwBit) || (bits s.hcr i && decide (i ≠ tgeBit)))) := by
  rw [dropToEl1IfNeeded_eq el block hlevel]
  by_cases htwo : s.level = 2
  · rw [if_pos htwo]
    refine ⟨_, execAll_dropBlock htwo, ?_, rfl, fun r hel h0 h1 => ?_, fun h => absurd htwo h,
      fun _ => ⟨rfl, rfl, rfl, rfl, rfl, rfl, fun l hl => Function.update_of_ne hl ..,
        fun i hi => bits_droppedHcr s.hcr hi⟩⟩
    · show Function.update s.sp 1 s.currentSp 1 = s.currentSp
      exact Function.update_self ..
    · exact ((Function.update_of_ne h0 ..).trans (Function.update_of_ne h1 ..)).trans
        (Function.update_of_ne hel ..)
  · rw [if_neg htwo]
    exact ⟨_, rfl, rfl, rfl, fun r hel _ _ => Function.update_of_ne hel .., fun _ => rfl,
      fun h => absurd h htwo⟩

/-- From an EL2 that takes the place of EL1. -/
theorem drop_to_el1_tge : ∃ s', dropToEl1IfNeeded false 8 0x40001000 (cpuWith 2 0x8000000 fun _ => 0) =
    some s' ∧ s'.level = 1 ∧ s'.currentSp = 0x47ff0000 ∧ s'.pc = 0x40001034 := by
  obtain ⟨s', hrun, hsp, -, -, -, hdrop⟩ :=
    drop_to_el1 false 8 0x40001000 (cpuWith 2 0x8000000 fun _ => 0) (by decide)
  obtain ⟨hlevel, -, -, -, hpc, -⟩ := hdrop rfl
  exact ⟨s', hrun, hlevel, hsp, hpc⟩

end XnuRs.Boot
