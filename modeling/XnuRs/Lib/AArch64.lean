/-
  XnuRs.Lib.AArch64

  A fragment of the A64 instruction set: the moves between registers, system
  registers and memory from which exception entry and exit code is made.

  Code is a straight list of lines, executed from the first to the last, so the
  program counter is followed only through exceptions.  A line is an instruction
  or a call, and what a call does is a parameter (`Step`).

  A register frame keeps register `n` in its word `n`.  `execAll_saves` and
  `execAll_reloads` say what a list of stores and a list of loads do to a frame,
  whatever order their registers come in.
-/

import XnuRs.Lib.Bytes
import XnuRs.Lib.Steps
import Mathlib.Logic.Function.Basic

namespace XnuRs.AArch64

/-! ## Memory -/

/-- The byte at each address. -/
abbrev Mem := UInt64 → UInt8

/-- The 64-bit word at an address, lowest byte first. -/
def word (m : Mem) (a : UInt64) : UInt64 :=
  .ofNat (leToNat ((List.range 8).map fun i => m (a + .ofNat i)))

/-- The memory after a word is stored. -/
def storeWord (m : Mem) (a v : UInt64) : Mem := fun b =>
  ((leBytes 8 v.toNat)[(b - a).toNat]?).getD (m b)

variable {m : Mem} {a b v : UInt64}

theorem word_congr {m' : Mem} (h : ∀ i < 8, m' (b + .ofNat i) = m (b + .ofNat i)) :
    word m' b = word m b := by
  have hbytes : (List.range 8).map (fun i => m' (b + .ofNat i)) =
      (List.range 8).map fun i => m (b + .ofNat i) :=
    List.map_congr_left fun i hi => h i (List.mem_range.mp hi)
  rw [word, word, hbytes]

/-- A word reads back as it was stored. -/
theorem word_storeWord : word (storeWord m a v) a = v := by
  have hbytes : ((List.range 8).map fun i => storeWord m a v (a + .ofNat i)) =
      leBytes 8 v.toNat := by
    apply List.ext_getElem
    · simp
    · intro i hi hi'
      have hsmall : i < 8 := by simpa using hi
      have hdiff : (a + UInt64.ofNat i - a).toNat = i := by
        rw [UInt64.add_comm, UInt64.add_sub_cancel]
        exact UInt64.toNat_ofNat_of_lt' (show i < 2 ^ 64 by omega)
      rw [List.getElem_map, List.getElem_range, storeWord, hdiff, List.getElem?_eq_getElem hi',
        Option.getD_some]
  rw [word, hbytes, leToNat_leBytes v.toNat_lt, UInt64.ofNat_toNat]

/-- Eight bytes that a store misses keep their value. -/
theorem word_storeWord_of_apart (h : 8 ≤ (b - a).toNat) (h' : (b - a).toNat + 8 ≤ 2 ^ 64) :
    word (storeWord m a v) b = word m b := by
  apply word_congr
  intro i hi
  have hi64 : (UInt64.ofNat i).toNat = i := UInt64.toNat_ofNat_of_lt' (show i < 2 ^ 64 by omega)
  have hdiff : (b + UInt64.ofNat i - a).toNat = (b - a).toNat + i := by
    have hcomm : b + UInt64.ofNat i - a = b - a + UInt64.ofNat i := by grind
    rw [hcomm, UInt64.toNat_add, hi64, Nat.mod_eq_of_lt (by omega)]
  rw [storeWord, List.getElem?_eq_none (by rw [leBytes_length, hdiff]; omega)]
  rfl

/-! ## Frames -/

/-- The address of word `k` of the frame at `base`. -/
def slot (base : UInt64) (k : Nat) : UInt64 := base + .ofNat (8 * k)

/-- How many words a frame can have before it wraps around. -/
def maxSlots : Nat := 2 ^ 61

/-- The distance between two slots is a multiple of eight, also around the end of memory. -/
theorem slot_sub_slot {base : UInt64} {j k : Nat} (hj : j < maxSlots) (hk : k < maxSlots) :
    (slot base k - slot base j).toNat = (2 ^ 64 - 8 * j + 8 * k) % 2 ^ 64 := by
  rw [maxSlots] at hj hk
  have hdiff : slot base k - slot base j = UInt64.ofNat (8 * k) - UInt64.ofNat (8 * j) := by
    grind [slot]
  rw [hdiff, UInt64.toNat_sub, UInt64.toNat_ofNat_of_lt' (show 8 * j < 2 ^ 64 by omega),
    UInt64.toNat_ofNat_of_lt' (show 8 * k < 2 ^ 64 by omega)]

/-- A store to one word of a frame changes that word and no other. -/
theorem word_storeWord_slot {base : UInt64} {j k : Nat} (hj : j < maxSlots)
    (hk : k < maxSlots) :
    word (storeWord m (slot base j) v) (slot base k) =
      if k = j then v else word m (slot base k) := by
  split
  · rename_i heq
    rw [heq, word_storeWord]
  · rename_i hne
    have hdiff : (slot base k - slot base j).toNat = _ := slot_sub_slot hj hk
    rw [maxSlots] at hj hk
    exact word_storeWord_of_apart (by omega) (by omega)

/-! ## The machine -/

/-- `x0` to `x30`. -/
abbrev Reg := Fin 31

instance (priority := high) instNeZeroRegs : @NeZero Nat Zero.ofOfNat0 31 :=
  ⟨Nat.succ_ne_zero 30⟩

inductive SysReg where
  | spEl0
  | elrEl1
  | spsrEl1
  | esrEl1
  | farEl1
deriving DecidableEq, Repr

/-- The state of a processor.  At EL1 `sp` is `SP_EL1`; `pc` and `pstate` are those of the
    code at EL0, and are not followed while the processor is at EL1. -/
@[ext] structure Machine where
  x : Reg → UInt64
  spEl1 : UInt64
  sys : SysReg → UInt64
  pc : UInt64
  pstate : UInt64
  mem : Mem

/-- The base register of an address. -/
inductive Base where
  | sp
  | x (r : Reg)
deriving DecidableEq, Repr

inductive Instr where
  /-- `sub sp, sp, #imm`. -/
  | subSp (imm : UInt64)
  /-- `add sp, sp, #imm`. -/
  | addSp (imm : UInt64)
  /-- `mov rd, sp`. -/
  | movSp (rd : Reg)
  | ldr (rt : Reg) (base : Base) (offset : Nat)
  | ldp (rt rt2 : Reg) (base : Base) (offset : Nat)
  | str (rt : Reg) (base : Base) (offset : Nat)
  | stp (rt rt2 : Reg) (base : Base) (offset : Nat)
  | mrs (rt : Reg) (r : SysReg)
  | msr (r : SysReg) (rt : Reg)
  | eret
deriving DecidableEq, Repr

namespace Machine

variable (s : Machine)

def setX (r : Reg) (v : UInt64) : Machine := { s with x := Function.update s.x r v }

def setSys (r : SysReg) (v : UInt64) : Machine := { s with sys := Function.update s.sys r v }

/-- The value of a base register. -/
def baseOf : Base → UInt64
  | .sp => s.spEl1
  | .x r => s.x r

/-- The word that an access with a base register and an offset finds. -/
def load (base : Base) (offset : Nat) : UInt64 := word s.mem (s.baseOf base + .ofNat offset)

def store (base : Base) (offset : Nat) (v : UInt64) : Machine :=
  { s with mem := storeWord s.mem (s.baseOf base + .ofNat offset) v }

/-- An exception to EL1: the return address and the state go to `ELR_EL1` and `SPSR_EL1`, the
    syndrome to `ESR_EL1`. -/
def takeException (syndrome : UInt64) : Machine :=
  ((s.setSys .elrEl1 s.pc).setSys .spsrEl1 s.pstate).setSys .esrEl1 syndrome

@[simp] theorem x_setX (r r' : Reg) (v : UInt64) :
    (s.setX r v).x r' = if r' = r then v else s.x r' := Function.update_apply ..

@[simp] theorem takeException_esrEl1 (syndrome : UInt64) :
    (s.takeException syndrome).sys .esrEl1 = syndrome := by
  simp [takeException, setSys]

end Machine

/-- What an instruction does. -/
def Instr.exec (i : Instr) (s : Machine) : Machine :=
  match i with
  | .subSp imm => { s with spEl1 := s.spEl1 - imm }
  | .addSp imm => { s with spEl1 := s.spEl1 + imm }
  | .movSp rd => s.setX rd s.spEl1
  | .ldr rt base offset => s.setX rt (s.load base offset)
  | .ldp rt rt2 base offset =>
      (s.setX rt (s.load base offset)).setX rt2 (s.load base (offset + 8))
  | .str rt base offset => s.store base offset (s.x rt)
  | .stp rt rt2 base offset => (s.store base offset (s.x rt)).store base (offset + 8) (s.x rt2)
  | .mrs rt r => s.setX rt (s.sys r)
  | .msr r rt => s.setSys r (s.x rt)
  | .eret => { s with pc := s.sys .elrEl1, pstate := s.sys .spsrEl1 }

/-- What a list of instructions does. -/
def execAll (p : List Instr) (s : Machine) : Machine := p.foldl (fun s i => i.exec s) s

@[simp] theorem execAll_nil (s : Machine) : execAll [] s = s := rfl

@[simp] theorem execAll_cons (i : Instr) (p : List Instr) (s : Machine) :
    execAll (i :: p) s = execAll p (i.exec s) := rfl

theorem execAll_append (p q : List Instr) (s : Machine) :
    execAll (p ++ q) s = execAll q (execAll p s) := List.foldl_append

/-! ## Code with calls -/

/-- A line of code: an instruction, or `bl f`. -/
inductive Line (φ : Type) where
  | op (i : Instr)
  | bl (f : φ)
deriving DecidableEq

/-- One line of code, where `call f` relates the states before and after a call of `f`. -/
inductive Step {φ : Type} (call : φ → Machine → Machine → Prop) : Machine → Line φ → Machine → Prop
  | op {s : Machine} (i : Instr) : Step call s (.op i) (i.exec s)
  | bl {s s' : Machine} {f : φ} (h : call f s s') : Step call s (.bl f) s'

variable {φ : Type} {call : φ → Machine → Machine → Prop} {s s' : Machine}

/-- Code without calls has one run. -/
theorem runs_op_iff {p : List Instr} : Runs (Step call) s (p.map .op) s' ↔ s' = execAll p s := by
  induction p generalizing s with
  | nil =>
      refine ⟨fun h => h.of_nil, ?_⟩
      rintro rfl
      exact .start
  | cons i p ih =>
      refine ⟨fun h => ?_, ?_⟩
      · obtain ⟨s₁, hstep, hrest⟩ := h.of_cons
        cases hstep with
        | op => exact ih.mp hrest
      · rintro rfl
        exact .cons (.op i) (ih.mpr rfl)

/-- A run through code around one call. -/
theorem runs_call_iff {p q : List Instr} {f : φ} :
    Runs (Step call) s (p.map .op ++ .bl f :: q.map .op) s' ↔
      ∃ s₁, call f (execAll p s) s₁ ∧ s' = execAll q s₁ := by
  constructor
  · intro h
    obtain ⟨s₀, hbefore, hrest⟩ := h.of_append
    obtain ⟨s₁, hcall, hafter⟩ := hrest.of_cons
    obtain rfl := runs_op_iff.mp hbefore
    cases hcall with
    | bl hcall => exact ⟨s₁, hcall, runs_op_iff.mp hafter⟩
  · rintro ⟨s₁, hcall, hafter⟩
    exact (runs_op_iff.mpr rfl).append (.cons (.bl hcall) (runs_op_iff.mpr hafter))

/-! ## Register frames -/

/-- The general registers an instruction moves to or from memory. -/
def Instr.moves : Instr → List Reg
  | .ldr rt _ _ | .str rt _ _ => [rt]
  | .ldp rt rt2 _ _ | .stp rt rt2 _ _ => [rt, rt2]
  | _ => []

/-- The instruction stores registers to their words of the frame at `base`. -/
def Instr.Saves (base : Base) : Instr → Prop
  | .str rt b offset => b = base ∧ offset = 8 * rt.val
  | .stp rt rt2 b offset => b = base ∧ offset = 8 * rt.val ∧ rt2.val = rt.val + 1
  | _ => False

/-- The instruction loads registers from their words of the frame at `base`. -/
def Instr.Reloads (base : Base) : Instr → Prop
  | .ldr rt b offset => b = base ∧ offset = 8 * rt.val
  | .ldp rt rt2 b offset => b = base ∧ offset = 8 * rt.val ∧ rt2.val = rt.val + 1
  | _ => False

instance (base : Base) : DecidablePred (Instr.Saves base)
  | .str .. => inferInstanceAs (Decidable (_ ∧ _))
  | .stp .. => inferInstanceAs (Decidable (_ ∧ _ ∧ _))
  | .subSp _ | .addSp _ | .movSp _ | .ldr .. | .ldp .. | .mrs .. | .msr .. | .eret =>
      inferInstanceAs (Decidable False)

instance (base : Base) : DecidablePred (Instr.Reloads base)
  | .ldr .. => inferInstanceAs (Decidable (_ ∧ _))
  | .ldp .. => inferInstanceAs (Decidable (_ ∧ _ ∧ _))
  | .subSp _ | .addSp _ | .movSp _ | .str .. | .stp .. | .mrs .. | .msr .. | .eret =>
      inferInstanceAs (Decidable False)

theorem Machine.load_slot (s : Machine) (base : Base) (k : Nat) :
    s.load base (8 * k) = word s.mem (slot (s.baseOf base) k) := rfl

/-- What a store to word `j` of a frame leaves in word `k`. -/
theorem Machine.word_store_slot (s : Machine) (base : Base) {j k : Nat} (v : UInt64)
    (hj : j < maxSlots) (hk : k < maxSlots) :
    word (s.store base (8 * j) v).mem (slot (s.baseOf base) k) =
      if k = j then v else word s.mem (slot (s.baseOf base) k) :=
  word_storeWord_slot hj hk

theorem Reg.lt_maxSlots (r : Reg) : r.val < maxSlots := by
  have hlt := r.isLt
  rw [maxSlots]
  omega

/-- From `s` to `s'` the registers `rs` are stored in the frame at `base`, and nothing else
    of the frame or of the machine has changed but bytes outside the frame. -/
structure FrameSaved (base : Base) (rs : List Reg) (s s' : Machine) : Prop where
  onlyMem : s' = { s with mem := s'.mem }
  saved : ∀ r ∈ rs, word s'.mem (slot (s.baseOf base) r) = s.x r
  kept : ∀ k < maxSlots, (∀ r ∈ rs, r.val ≠ k) →
    word s'.mem (slot (s.baseOf base) k) = word s.mem (slot (s.baseOf base) k)

namespace FrameSaved

variable {base : Base} {rs rs' : List Reg} {s s' s'' : Machine}

theorem nil (base : Base) (s : Machine) : FrameSaved base [] s s :=
  ⟨rfl, fun _ h => (nomatch h), fun _ _ _ => rfl⟩

theorem x_eq (h : FrameSaved base rs s s') : s'.x = s.x := by
  rw [h.onlyMem]

theorem baseOf_eq (h : FrameSaved base rs s s') (b : Base) : s'.baseOf b = s.baseOf b := by
  rw [h.onlyMem]
  cases b with
  | sp => rfl
  | x r => rfl

theorem trans (h : FrameSaved base rs s s') (h' : FrameSaved base rs' s' s'') :
    FrameSaved base (rs ++ rs') s s'' := by
  have hbase := h.baseOf_eq base
  refine ⟨?_, fun r hr => ?_, fun k hk hne => ?_⟩
  · rw [h'.onlyMem, h.onlyMem]
  · -- a register stored twice is found as it was stored last
    by_cases hagain : r ∈ rs'
    · rw [← hbase, h'.saved r hagain, h.x_eq]
    · have hfirst : r ∈ rs := (List.mem_append.mp hr).resolve_right hagain
      have hkept := h'.kept r (Reg.lt_maxSlots r) fun r' hr' heq => hagain (Fin.ext heq ▸ hr')
      rw [hbase] at hkept
      rw [hkept, h.saved r hfirst]
  · have hkept := h'.kept k hk fun r hr => hne r (List.mem_append_right _ hr)
    rw [hbase] at hkept
    rw [hkept, h.kept k hk fun r hr => hne r (List.mem_append_left _ hr)]

theorem store (base : Base) (r : Reg) (s : Machine) :
    FrameSaved base [r] s (s.store base (8 * r.val) (s.x r)) := by
  refine ⟨rfl, fun r' hr' => ?_, fun k hk hne => ?_⟩
  · obtain rfl := List.mem_singleton.mp hr'
    rw [s.word_store_slot base _ (Reg.lt_maxSlots r') (Reg.lt_maxSlots r'), if_pos rfl]
  · rw [s.word_store_slot base _ (Reg.lt_maxSlots r) hk,
      if_neg fun heq => hne r (List.mem_singleton_self r) heq.symm]

theorem exec {i : Instr} (hi : i.Saves base) (s : Machine) :
    FrameSaved base i.moves s (i.exec s) := by
  cases i with
  | str rt b offset =>
      obtain ⟨rfl, rfl⟩ := hi
      exact store b rt s
  | stp rt rt2 b offset =>
      obtain ⟨rfl, rfl, hnext⟩ := hi
      have hoffset : 8 * rt.val + 8 = 8 * rt2.val := by omega
      have hsecond := store b rt2 (s.store b (8 * rt.val) (s.x rt))
      rw [← hoffset] at hsecond
      exact (store b rt s).trans hsecond
  | subSp | addSp | movSp | ldr | ldp | mrs | msr | eret => exact hi.elim

end FrameSaved

/-- Stores of registers to a frame, in any order. -/
theorem execAll_saves {base : Base} {p : List Instr} (hp : ∀ i ∈ p, i.Saves base) (s : Machine) :
    FrameSaved base (p.flatMap Instr.moves) s (execAll p s) := by
  induction p generalizing s with
  | nil => exact .nil base s
  | cons i p ih =>
      have hfirst := FrameSaved.exec (hp i List.mem_cons_self) s
      exact hfirst.trans (ih (fun i hi => hp i (List.mem_cons_of_mem _ hi)) (i.exec s))

/-- A store to one word of a frame keeps the bytes outside the frame. -/
theorem storeWord_slot_of_outside {base : UInt64} {k n : Nat} (hk : k < n)
    (hn : n < maxSlots) (hout : 8 * n ≤ (b - base).toNat) : storeWord m (slot base k) v b = m b := by
  rw [maxSlots] at hn
  have hoffset : (UInt64.ofNat (8 * k)).toNat = 8 * k :=
    UInt64.toNat_ofNat_of_lt' (show 8 * k < 2 ^ 64 by omega)
  have hdiff : b - slot base k = b - base - UInt64.ofNat (8 * k) := by
    grind [slot]
  have hlt := (b - base).toNat_lt
  have htoNat : (b - slot base k).toNat = (b - base).toNat - 8 * k := by
    rw [hdiff, UInt64.toNat_sub, hoffset]
    omega
  rw [storeWord, List.getElem?_eq_none (by rw [leBytes_length, htoNat]; omega)]
  rfl

/-- The bytes behind the last general register of a frame are not stored to. -/
theorem Instr.Saves.mem_of_outside {i : Instr} {base : Base} (hi : i.Saves base) {s : Machine}
    (hout : 8 * 31 ≤ (b - s.baseOf base).toNat) : (i.exec s).mem b = s.mem b := by
  have hkeeps : ∀ (r : Reg) (s' : Machine), s'.baseOf base = s.baseOf base →
      (s'.store base (8 * r.val) (s'.x r)).mem b = s'.mem b := by
    intro r s' hbase
    rw [← hbase] at hout
    exact storeWord_slot_of_outside r.isLt (by decide) hout
  cases i with
  | str rt b' offset =>
      obtain ⟨rfl, rfl⟩ := hi
      exact hkeeps rt s rfl
  | stp rt rt2 b' offset =>
      obtain ⟨rfl, rfl, hnext⟩ := hi
      have hoffset : 8 * rt.val + 8 = 8 * rt2.val := by omega
      have hbase := (FrameSaved.store b' rt s).baseOf_eq b'
      show ((s.store b' (8 * rt.val) (s.x rt)).store b' (8 * rt.val + 8) (s.x rt2)).mem b = _
      rw [hoffset]
      exact (hkeeps rt2 _ hbase).trans (hkeeps rt s rfl)
  | subSp | addSp | movSp | ldr | ldp | mrs | msr | eret => exact hi.elim

theorem execAll_saves_mem {base : Base} {p : List Instr} (hp : ∀ i ∈ p, i.Saves base)
    {s : Machine} (hout : 8 * 31 ≤ (b - s.baseOf base).toNat) :
    (execAll p s).mem b = s.mem b := by
  induction p generalizing s with
  | nil => rfl
  | cons i p ih =>
      have hi := hp i List.mem_cons_self
      have hbase := (FrameSaved.exec hi s).baseOf_eq base
      rw [execAll_cons, ih (fun i hi => hp i (List.mem_cons_of_mem _ hi)) (hbase ▸ hout),
        hi.mem_of_outside hout]

/-- The machine with the registers `rs` loaded from the frame at `base`. -/
def Machine.reloaded (s : Machine) (base : Base) (rs : List Reg) : Machine :=
  { s with x := fun r => if r ∈ rs then word s.mem (slot (s.baseOf base) r) else s.x r }

theorem Instr.Reloads.exec_eq {i : Instr} {base : Base} (hi : i.Reloads base) (s : Machine) :
    i.exec s = s.reloaded base i.moves := by
  cases i with
  | ldr rt b offset =>
      obtain ⟨rfl, rfl⟩ := hi
      refine Machine.ext (funext fun r => ?_) rfl rfl rfl rfl rfl
      show Function.update s.x rt (s.load b (8 * rt.val)) r = if r ∈ [rt] then _ else s.x r
      rw [Machine.load_slot]
      by_cases hr : r = rt
      · subst hr
        rw [Function.update_self, if_pos (List.mem_singleton_self r)]
      · rw [Function.update_of_ne hr, if_neg (by simpa using hr)]
  | ldp rt rt2 b offset =>
      obtain ⟨rfl, rfl, hnext⟩ := hi
      have hoffset : 8 * rt.val + 8 = 8 * rt2.val := by omega
      refine Machine.ext (funext fun r => ?_) rfl rfl rfl rfl rfl
      show Function.update (Function.update s.x rt (s.load b (8 * rt.val))) rt2
        (s.load b (8 * rt.val + 8)) r = if r ∈ [rt, rt2] then _ else s.x r
      rw [hoffset, Machine.load_slot, Machine.load_slot]
      -- the second register wins when both are the same
      by_cases hr2 : r = rt2
      · subst hr2
        rw [Function.update_self, if_pos (by simp)]
      · rw [Function.update_of_ne hr2]
        by_cases hr : r = rt
        · subst hr
          rw [Function.update_self, if_pos (by simp)]
        · rw [Function.update_of_ne hr, if_neg (by simp [hr, hr2])]
  | subSp | addSp | movSp | str | stp | mrs | msr | eret => exact hi.elim

/-- A base register that is not loaded itself keeps its value. -/
theorem Machine.baseOf_reloaded (s : Machine) {base : Base} {rs : List Reg}
    (hbase : ∀ r ∈ rs, base ≠ .x r) : (s.reloaded base rs).baseOf base = s.baseOf base := by
  cases base with
  | sp => rfl
  | x r => exact if_neg fun hr => hbase r hr rfl

theorem Machine.reloaded_append (s : Machine) {base : Base} {rs : List Reg} (rs' : List Reg)
    (hbase : ∀ r ∈ rs, base ≠ .x r) :
    (s.reloaded base rs).reloaded base rs' = s.reloaded base (rs ++ rs') := by
  refine Machine.ext (funext fun r => ?_) rfl rfl rfl rfl rfl
  show (if r ∈ rs' then word s.mem (slot ((s.reloaded base rs).baseOf base) r) else _) = _
  rw [s.baseOf_reloaded hbase]
  by_cases hr' : r ∈ rs'
  · simp [Machine.reloaded, hr']
  · simp [Machine.reloaded, hr']

/-- Loads of registers from a frame, in any order. -/
theorem execAll_reloads {base : Base} {p : List Instr} (hp : ∀ i ∈ p, i.Reloads base)
    (hbase : ∀ r ∈ p.flatMap Instr.moves, base ≠ .x r) (s : Machine) :
    execAll p s = s.reloaded base (p.flatMap Instr.moves) := by
  induction p generalizing s with
  | nil => rfl
  | cons i p ih =>
      have hfirst : ∀ r ∈ i.moves, base ≠ .x r := fun r hr =>
        hbase r (by simp [hr])
      have hrest : ∀ r ∈ p.flatMap Instr.moves, base ≠ .x r := fun r hr =>
        hbase r (by rw [List.flatMap_cons]; exact List.mem_append_right _ hr)
      show execAll p (i.exec s) = _
      rw [ih (fun i hi => hp i (List.mem_cons_of_mem _ hi)) hrest,
        (hp i List.mem_cons_self).exec_eq, s.reloaded_append _ hfirst, List.flatMap_cons]

end XnuRs.AArch64
