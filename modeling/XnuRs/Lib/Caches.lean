/-
  XnuRs.Lib.Caches

  Instruction fetch behind caches that are not coherent with stores.

  A byte that is stored is seen by loads at once.  Fetches see what has been
  written back, or an older copy in the instruction cache, or what was fetched
  ahead.  The hardware writes back, fills, drops and fetches ahead whenever it
  likes; a program can ask for it, and wait.

  `levelFrom` computes how far the maintenance of one byte has got at each place
  of a program, and `executed_of_run` says that a byte that got all the way is
  fetched as it was stored, whatever the hardware did in between.
-/

import XnuRs.Lib.Memory
import XnuRs.Lib.Steps
import Mathlib.Data.List.ReduceOption

namespace XnuRs.Caches

/-! ## Machines -/

/-- One byte of the machine. -/
structure Cell where
  /-- What loads see. -/
  mem : UInt8
  /-- What fetches see that miss the instruction cache. -/
  unified : UInt8
  icache : Option UInt8
  /-- The byte of an instruction that was fetched ahead. -/
  ahead : Option UInt8
  /-- A clean was asked for, and has not happened yet. -/
  cleaning : Bool
  /-- An invalidation was asked for, and has not happened yet. -/
  dropping : Bool

/-- What a fetch reads. -/
def Cell.fetched (c : Cell) : UInt8 := c.icache.getD c.unified

/-- What the next instruction is made of. -/
def Cell.executed (c : Cell) : UInt8 := c.ahead.getD c.fetched

abbrev State := Nat → Cell

/-- What loads see of a machine. -/
def State.mem (s : State) : Memory := fun a => (s a).mem

inductive Op where
  | store (op : MemOp)
  | clean (addr : Nat)
  | invalidate (addr : Nat)
  | dsb
  | isb
deriving DecidableEq, Repr

/-- The write of an operation. -/
def Op.store? : Op → Option MemOp
  | .store op => some op
  | _ => none

variable (line : Nat → Nat)

/-- What an operation does to the byte at `a`; cleans and invalidations are by lines. -/
def Op.act (op : Op) (a : Nat) (c : Cell) : Cell :=
  match op with
  | .store op => { c with mem := (op.byteAt a).getD c.mem }
  | .clean addr => if line addr = line a then { c with cleaning := true } else c
  | .invalidate addr => if line addr = line a then { c with dropping := true } else c
  | .dsb => c
  | .isb => { c with ahead := none }

/-- What the hardware does to a byte on its own. -/
inductive Cell.Own : Cell → Cell → Prop
  | rest {c : Cell} : Own c c
  | writeBack {c : Cell} : Own c { c with unified := c.mem, cleaning := false }
  | fill {c : Cell} : Own c { c with icache := some c.unified }
  | drop {c : Cell} : Own c { c with icache := none, dropping := false }
  | prefetch {c : Cell} : Own c { c with ahead := some c.fetched }
  | forget {c : Cell} : Own c { c with ahead := none }

/-- One step: of the program, or of the hardware, at all addresses at once.  A barrier waits
    until everything that was asked for has happened. -/
inductive Step : State → Option Op → State → Prop
  | op {s : State} {op : Op}
      (hwait : op = .dsb → ∀ a, (s a).cleaning = false ∧ (s a).dropping = false) :
      Step s (some op) fun a => op.act line a (s a)
  | own {s s' : State} (h : ∀ a, (s a).Own (s' a)) : Step s none s'

/-- The machine runs the program from `s` to `s'`, and does what it likes in between. -/
def Executes (s : State) (program : List Op) (s' : State) : Prop :=
  ∃ ls, Runs (Step line) s ls s' ∧ ls.reduceOption = program

/-! ## The maintenance of a byte -/

/-- How far the maintenance of a byte has got: 1 the clean is asked for, 2 it has happened,
    3 the invalidation is asked for, 4 it has happened, 5 nothing older was fetched ahead. -/
structure Level (n : Nat) (c : Cell) : Prop where
  cleaning : 1 ≤ n → c.cleaning = false → c.unified = c.mem
  cleaned : 2 ≤ n → c.unified = c.mem
  dropping : 3 ≤ n → c.dropping = false → c.icache = none ∨ c.icache = some c.mem
  dropped : 4 ≤ n → c.icache = none ∨ c.icache = some c.mem
  flushed : 5 ≤ n → c.ahead = none ∨ c.ahead = some c.mem

/-- The level of the byte at `a` behind an operation. -/
def Op.level (op : Op) (a : Nat) (n : Nat) : Nat :=
  match op with
  | .store op => if (op.byteAt a).isSome then 0 else n
  | .clean addr => if line addr = line a then max n 1 else n
  | .invalidate addr => if line addr = line a ∧ n = 2 then 3 else n
  | .dsb => if n = 1 then 2 else if n = 3 then 4 else n
  | .isb => if n = 4 then 5 else n

/-- The level of the byte at `a` behind a program. -/
def levelFrom (a n : Nat) (program : List Op) : Nat := program.foldl (fun n op => op.level line a n) n

variable {line} {a n : Nat} {c c' : Cell} {s s' : State} {program program' : List Op}

/-- Nothing is known of a byte at level zero. -/
theorem Level.zero (c : Cell) : Level 0 c := ⟨by omega, by omega, by omega, by omega, by omega⟩

/-- From level four on, a fetch reads what was stored. -/
theorem Level.fetched_eq (h : Level n c) (hn : 4 ≤ n) : c.fetched = c.mem := by
  rw [Cell.fetched]
  rcases h.dropped hn with hnone | hsome
  · rw [hnone]
    exact h.cleaned (by omega)
  · rw [hsome, Option.getD_some]

/-- At level five, what is executed is what was stored. -/
theorem Level.executed_eq (h : Level n c) (hn : 5 ≤ n) : c.executed = c.mem := by
  rw [Cell.executed]
  rcases h.flushed hn with hnone | hsome
  · rw [hnone]
    exact h.fetched_eq (by omega)
  · rw [hsome, Option.getD_some]

/-- The hardware on its own does not undo any maintenance. -/
theorem Level.own (h : Level n c) (hown : c.Own c') : Level n c' := by
  cases hown with
  | rest => exact h
  | writeBack => exact ⟨fun _ _ => rfl, fun _ => rfl, h.dropping, h.dropped, h.flushed⟩
  | fill =>
      refine ⟨h.cleaning, h.cleaned, fun hn _ => .inr ?_, fun hn => .inr ?_, h.flushed⟩
      · exact congrArg some (h.cleaned (by omega))
      · exact congrArg some (h.cleaned (by omega))
  | drop => exact ⟨h.cleaning, h.cleaned, fun _ _ => .inl rfl, fun _ => .inl rfl, h.flushed⟩
  | prefetch =>
      refine ⟨h.cleaning, h.cleaned, h.dropping, h.dropped, fun hn => .inr ?_⟩
      exact congrArg some (h.fetched_eq (by omega))
  | forget => exact ⟨h.cleaning, h.cleaned, h.dropping, h.dropped, fun _ => .inl rfl⟩

/-- What an operation does for the maintenance of a byte. -/
theorem Level.act (h : Level n c) (op : Op)
    (hwait : op = .dsb → c.cleaning = false ∧ c.dropping = false) :
    Level (op.level line a n) (op.act line a c) := by
  cases op with
  | store op =>
      cases hbyte : op.byteAt a with
      | none =>
          simp only [Op.level, Op.act, hbyte, Option.isSome_none, Option.getD_none]
          exact h
      | some byte =>
          simp only [Op.level, hbyte, Option.isSome_some]
          exact .zero _
  | clean addr =>
      rw [Op.level, Op.act]
      split
      · exact ⟨nofun, fun hn => h.cleaned (by omega), fun hn => h.dropping (by omega),
          fun hn => h.dropped (by omega), fun hn => h.flushed (by omega)⟩
      · exact h
  | invalidate addr =>
      rw [Op.level, Op.act]
      by_cases hline : line addr = line a
      · rw [if_pos hline]
        split
        · rename_i hn
          exact ⟨fun _ _ => h.cleaned (by omega), fun _ => h.cleaned (by omega), nofun, by omega,
            by omega⟩
        · exact ⟨h.cleaning, h.cleaned, nofun, h.dropped, h.flushed⟩
      · rw [if_neg hline, if_neg fun hboth => hline hboth.1]
        exact h
  | dsb =>
      obtain ⟨hcleaning, hdropping⟩ := hwait rfl
      have hcleaned := fun hn => h.cleaning hn hcleaning
      have hdropped := fun hn => h.dropping hn hdropping
      rw [Op.level, Op.act]
      split
      · exact ⟨fun _ _ => hcleaned (by omega), fun _ => hcleaned (by omega), by omega, by omega,
          by omega⟩
      · split
        · exact ⟨fun _ _ => hcleaned (by omega), fun _ => hcleaned (by omega),
            fun _ _ => hdropped (by omega), fun _ => hdropped (by omega), by omega⟩
        · exact h
  | isb =>
      rw [Op.level, Op.act]
      refine ⟨fun hn => h.cleaning ?_, fun hn => h.cleaned ?_, fun hn => h.dropping ?_,
        fun hn => h.dropped ?_, fun _ => .inl rfl⟩
      all_goals
        split at hn
        · omega
        · exact hn

/-! ## Programs -/

@[simp] theorem levelFrom_nil : levelFrom line a n [] = n := rfl

@[simp] theorem levelFrom_cons (op : Op) :
    levelFrom line a n (op :: program) = levelFrom line a (op.level line a n) program := rfl

theorem levelFrom_append :
    levelFrom line a n (program ++ program') =
      levelFrom line a (levelFrom line a n program) program' := List.foldl_append

/-- The writes of a program. -/
def stores (program : List Op) : List MemOp := program.filterMap Op.store?

/-- Loads see what an operation stores. -/
theorem act_mem (s : State) (op : Op) (a : Nat) :
    (op.act line a (s a)).mem = s.mem.run (stores [op]) a := by
  cases op with
  | store op => rfl
  | clean addr =>
      rw [Op.act]
      split <;> rfl
  | invalidate addr =>
      rw [Op.act]
      split <;> rfl
  | dsb => rfl
  | isb => rfl

/-- The hardware on its own changes nothing that loads see. -/
theorem Cell.Own.mem_eq (h : c.Own c') : c'.mem = c.mem := by
  cases h <;> rfl

/-- Through every run of a program, a byte is as far as `levelFrom` says, and loads see what was
    stored. -/
theorem Executes.level (h : Executes line s program s') (hlevel : Level n (s a)) :
    Level (levelFrom line a n program) (s' a) ∧ s'.mem = s.mem.run (stores program) := by
  obtain ⟨ls, hrun, rfl⟩ := h
  have hstart : Level (levelFrom line a n (List.reduceOption [])) (s a) ∧
      s.mem = s.mem.run (stores (List.reduceOption [])) := ⟨hlevel, rfl⟩
  refine hrun.history (I := fun ls s' => Level (levelFrom line a n ls.reduceOption) (s' a) ∧
    s'.mem = s.mem.run (stores ls.reduceOption)) hstart ?_
  rintro ls s₁ l s₂ ⟨hlevel₁, hmem₁⟩ hstep
  rw [List.reduceOption_append]
  cases hstep with
  | op hwait =>
      rename_i op
      rw [List.reduceOption_cons_of_some, List.reduceOption_nil, levelFrom_append, stores,
        List.filterMap_append, ← stores, Memory.run_append, ← hmem₁]
      exact ⟨hlevel₁.act op fun hop => hwait hop a, funext fun b => act_mem s₁ op b⟩
  | own hown =>
      rw [List.reduceOption_cons_of_none, List.reduceOption_nil, List.append_nil]
      exact ⟨hlevel₁.own (hown a), (funext fun b => (hown b).mem_eq).trans hmem₁⟩

/-- **A byte whose maintenance is complete is executed as it was stored**, from any state of the
    caches and whatever the hardware does while the program runs. -/
theorem executed_of_run (h : Executes line s program s') (hlevel : 5 ≤ levelFrom line a 0 program) :
    (s' a).executed = s.mem.run (stores program) a := by
  obtain ⟨hfinal, hmem⟩ := h.level (Level.zero (s a))
  rw [hfinal.executed_eq hlevel]
  exact congrFun hmem a

/-- Every program can be run. -/
theorem exists_executes (line : Nat → Nat) (s : State) (program : List Op) :
    ∃ s', Executes line s program s' := by
  induction program generalizing s with
  | nil => exact ⟨s, [], .start, rfl⟩
  | cons op rest ih =>
      -- the hardware does all that was asked for before the operation
      let s₁ : State := fun a => { s a with unified := (s a).mem, cleaning := false }
      let s₂ : State := fun a => { s₁ a with icache := none, dropping := false }
      obtain ⟨s', ls, hrun, hrest⟩ := ih fun a => op.act line a (s₂ a)
      refine ⟨s', none :: none :: some op :: ls, ?_, ?_⟩
      · have hwrite : Step line s none s₁ := .own fun _ => .writeBack
        have hdrop : Step line s₁ none s₂ := .own fun _ => .drop
        exact .cons hwrite (.cons hdrop (.cons (.op fun _ _ => ⟨rfl, rfl⟩) hrun))
      · simp only [List.reduceOption_cons_of_none, List.reduceOption_cons_of_some, hrest]

/-! ## Maintenance by lines -/

/-- The program does not store to `a`. -/
def Untouched (a : Nat) (program : List Op) : Prop :=
  ∀ op ∈ program, ∀ store, op = .store store → store.byteAt a = none

theorem Op.le_level {op : Op} (h : ∀ store, op = .store store → store.byteAt a = none) (n : Nat) :
    n ≤ op.level line a n := by
  cases op with
  | store op => simp [Op.level, h op rfl]
  | clean | invalidate | isb =>
      rw [Op.level]
      split <;> omega
  | dsb =>
      rw [Op.level]
      split
      · omega
      · split <;> omega

/-- Without a store, maintenance does not get lost. -/
theorem le_levelFrom (h : Untouched a program) (n : Nat) : n ≤ levelFrom line a n program := by
  induction program generalizing n with
  | nil => exact Nat.le_refl n
  | cons op rest ih =>
      obtain ⟨hop, hrest⟩ := List.forall_mem_cons.mp h
      exact Nat.le_trans (Op.le_level hop n) (ih hrest _)

/-- Where a byte is at a level behind one of the operations, it is behind all of them. -/
theorem le_levelFrom_of_mem {k m : Nat} {op : Op} (hop : op ∈ program) (h : Untouched a program)
    (hlevel : ∀ n, m ≤ n → k ≤ op.level line a n) (hm : m ≤ n) :
    k ≤ levelFrom line a n program := by
  obtain ⟨before, after, rfl⟩ := List.append_of_mem hop
  rw [Untouched, List.forall_mem_append, List.forall_mem_cons] at h
  have hbefore : n ≤ levelFrom line a n before := le_levelFrom h.1 n
  rw [levelFrom_append, levelFrom_cons]
  exact Nat.le_trans (hlevel _ (Nat.le_trans hm hbefore)) (le_levelFrom h.2.2 _)

/-- Cleaning some lines, then invalidating them, with barriers behind both. -/
def maintain (lines : List Nat) : List Op :=
  lines.map .clean ++ .dsb :: (lines.map .invalidate ++ [.dsb, .isb])

theorem untouched_maintain (a : Nat) (lines : List Nat) : Untouched a (maintain lines) := by
  rintro op hop store rfl
  simp [maintain] at hop

theorem le_level_clean {addr : Nat} (hline : line addr = line a) (n : Nat) :
    1 ≤ (Op.clean addr).level line a n := by
  rw [Op.level, if_pos hline]
  exact Nat.le_max_right ..

theorem le_level_invalidate {addr : Nat} (hline : line addr = line a) (hn : 2 ≤ n) :
    3 ≤ (Op.invalidate addr).level line a n := by
  rw [Op.level]
  by_cases h : n = 2
  · exact Nat.le_of_eq (if_pos ⟨hline, h⟩).symm
  · rw [if_neg fun hboth => h hboth.2]
    omega

/-- A barrier completes what was asked for. -/
theorem le_level_dsb (h : 1 ≤ n) :
    2 ≤ Op.dsb.level line a n ∧ (3 ≤ n → 4 ≤ Op.dsb.level line a n) := by
  rw [Op.level]
  split
  · omega
  · split <;> omega

theorem le_level_isb (h : 4 ≤ n) : 5 ≤ Op.isb.level line a n := by
  rw [Op.level]
  split <;> omega

/-- The bytes on these lines are maintained. -/
theorem level_maintain {lines : List Nat} {addr : Nat} (hmem : addr ∈ lines)
    (hline : line addr = line a) (n : Nat) : 5 ≤ levelFrom line a n (maintain lines) := by
  have huntouched := untouched_maintain a lines
  rw [maintain, Untouched, List.forall_mem_append, List.forall_mem_cons,
    List.forall_mem_append] at huntouched
  obtain ⟨hcleans, -, hinvalidations, -⟩ := huntouched
  rw [maintain, levelFrom_append, levelFrom_cons, levelFrom_append, levelFrom_cons,
    levelFrom_cons, levelFrom_nil]
  have h1 : 1 ≤ levelFrom line a n (lines.map .clean) :=
    le_levelFrom_of_mem (List.mem_map_of_mem hmem) hcleans (fun n _ => le_level_clean hline n)
      (Nat.zero_le n)
  have h2 : 2 ≤ Op.dsb.level line a _ := (le_level_dsb h1).1
  have h3 : 3 ≤ levelFrom line a _ (lines.map .invalidate) :=
    le_levelFrom_of_mem (List.mem_map_of_mem hmem) hinvalidations
      (fun n hn => le_level_invalidate hline hn) h2
  exact le_level_isb ((le_level_dsb (Nat.le_trans (by decide) h3)).2 h3)

end XnuRs.Caches
