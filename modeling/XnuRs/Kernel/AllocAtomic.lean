/-
  XnuRs.Kernel.AllocAtomic

  The heap as its callers see it: an allocation happens at one moment between the
  call and the return.

  `Atomic` is the allocator that a caller can count on, with exact numbers and no
  retries.  Every interleaving of the callers of `BumpAllocator` is one of its
  runs, with the same calls and the same results in the same order
  (`alloc_linearizable`).  A block is allocated when the `compare_exchange`
  succeeds, and there is no room at the load of a call that returns null.

  A caller only has to retry when another one got a block in between, so there
  is a bound on the steps of every caller (`alloc_bounded`).
-/

import XnuRs.Kernel.AllocResults
import XnuRs.Lib.Simulation

namespace XnuRs.Kernel.Alloc

variable {τ : Type}

/-! ## The atomic allocator -/

inductive AtomicCaller where
  | idle
  /-- called, and nothing has happened yet -/
  | called (layout : Layout)
  /-- with the offset of the block, or nothing -/
  | done (result : Option Nat)

structure Atomic (τ : Type) where
  /-- where the free part of the heap starts -/
  next : Nat
  callers : τ → AtomicCaller

inductive AtomicAction (τ : Type) where
  | call (t : τ) (layout : Layout)
  | allocate (t : τ)
  | returns (t : τ) (result : Option Nat)
  | dealloc (t : τ) (offset : UInt64) (layout : Layout)

/-- Where the next block starts. -/
def Layout.startFrom (layout : Layout) (next : Nat) : Nat := roundUp next layout.align.toNat

/-- Whether it ends in the heap. -/
def Layout.FitsFrom (layout : Layout) (next : Nat) : Prop :=
  layout.startFrom next + layout.size.toNat ≤ heapSize.toNat

variable [DecidableEq τ]

/-- Put a caller somewhere else. -/
def Atomic.move (s : Atomic τ) (t : τ) (c : AtomicCaller) : Atomic τ :=
  { s with callers := Function.update s.callers t c }

inductive AtomicStep : Atomic τ → AtomicAction τ → Atomic τ → Prop
  | call {s : Atomic τ} {t : τ} {layout : Layout} (h : s.callers t = .idle) :
      AtomicStep s (.call t layout) (s.move t (.called layout))
  | allocate {s : Atomic τ} {t : τ} {layout : Layout} (h : s.callers t = .called layout)
      (hfits : layout.FitsFrom s.next) :
      AtomicStep s (.allocate t)
        { s.move t (.done (some (layout.startFrom s.next))) with
          next := layout.startFrom s.next + layout.size.toNat }
  | full {s : Atomic τ} {t : τ} {layout : Layout} (h : s.callers t = .called layout)
      (hfull : ¬ layout.FitsFrom s.next) : AtomicStep s (.allocate t) (s.move t (.done none))
  | returns {s : Atomic τ} {t : τ} {result : Option Nat} (h : s.callers t = .done result) :
      AtomicStep s (.returns t result) (s.move t .idle)
  | dealloc {s : Atomic τ} {t : τ} {offset : UInt64} {layout : Layout} (h : s.callers t = .idle) :
      AtomicStep s (.dealloc t offset layout) s

def Atomic.initial : Atomic τ := ⟨0, fun _ => .idle⟩

/-! ## What callers see -/

/-- What a caller does, and what it gets. -/
inductive CallerEvent (τ : Type) where
  | call (t : τ) (layout : Layout)
  | returned (t : τ) (result : Option Nat)
  | dealloc (t : τ) (offset : UInt64) (layout : Layout)

def Action.seen : Action τ → Option (CallerEvent τ)
  | call t layout => some (.call t layout)
  | null t => some (.returned t none)
  | allocated t block => some (.returned t (some block.offset.toNat))
  | dealloc t offset layout => some (.dealloc t offset layout)
  | _ => none

def AtomicAction.seen : AtomicAction τ → Option (CallerEvent τ)
  | call t layout => some (.call t layout)
  | allocate _ => none
  | returns t result => some (.returned t result)
  | dealloc t offset layout => some (.dealloc t offset layout)

/-! ## The simulation -/

/-- Where a caller is in the loop, and whether its allocation has happened. -/
inductive Caller.Shows : Caller → AtomicCaller → Prop
  | idle : Shows .idle .idle
  | entered {layout : Layout} : Shows (.entered layout) (.called layout)
  | loaded {layout : Layout} {old : UInt64} {p : UInt64 × UInt64} (h : bump layout old = some p) :
      Shows (.loaded layout old) (.called layout)
  /-- A value without room: null is the result, whatever happens to the counter. -/
  | full {layout : Layout} {old : UInt64} (h : bump layout old = none) :
      Shows (.loaded layout old) (.done none)
  | computed {layout : Layout} {old aligned new : UInt64}
      (h : bump layout old = some (aligned, new)) :
      Shows (.computed layout old aligned new) (.called layout)

/-- The heap, and the atomic one it shows. -/
structure Shows (s : State τ) (a : Atomic τ) : Prop where
  next : a.next = s.heapNext.toNat
  next_le : s.heapNext ≤ heapSize
  callers : ∀ t, (s.callers t).Shows (a.callers t)

variable {s s' : State τ} {a : Atomic τ} {t : τ} {layout : Layout}

/-- A round on a value inside the heap finds room when there is some. -/
theorem bump_isSome_iff {old : UInt64} (hold : old ≤ heapSize) :
    (∃ p, bump layout old = some p) ↔ layout.FitsFrom old.toNat := by
  rw [Layout.FitsFrom, Layout.startFrom]
  constructor
  · rintro ⟨⟨aligned, new⟩, hbump⟩
    obtain ⟨haligned, hnew, hle⟩ := (bump_eq_some hold).mp hbump
    rw [← haligned, ← hnew]
    exact UInt64.le_iff_toNat_le.mp hle
  · intro hfits
    have hheap : heapSize.toNat < 2 ^ 64 := heapSize.toNat_lt
    have haligned : (UInt64.ofNat (roundUp old.toNat layout.align.toNat)).toNat =
        roundUp old.toNat layout.align.toNat :=
      UInt64.toNat_ofNat_of_lt' (show _ < 2 ^ 64 by omega)
    have hnew : (UInt64.ofNat (roundUp old.toNat layout.align.toNat + layout.size.toNat)).toNat =
        roundUp old.toNat layout.align.toNat + layout.size.toNat :=
      UInt64.toNat_ofNat_of_lt' (show _ < 2 ^ 64 by omega)
    refine ⟨(_, .ofNat (roundUp old.toNat layout.align.toNat + layout.size.toNat)),
      (bump_eq_some hold).mpr ⟨haligned, ?_, ?_⟩⟩
    · rw [hnew, haligned]
    · rw [UInt64.le_iff_toNat_le, hnew]
      exact hfits

@[simp] theorem Atomic.move_callers_self (a : Atomic τ) (t : τ) (c : AtomicCaller) :
    (a.move t c).callers t = c := Function.update_self ..

theorem Atomic.move_callers_of_ne {a : Atomic τ} {t t' : τ} {c : AtomicCaller} (h : t' ≠ t) :
    (a.move t c).callers t' = a.callers t' := Function.update_of_ne h ..

/-- Only where a caller is put last matters. -/
theorem Atomic.move_move (a : Atomic τ) (t : τ) (c c' : AtomicCaller) :
    (a.move t c).move t c' = a.move t c' := by
  rw [move, move, move, Function.update_idem]

/-- Moving a caller on both sides. -/
theorem Shows.move (h : Shows s a) {c : Caller} {c' : AtomicCaller} (hc : c.Shows c') :
    Shows (s.move t c) (a.move t c') where
  next := h.next
  next_le := h.next_le
  callers t' := by
    by_cases heq : t' = t
    · subst heq
      rw [State.move_callers_self, Atomic.move_callers_self]
      exact hc
    · rw [State.move_callers_of_ne heq, Atomic.move_callers_of_ne heq]
      exact h.callers t'

/-- A caller that moves on alone. -/
theorem Shows.move_left (h : Shows s a) {c : Caller} (hc : c.Shows (a.callers t)) :
    Shows (s.move t c) a := by
  have hmove := h.move (t := t) hc
  rwa [Atomic.move, Function.update_eq_self] at hmove

/-- The load, where a result of null is settled. -/
theorem Shows.load (h : Shows s a) (ht : s.callers t = .entered layout) :
    ∃ ls a', Runs AtomicStep a ls a' ∧ ls.filterMap AtomicAction.seen = [] ∧
      Shows (s.move t (.loaded layout s.heapNext)) a' := by
  have hcalled := h.callers t
  rw [ht] at hcalled
  generalize hat : a.callers t = c at hcalled
  cases hcalled
  cases hbump : bump layout s.heapNext with
  | none =>
      have hfull : ¬ layout.FitsFrom a.next := by
        rw [h.next, ← bump_isSome_iff h.next_le, hbump]
        exact nofun
      exact ⟨[.allocate t], _, Runs.start.snoc (.full hat hfull), rfl, h.move (.full hbump)⟩
  | some p =>
      refine ⟨[], a, .start, rfl, h.move_left ?_⟩
      rw [hat]
      exact .loaded hbump

/-- The `compare_exchange` that succeeds, where a block is allocated. -/
theorem Shows.allocated (h : Shows s a) {old aligned new : UInt64}
    (ht : s.callers t = .computed layout old aligned new) (heq : s.heapNext = old) :
    ∃ ls a', Runs AtomicStep a ls a' ∧
      ls.filterMap AtomicAction.seen = [.returned t (some aligned.toNat)] ∧
      Shows { s.move t .idle with heapNext := new } a' := by
  have hcalled := h.callers t
  rw [ht] at hcalled
  generalize hat : a.callers t = c at hcalled
  cases hcalled with
  | computed hbump =>
      rw [← heq] at hbump
      obtain ⟨haligned, hnew, hle⟩ := (bump_eq_some h.next_le).mp hbump
      have hfits : layout.FitsFrom a.next := by
        rw [h.next]
        exact (bump_isSome_iff h.next_le).mp ⟨_, hbump⟩
      have hstart : layout.startFrom a.next = aligned.toNat := by
        rw [h.next, haligned, Layout.startFrom]
      have hallocate : AtomicStep a (.allocate t) _ := .allocate hat hfits
      rw [hstart] at hallocate
      have hdone := a.move_callers_self t (.done (some aligned.toNat))
      refine ⟨[.allocate t, .returns t (some aligned.toNat)], _,
        .cons hallocate (Runs.start.snoc (.returns hdone)), rfl, hnew.symm, hle, fun t' => ?_⟩
      have hmove : Caller.Shows ((s.move t .idle).callers t') ((a.move t .idle).callers t') :=
        (h.move .idle).callers t'
      rw [← a.move_move t (.done (some aligned.toNat))] at hmove
      exact hmove

/-- Every step of the heap is one of the atomic heap, or some. -/
theorem simulates_atomic :
    SimulatesSeen (Step (τ := τ)) AtomicStep Action.seen AtomicAction.seen Shows := by
  intro s l s₁ a hstep h
  cases hstep with
  | @call t layout ht =>
      have hidle := h.callers t
      rw [ht] at hidle
      generalize hat : a.callers t = c at hidle
      cases hidle
      exact ⟨[.call t layout], _, Runs.start.snoc (.call hat), rfl, h.move .entered⟩
  | load ht => exact h.load ht
  | @compute t layout old aligned new ht hbump =>
      refine ⟨[], a, .start, rfl, h.move_left ?_⟩
      have hloaded := h.callers t
      rw [ht] at hloaded
      generalize a.callers t = c at hloaded ⊢
      cases hloaded with
      | loaded _ => exact .computed hbump
      | full hnone => exact nomatch hnone.symm.trans hbump
  | @null t layout old ht hbump =>
      have hfull := h.callers t
      rw [ht] at hfull
      generalize hat : a.callers t = c at hfull
      cases hfull with
      | loaded hsome => exact nomatch hbump.symm.trans hsome
      | full _ => exact ⟨[.returns t none], _, Runs.start.snoc (.returns hat), rfl, h.move .idle⟩
  | allocated ht heq => exact h.allocated ht heq
  | @retry t layout old aligned new ht hne =>
      refine ⟨[], a, .start, rfl, h.move_left ?_⟩
      have hcomputed := h.callers t
      rw [ht] at hcomputed
      generalize a.callers t = c at hcomputed ⊢
      cases hcomputed
      exact .entered
  | @dealloc t offset layout ht =>
      have hidle := h.callers t
      rw [ht] at hidle
      generalize hat : a.callers t = c at hidle
      cases hidle
      exact ⟨[.dealloc t offset layout], _, Runs.start.snoc (.dealloc hat), rfl, h⟩

/-- **Allocation is atomic.**  In whatever order the callers of the heap take their steps, the
    calls they make and the results they get are, in the same order, those of a run of the atomic
    allocator, which ends with the same free part: each allocation happens at one moment between
    its call and its return, and null is returned only if there was no room at such a moment. -/
theorem alloc_linearizable {actions : List (Action τ)} {s : State τ}
    (h : Runs Step initial actions s) :
    ∃ steps a, Runs AtomicStep Atomic.initial steps a ∧
      steps.filterMap AtomicAction.seen = actions.filterMap Action.seen ∧
      a.next = s.heapNext.toNat := by
  have hstart : Shows (τ := τ) initial Atomic.initial :=
    ⟨rfl, UInt64.zero_le, fun _ => .idle⟩
  obtain ⟨steps, a, hrun, hseen, hshows⟩ := simulates_atomic.run h hstart
  exact ⟨steps, a, hrun, hseen, hshows.next⟩

/-- Of the two callers that race, each gets what an atomic allocator gives it. -/
theorem alloc_linearizable_raced : ∃ steps a, Runs AtomicStep Atomic.initial steps a ∧
    steps.filterMap AtomicAction.seen =
      [.call true threeBytes, .call false threeBytes, .returned true (some 0),
        .returned false (some 8)] := by
  obtain ⟨s, hrun⟩ := raced_runs
  obtain ⟨steps, a, hatomic, hseen, -⟩ := alloc_linearizable hrun
  exact ⟨steps, a, hatomic, hseen⟩

/-! ## How long a call takes -/

/-- A step of the caller. -/
def Action.isOf (t : τ) (a : Action τ) : Bool := a.caller = t

def Action.isCallOf (t : τ) : Action τ → Bool
  | call t' _ => t' = t
  | _ => false

def Action.isDeallocOf (t : τ) : Action τ → Bool
  | dealloc t' _ _ => t' = t
  | _ => false

def Action.isRetryOf (t : τ) : Action τ → Bool
  | retry t' => t' = t
  | _ => false

/-- A block for another caller. -/
def Action.isBlockOfOther (t : τ) : Action τ → Bool
  | allocated t' _ => t' ≠ t
  | _ => false

/-- The steps left in a call, if nobody else gets a block. -/
def Caller.left : Caller → Nat
  | idle => 0
  | entered _ => 3
  | loaded _ _ => 2
  | computed _ _ _ _ => 1

/-- The value that a caller has loaded, if it still has to compare it. -/
def Caller.old? : Caller → Option UInt64
  | loaded _ old | computed _ old _ _ => some old
  | _ => none

/-- The caller holds a value that the counter does not have any more. -/
def State.Stale (s : State τ) (t : τ) : Prop := ∃ old ∈ (s.callers t).old?, s.heapNext ≠ old

/-- What the steps of a caller are paid with: its calls and deallocations, and the retries, which
    the blocks of the others pay for. -/
structure Paid (t : τ) (actions : List (Action τ)) (s : State τ) : Prop where
  steps : actions.countP (Action.isOf t) + (s.callers t).left ≤
    4 * actions.countP (Action.isCallOf t) + actions.countP (Action.isDeallocOf t) +
      3 * actions.countP (Action.isRetryOf t)
  retries : actions.countP (Action.isRetryOf t) ≤ actions.countP (Action.isBlockOfOther t)
  stale : s.Stale t →
    actions.countP (Action.isRetryOf t) < actions.countP (Action.isBlockOfOther t)

/-- From a state where the caller is not in `alloc`. -/
theorem paid_idle (ht : s.callers t = .idle) : Paid t [] s where
  steps := by rw [ht]; exact Nat.le_refl 0
  retries := Nat.le_refl 0
  stale := by
    rintro ⟨old, hold, -⟩
    rw [ht] at hold
    exact nomatch hold

/-- A step of another caller.  Only a block makes a loaded value stale, and it is paid for. -/
theorem Paid.other {actions : List (Action τ)} {a : Action τ} (h : Paid t actions s)
    (hstep : Step s a s') (ha : a.caller ≠ t) : Paid t (actions ++ [a]) s' := by
  obtain ⟨hsteps, hretries, hstale⟩ := h
  have hcallers : s'.callers t = s.callers t := hstep.callers_of_ne ha
  have hcounts : a.isOf t = false ∧ a.isCallOf t = false ∧ a.isDeallocOf t = false ∧
      a.isRetryOf t = false ∧ a.isBlockOfOther t = a.block?.isSome := by
    cases a <;> simp_all [Action.isOf, Action.isCallOf, Action.isDeallocOf, Action.isRetryOf,
      Action.isBlockOfOther, Action.block?, Action.caller]
  obtain ⟨hof, hcall, hdealloc, hretry, hblock⟩ := hcounts
  refine ⟨?_, ?_, fun hs => ?_⟩
  · simpa [List.countP_append, List.countP_singleton, hof, hcall, hdealloc, hretry, hcallers]
      using hsteps
  · rw [List.countP_append, List.countP_append, List.countP_singleton, hretry]
    exact Nat.le_add_right_of_le hretries
  · rw [List.countP_append, List.countP_append, List.countP_singleton, List.countP_singleton,
      hretry, hblock]
    cases hb : a.block? with
    | some block => exact Nat.lt_succ_of_le hretries
    | none =>
        have hnext := hstep.heapNext_eq hb
        rw [State.Stale, hcallers, hnext] at hs
        exact hstale hs

/-- A step of the caller itself, by what it costs and what it pays. -/
theorem Paid.own {actions : List (Action τ)} {a : Action τ} (h : Paid t actions s)
    (hof : a.isOf t = true) (hother : a.isBlockOfOther t = false)
    (hleft : (s'.callers t).left + 1 ≤ (s.callers t).left + 4 * (a.isCallOf t).toNat +
      (a.isDeallocOf t).toNat + 3 * (a.isRetryOf t).toNat)
    (hretry : a.isRetryOf t = true → s.Stale t)
    (hfresh : s'.Stale t → a.isRetryOf t = false ∧ s.Stale t) : Paid t (actions ++ [a]) s' := by
  obtain ⟨hsteps, hretries, hstale⟩ := h
  have hcount : ∀ p : Action τ → Bool,
      (actions ++ [a]).countP p = actions.countP p + (p a).toNat := by
    intro p
    rw [List.countP_append, List.countP_singleton]
    cases p a <;> rfl
  refine ⟨?_, ?_, fun hs => ?_⟩
  · simp only [hcount, hof, Bool.toNat_true]
    omega
  · simp only [hcount, hother, Bool.toNat_false]
    cases hr : a.isRetryOf t with
    | false => exact hretries
    | true => exact hstale (hretry hr)
  · obtain ⟨hr, hs⟩ := hfresh hs
    simp only [hcount, hother, hr, Bool.toNat_false]
    exact hstale hs

omit [DecidableEq τ] in
/-- A caller that has just loaded the counter, or holds no value. -/
theorem not_stale (h : ∀ old ∈ (s.callers t).old?, s.heapNext = old) : ¬ s.Stale t := by
  rintro ⟨old, hold, hne⟩
  exact hne (h old hold)

/-- Every step keeps the account: a retry puts the caller two steps back, and the value it had
    loaded was stale. -/
theorem Paid.step {actions : List (Action τ)} {a : Action τ} (h : Paid t actions s)
    (hstep : Step s a s') : Paid t (actions ++ [a]) s' := by
  by_cases ha : a.caller = t
  swap
  · exact h.other hstep ha
  subst ha
  have hof : a.isOf a.caller = true := decide_eq_true rfl
  cases hstep with
  | @call t layout ht =>
      refine h.own hof rfl ?_ (by simp [Action.isRetryOf]) fun hs => absurd hs (not_stale ?_)
      · simp only [Action.isCallOf, State.move_callers_self, Caller.left, decide_true,
          Action.caller, Bool.toNat_true]
        omega
      · simp [Action.caller, Caller.old?]
  | @load t layout ht =>
      refine h.own hof rfl ?_ (by simp [Action.isRetryOf]) fun hs => absurd hs (not_stale ?_)
      · simp only [Action.caller, State.move_callers_self, ht, Caller.left]
        omega
      · simp [Action.caller, Caller.old?, State.move]
  | @compute t layout old aligned new ht hbump =>
      refine h.own hof rfl ?_ (by simp [Action.isRetryOf]) fun hs => ⟨rfl, ?_⟩
      · simp only [Action.caller, State.move_callers_self, ht, Caller.left]
        omega
      · simpa [State.Stale, Action.caller, Caller.old?, State.move, ht] using hs
  | @null t layout old ht hbump =>
      refine h.own hof rfl ?_ (by simp [Action.isRetryOf]) fun hs => absurd hs (not_stale ?_)
      · simp only [Action.caller, State.move_callers_self, ht, Caller.left]
        omega
      · simp [Action.caller, Caller.old?]
  | @allocated t layout old aligned new ht heq =>
      refine h.own hof ?_ ?_ (by simp [Action.isRetryOf]) fun hs => absurd hs (not_stale ?_)
      · simp [Action.caller, Action.isBlockOfOther]
      · simp only [Action.caller, State.move, Function.update_self, ht, Caller.left]
        omega
      · simp [Action.caller, Caller.old?, State.move]
  | @retry t layout old aligned new ht hne =>
      refine h.own hof rfl ?_ (fun _ => ⟨old, ?_, hne⟩) fun hs => absurd hs (not_stale ?_)
      · simp only [Action.caller, State.move_callers_self, ht, Caller.left, Action.isRetryOf,
          decide_true, Bool.toNat_true]
        omega
      · simp [Action.caller, Caller.old?, ht]
      · simp [Action.caller, Caller.old?]
  | @dealloc t offset layout ht =>
      refine h.own hof rfl ?_ (by simp [Action.isRetryOf]) fun hs => ⟨rfl, hs⟩
      simp only [Action.caller, Caller.left, ht, Action.isDeallocOf, decide_true, Bool.toNat_true]
      omega

/-- A caller inside `alloc` can take a step, whatever the others do. -/
theorem exists_step (t : τ) (ht : s.callers t ≠ .idle) :
    ∃ a s', a.caller = t ∧ Step s a s' := by
  cases hc : s.callers t with
  | idle => exact absurd hc ht
  | entered layout => exact ⟨.load t, _, rfl, .load hc⟩
  | loaded layout old =>
      cases hbump : bump layout old with
      | none => exact ⟨.null t, _, rfl, .null hc hbump⟩
      | some p => exact ⟨.compute t, _, rfl, .compute hc hbump⟩
  | computed layout old aligned new =>
      by_cases heq : s.heapNext = old
      · exact ⟨.allocated t _, _, rfl, .allocated hc heq⟩
      · exact ⟨.retry t, _, rfl, .retry hc heq⟩

/-- Every block takes one byte of the heap at least. -/
theorem Sound.heapNext_lt {actions : List (Action τ)} {a : Action τ} (h : Sound actions s)
    (hstep : Step s a s') (hblock : a.block?.isSome) : s.heapNext.toNat < s'.heapNext.toNat := by
  cases hstep with
  | @allocated t layout old aligned new ht heq =>
      obtain ⟨haligned, hnew, -⟩ := (bump_eq_some (heq ▸ h.next_le)).mp (h.computed ht)
      have hpos : 0 < layout.align.toNat := by
        obtain ⟨k, _, hk⟩ := layout.isPowerOfTwo
        rw [hk]
        exact Nat.two_pow_pos k
      have hup := le_roundUp (n := old.toNat) hpos
      have hsize := layout.size_pos
      show s.heapNext.toNat < new.toNat
      rw [heq]
      omega
  | _ => cases hblock

/-- So there are as many blocks as bytes in front of the counter, at most. -/
theorem blocks_le {earlier actions : List (Action τ)} (hearlier : Runs Step initial earlier s)
    (h : Runs Step s actions s') :
    actions.countP (Action.isBlockOfOther t) + s.heapNext.toNat ≤ s'.heapNext.toNat := by
  induction h with
  | start => rw [List.countP_nil, Nat.zero_add]
  | @snoc ls s₁ s₂ a hrun hlast ih =>
      have hsound := sound_of_runs (hearlier.append hrun)
      have hgrow := UInt64.le_iff_toNat_le.mp (hsound.step hlast).2
      rw [List.countP_append, List.countP_singleton]
      by_cases hblock : a.isBlockOfOther t
      · have hsome : a.block?.isSome := by
          cases a with
          | allocated t' block => rfl
          | _ => cases hblock
        have hlt := hsound.heapNext_lt hlast hsome
        rw [if_pos hblock]
        omega
      · rw [if_neg hblock]
        omega

/-- **Every call returns.**  In whatever order the callers take their steps: over any part of a
    run that starts with a caller outside `alloc`, it takes at most four steps for each of its
    calls, one for each deallocation, and three for each block that the others get meanwhile; of
    these there are no more than bytes left in the heap; and inside `alloc` it can always take
    its next step. -/
theorem alloc_bounded {earlier actions : List (Action τ)} (hearlier : Runs Step initial earlier s)
    (h : Runs Step s actions s') (ht : s.callers t = .idle) :
    actions.countP (Action.isOf t) ≤ 4 * actions.countP (Action.isCallOf t) +
      actions.countP (Action.isDeallocOf t) + 3 * actions.countP (Action.isBlockOfOther t) ∧
    actions.countP (Action.isBlockOfOther t) ≤ heapSize.toNat - s.heapNext.toNat ∧
    (s'.callers t ≠ .idle → ∃ a s'', a.caller = t ∧ Step s' a s'') := by
  have hpaid : Paid t actions s' := h.history (paid_idle ht) fun hpaid hstep => hpaid.step hstep
  have hsteps := hpaid.steps
  have hretries := hpaid.retries
  have hblocks := blocks_le (t := t) hearlier h
  have hheap := UInt64.le_iff_toNat_le.mp (sound_of_runs (hearlier.append h)).next_le
  exact ⟨by omega, by omega, exists_step t⟩

/-- The second of the callers that race takes seven steps for its call, as the first one gets a
    block. -/
theorem alloc_bounded_raced : raced.countP (Action.isOf false) = 7 ∧
    raced.countP (Action.isOf false) ≤ 4 * raced.countP (Action.isCallOf false) +
      raced.countP (Action.isDeallocOf false) + 3 * raced.countP (Action.isBlockOfOther false) := by
  obtain ⟨s, hrun⟩ := raced_runs
  exact ⟨rfl, (alloc_bounded (t := false) .start hrun rfl).1⟩

end XnuRs.Kernel.Alloc
