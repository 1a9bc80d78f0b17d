/-
  XnuRs.Kernel.Alloc

  The kernel's heap (kernel/src/alloc/mod.rs: `BumpAllocator`).

  `alloc` is split at its accesses to the shared counter: the load of
  `HEAP_NEXT`, the computation on the loaded value, and the `compare_exchange`,
  which sends the caller back to the load when it fails.  A state has the
  counter and, for each caller, where in the loop it is; a step moves one
  caller.  Between two steps of a caller the others can take any steps, so the
  loaded value can be out of date by the time it is compared.

  The blocks handed out are not part of the state: they are read off the labels
  of a run (`returned`).  A block is an offset into `HEAP`; the pointer returned for
  it adds `HEAP`'s address (`Block.pointer`).
-/

import XnuRs.Lib.Steps
import XnuRs.Lib.Word
import Mathlib.Logic.Function.Basic

namespace XnuRs.Kernel.Alloc

/-- `HEAP_SIZE`. -/
def heapSize : UInt64 := 4 * 1024 * 1024

/-- `Layout`: the alignment is a power of two, and the size, rounded up to it, is at
    most `isize::MAX`.  The callers of an allocator ask for one byte at least. -/
structure Layout where
  size : UInt64
  align : UInt64
  isPowerOfTwo : ∃ k < 64, align.toNat = 2 ^ k
  size_fits : roundUp size.toNat align.toNat ≤ isizeMax
  size_pos : 0 < size.toNat

/-- The computation of one round of `alloc`: the aligned offset and the new counter, or
    nothing when the block does not fit.  `+` on words is `wrapping_add`. -/
def bump (layout : Layout) (old : UInt64) : Option (UInt64 × UInt64) :=
  let aligned := maskDown (old + (layout.align - 1)) layout.align
  -- the block has to end inside the heap
  match checkedAdd aligned layout.size with
  | some n => if n ≤ heapSize then some (aligned, n) else none
  | none => none

/-- A block handed out: `HEAP`'s bytes from `offset` on. -/
structure Block where
  offset : UInt64
  layout : Layout

/-- An address the linker can give `HEAP`: a multiple of 16, with room for every byte. -/
structure HeapBase where
  address : UInt64
  aligned : address.toNat % 16 = 0
  fits : address.toNat + heapSize.toNat ≤ 2 ^ 64

/-- `base + aligned`: the pointer that `alloc` returns for a block. -/
def Block.pointer (base : HeapBase) (b : Block) : Outcome Empty UInt64 :=
  .orPanic (checkedAdd base.address b.offset)

/-- Where a caller is in `alloc`. -/
inductive Caller where
  /-- not in `alloc` -/
  | idle
  /-- before the load -/
  | entered (layout : Layout)
  /-- behind the load -/
  | loaded (layout : Layout) (old : UInt64)
  /-- before the `compare_exchange` -/
  | computed (layout : Layout) (old aligned new : UInt64)

variable {τ : Type}

/-- The shared counter and the callers. -/
structure State (τ : Type) where
  heapNext : UInt64
  callers : τ → Caller

/-- One step of a caller. -/
inductive Action (τ : Type) where
  | call (t : τ) (layout : Layout)
  | load (t : τ)
  | compute (t : τ)
  /-- `alloc` returns null. -/
  | null (t : τ)
  /-- The `compare_exchange` succeeds, and `alloc` returns the block. -/
  | allocated (t : τ) (block : Block)
  /-- The `compare_exchange` fails. -/
  | retry (t : τ)
  | dealloc (t : τ) (offset : UInt64) (layout : Layout)

/-- The caller that takes a step. -/
def Action.caller : Action τ → τ
  | call t _ | load t | compute t | null t | allocated t _ | retry t | dealloc t _ _ => t

/-- The block that a step hands out. -/
def Action.block? : Action τ → Option Block
  | allocated _ block => some block
  | _ => none

variable [DecidableEq τ]

/-- Put a caller somewhere else in `alloc`. -/
def State.move (s : State τ) (t : τ) (c : Caller) : State τ :=
  { s with callers := Function.update s.callers t c }

/-- The steps of the callers. -/
inductive Step : State τ → Action τ → State τ → Prop where
  | call {s : State τ} {t : τ} {layout : Layout} (h : s.callers t = .idle) :
      Step s (.call t layout) (s.move t (.entered layout))
  | load {s : State τ} {t : τ} {layout : Layout} (h : s.callers t = .entered layout) :
      Step s (.load t) (s.move t (.loaded layout s.heapNext))
  | compute {s : State τ} {t : τ} {layout : Layout} {old aligned new : UInt64}
      (h : s.callers t = .loaded layout old) (hbump : bump layout old = some (aligned, new)) :
      Step s (.compute t) (s.move t (.computed layout old aligned new))
  | null {s : State τ} {t : τ} {layout : Layout} {old : UInt64}
      (h : s.callers t = .loaded layout old) (hbump : bump layout old = none) :
      Step s (.null t) (s.move t .idle)
  | allocated {s : State τ} {t : τ} {layout : Layout} {old aligned new : UInt64}
      (h : s.callers t = .computed layout old aligned new) (heq : s.heapNext = old) :
      Step s (.allocated t ⟨aligned, layout⟩) { s.move t .idle with heapNext := new }
  | retry {s : State τ} {t : τ} {layout : Layout} {old aligned new : UInt64}
      (h : s.callers t = .computed layout old aligned new) (hne : s.heapNext ≠ old) :
      Step s (.retry t) (s.move t (.entered layout))
  | dealloc {s : State τ} {t : τ} {offset : UInt64} {layout : Layout} (h : s.callers t = .idle) :
      Step s (.dealloc t offset layout) s

/-- `HEAP_NEXT` is 0 and nobody is in `alloc`. -/
def initial : State τ := ⟨0, fun _ => .idle⟩

/-- The blocks that a run has handed out, oldest first. -/
def returned (actions : List (Action τ)) : List Block := actions.filterMap Action.block?

end XnuRs.Kernel.Alloc
