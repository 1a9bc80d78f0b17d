/-
  XnuRs.Lib.Memory

  A memory of bytes and the two operations that write it: filling a range with
  one byte, and copying a byte string to an address.

  `Memory.run_eq` is the last-writer rule: after a list of operations a byte
  holds what the last operation that touches it wrote there, and what it held
  before when none does.
-/

import Mathlib.Data.List.Induction

namespace XnuRs

/-- The byte at each address. -/
abbrev Memory := Nat → UInt8

/-- One write: `write_bytes` or `copy_nonoverlapping`. -/
inductive MemOp where
  | fill (start len : Nat) (byte : UInt8)
  | copy (start : Nat) (bytes : List UInt8)
deriving DecidableEq, Repr

/-- What the operation writes at an address, if it touches it. -/
def MemOp.byteAt : MemOp → Nat → Option UInt8
  | .fill start len byte, a => if start ≤ a ∧ a < start + len then some byte else none
  | .copy start bytes, a => if start ≤ a then bytes[a - start]? else none

namespace Memory

/-- The `len` bytes from `start` on. -/
def slice (m : Memory) (start len : Nat) : List UInt8 := (List.range len).map fun i => m (start + i)

/-- The memory after one operation. -/
def apply (m : Memory) (op : MemOp) : Memory := fun a => (op.byteAt a).getD (m a)

/-- The memory after a list of operations. -/
def run (m : Memory) (ops : List MemOp) : Memory := ops.foldl apply m

theorem run_append (m : Memory) (ops ops' : List MemOp) :
    m.run (ops ++ ops') = (m.run ops).run ops' := List.foldl_append

/-- The last-writer rule. -/
theorem run_eq (m : Memory) (ops : List MemOp) (a : Nat) :
    m.run ops a = ((ops.filterMap (·.byteAt a)).getLast?).getD (m a) := by
  induction ops using List.reverseRecOn with
  | nil => rfl
  | append_singleton before op ih =>
      rw [run_append, List.filterMap_append, List.getLast?_append]
      show (op.byteAt a).getD (m.run before a) = _
      cases hop : op.byteAt a with
      | none => simp [hop, ih]
      | some byte => simp [hop]

/-- A byte that no operation touches keeps its value. -/
theorem run_of_untouched {m : Memory} {ops : List MemOp} {a : Nat}
    (h : ∀ op ∈ ops, op.byteAt a = none) : m.run ops a = m a := by
  rw [run_eq, List.filterMap_eq_nil_iff.mpr h]
  rfl

/-! ## Slices -/

theorem slice_congr {m m' : Memory} {start len : Nat}
    (h : ∀ a, start ≤ a → a < start + len → m' a = m a) :
    m'.slice start len = m.slice start len := by
  apply List.map_congr_left
  intro i hi
  have hlt := List.mem_range.mp hi
  exact h (start + i) (by omega) (by omega)

/-- A slice of a slice. -/
theorem window_slice {m : Memory} {start len k n : Nat} (h : k + n ≤ len) :
    ((m.slice start len).drop k).take n = m.slice (start + k) n := by
  apply List.ext_getElem?
  intro i
  by_cases hi : i < n
  · have hlt : k + i < len := by omega
    simp [slice, List.getElem?_drop, hi, hlt, Nat.add_assoc]
  · rw [List.getElem?_eq_none (by rw [List.length_take]; omega),
      List.getElem?_eq_none (by rw [slice, List.length_map, List.length_range]; omega)]

end Memory

/-! ## What an operation touches -/

theorem MemOp.byteAt_fill {start len a : Nat} {byte b : UInt8} :
    (MemOp.fill start len byte).byteAt a = some b ↔
      (start ≤ a ∧ a < start + len) ∧ byte = b := by
  rw [byteAt]
  split
  · simp [*]
  · simp [*]

theorem MemOp.byteAt_copy_add {start k : Nat} {bytes : List UInt8} :
    (MemOp.copy start bytes).byteAt (start + k) = bytes[k]? := by
  rw [byteAt, if_pos (Nat.le_add_right ..), Nat.add_sub_cancel_left]

theorem MemOp.byteAt_copy_eq_none {start a : Nat} {bytes : List UInt8} :
    (MemOp.copy start bytes).byteAt a = none ↔ ¬ (start ≤ a ∧ a < start + bytes.length) := by
  rw [byteAt]
  split
  · rw [List.getElem?_eq_none_iff]
    omega
  · simp [*]

theorem Memory.apply_copy_of_outside {m : Memory} {start a : Nat} {bytes : List UInt8}
    (h : ¬ (start ≤ a ∧ a < start + bytes.length)) : m.apply (.copy start bytes) a = m a := by
  rw [apply, MemOp.byteAt_copy_eq_none.mpr h]
  rfl

/-- What was copied stands there. -/
theorem Memory.slice_copy (m : Memory) (start : Nat) (bytes : List UInt8) :
    (m.apply (.copy start bytes)).slice start bytes.length = bytes := by
  apply List.ext_getElem?
  intro i
  by_cases hi : i < bytes.length
  · simp [slice, apply, MemOp.byteAt_copy_add, hi]
  · simp [slice, hi]

end XnuRs
