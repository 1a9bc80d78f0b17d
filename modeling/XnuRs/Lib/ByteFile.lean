/-
  XnuRs.Lib.ByteFile

  Byte arrays behind a cursor.

  `ByteFile` is the plain notion: an array of fixed length with a cursor inside
  it, whose transfers stop at its end and may stop short of it.  `ByteDevice` is
  the interface of a device that is used through reads, writes and seeks, and
  `IsByteArray` says that such a device holds an array of bytes: what it reads
  and writes is found at its cursor, it may transfer less than it was asked for,
  and a call that fails leaves the bytes alone.

  Windows and splices are the two views of an array that relate a device to a
  file inside it; both are described element by element.
-/

import XnuRs.Lib.Outcome
import Mathlib.Data.List.Basic

namespace XnuRs

universe u

variable {α : Type u}

/-! ## Windows and splices -/

/-- The `len` elements from `start` on. -/
def window (xs : List α) (start len : Nat) : List α := (xs.drop start).take len

/-- The list with `new` in the place of the elements from `start` on. -/
def splice (xs : List α) (start : Nat) (new : List α) : List α :=
  xs.take start ++ new ++ xs.drop (start + new.length)

variable {xs new : List α} {start len i : Nat}

theorem length_window (h : start + len ≤ xs.length) : (window xs start len).length = len := by
  rw [window, List.length_take, List.length_drop]
  omega

theorem length_splice (h : start + new.length ≤ xs.length) :
    (splice xs start new).length = xs.length := by
  simp only [splice, List.length_append, List.length_take, List.length_drop]
  omega

theorem getElem?_window (xs : List α) (start len i : Nat) :
    (window xs start len)[i]? = if i < len then xs[start + i]? else none := by
  rw [window, List.getElem?_take, List.getElem?_drop]

theorem getElem?_splice (h : start + new.length ≤ xs.length) :
    (splice xs start new)[i]? =
      if start ≤ i ∧ i < start + new.length then new[i - start]? else xs[i]? := by
  have hfront : (xs.take start).length = start := by
    rw [List.length_take]
    omega
  -- three parts: before the new bytes, the new bytes, behind them
  rw [splice, List.append_assoc]
  split
  · rw [List.getElem?_append_right (by omega), hfront, List.getElem?_append_left (by omega)]
  · by_cases hi : i < start
    · rw [List.getElem?_append_left (by omega), List.getElem?_take, if_pos hi]
    · rw [List.getElem?_append_right (by omega), hfront, List.getElem?_append_right (by omega),
        List.getElem?_drop]
      congr 1
      omega

/-- A window of a window. -/
theorem window_window {start' len' : Nat} (h : start' + len' ≤ len) :
    window (window xs start len) start' len' = window xs (start + start') len' := by
  apply List.ext_getElem?
  intro j
  simp only [getElem?_window]
  split
  · rw [if_pos (by omega), Nat.add_assoc]
  · rfl

/-- What is written inside a window is written to the window. -/
theorem window_splice {at' : Nat} (hlen : start + len ≤ xs.length)
    (h : at' + new.length ≤ len) :
    window (splice xs (start + at') new) start len = splice (window xs start len) at' new := by
  apply List.ext_getElem?
  intro j
  rw [getElem?_window, getElem?_splice (by omega),
    getElem?_splice (by rw [length_window hlen]; exact h), getElem?_window]
  by_cases hj : j < len
  · have hiff : (start + at' ≤ start + j ∧ start + j < start + at' + new.length) ↔
        (at' ≤ j ∧ j < at' + new.length) := by omega
    rw [if_pos hj, if_pos hj, Nat.add_sub_add_left]
    simp only [hiff]
  · rw [if_neg hj, if_neg hj, if_neg (by omega)]

/-- Outside what is written nothing changes. -/
theorem getElem?_splice_of_outside (h : start + new.length ≤ xs.length)
    (hi : i < start ∨ start + new.length ≤ i) : (splice xs start new)[i]? = xs[i]? := by
  rw [getElem?_splice h, if_neg (by omega)]

/-! ## A byte array with a cursor -/

/-- A byte array with a cursor that never leaves it. -/
structure ByteFile where
  bytes : List UInt8
  cursor : Nat
  inside : cursor ≤ bytes.length

namespace ByteFile

variable (f : ByteFile)

/-- How many bytes a transfer of `n` bytes moves when the device stops after `k`. -/
def moved (n k : Nat) : Nat := min (min n (f.bytes.length - f.cursor)) k

theorem cursor_add_moved_le (n k : Nat) : f.cursor + f.moved n k ≤ f.bytes.length := by
  have hinside := f.inside
  rw [moved]
  omega

/-- Read up to `n` bytes, of which `k` come through. -/
def read (n k : Nat) : List UInt8 × ByteFile :=
  (window f.bytes f.cursor (f.moved n k),
    ⟨f.bytes, f.cursor + f.moved n k, f.cursor_add_moved_le n k⟩)

/-- Write the bytes, of which `k` go through. -/
def write (data : List UInt8) (k : Nat) : Nat × ByteFile :=
  (f.moved data.length k,
    { bytes := splice f.bytes f.cursor (data.take (f.moved data.length k))
      cursor := f.cursor + f.moved data.length k
      inside := by
        have hle := f.cursor_add_moved_le data.length k
        have htake : (data.take (f.moved data.length k)).length = f.moved data.length k := by
          rw [List.length_take, moved]
          omega
        rw [length_splice (by omega)]
        exact hle })

/-- Move the cursor, if the target lies in the array or at its end. -/
def seek (target : Int) : Option ByteFile :=
  if h : 0 ≤ target ∧ target ≤ f.bytes.length then
    some ⟨f.bytes, target.toNat, by omega⟩
  else
    none

end ByteFile

/-! ## Devices -/

/-- `io::SeekFrom`. -/
inductive SeekFrom where
  | start (offset : UInt64)
  | current (delta : Int64)
  | fromEnd (delta : Int64)
deriving DecidableEq

/-- `io::ErrorKind`, as far as errors are made here. -/
inductive ErrorKind where
  | other
  | invalidInput
deriving DecidableEq, Repr

/-- `io::Error`: one that a device reports, or a new one. -/
inductive IoError (ε : Type) where
  | inner (e : ε)
  | new (kind : ErrorKind) (message : String)
deriving DecidableEq, Repr

/-- `io::Error::other`. -/
def IoError.other {ε : Type} (message : String) : IoError ε := .new .other message

/-- `io::Read`, `io::Write` and `io::Seek` on a device with state `T`.  A read is given the
    length of the buffer and returns the bytes it put there. -/
structure ByteDevice (T ε : Type) where
  read : T → Nat → Except ε (List UInt8) × T
  write : T → List UInt8 → Except ε Nat × T
  flush : T → Except ε Unit × T
  seek : T → SeekFrom → Except ε UInt64 × T

/-- The device holds the bytes `content` and reads and writes them at `cursor`.  Transfers may
    be short, and every call may fail, without effect on the bytes. -/
structure IsByteArray {T ε : Type} (dev : ByteDevice T ε) (content : T → List UInt8)
    (cursor : T → Nat) : Prop where
  /-- A read never changes the bytes. -/
  read_keeps : ∀ s n, content (dev.read s n).2 = content s
  /-- It returns the bytes at the cursor, at most as many as were asked for. -/
  read_ok : ∀ s n bs, (dev.read s n).1 = .ok bs →
    bs.length ≤ n ∧ bs = window (content s) (cursor s) bs.length
  /-- A failed write changes nothing. -/
  write_error : ∀ s data e, (dev.write s data).1 = .error e →
    content (dev.write s data).2 = content s
  /-- A write puts the first bytes of the data at the cursor, and no others. -/
  write_ok : ∀ s data k, cursor s + data.length ≤ (content s).length →
    (dev.write s data).1 = .ok k →
      k ≤ data.length ∧ content (dev.write s data).2 = splice (content s) (cursor s) (data.take k)
  flush_keeps : ∀ s, content (dev.flush s).2 = content s
  seek_keeps : ∀ s pos, content (dev.seek s pos).2 = content s
  /-- A seek from the start sets the cursor. -/
  seek_ok : ∀ s offset r, (dev.seek s (.start offset)).1 = .ok r →
    cursor (dev.seek s (.start offset)).2 = offset.toNat

end XnuRs
