/-
  XnuRs.Xtask.PartitionIo

  The view of one partition of a disk image that the image writer hands to the
  FAT driver: a device with its own cursor, whose transfers are sent to
  `base + pos` of the whole disk and end at `len`.

  A call returns its result and the state it leaves, also when the result is an
  error.  The count of a transfer never exceeds the length of its buffer, so the
  slice of the buffer cannot panic and is not written as a check.
-/

import XnuRs.Lib.Word
import XnuRs.Lib.ByteFile

namespace XnuRs.Xtask

/-- `PartitionIo`. -/
structure PartitionIo (T : Type) where
  inner : T
  base : UInt64
  len : UInt64
  pos : UInt64
deriving DecidableEq

namespace PartitionIo

variable {T ε α : Type}

def new (inner : T) (base len : UInt64) : PartitionIo T := { inner, base, len, pos := 0 }

/-- The error of a seek that leaves the partition. -/
def outsidePartition : IoError ε := .new .invalidInput "seek outside partition"

/-! ## Transfers -/

/-- How many bytes a transfer with a buffer of `n` bytes asks for, and the disk offset it
    asks for them at. -/
def request (p : PartitionIo T) (n : Nat) (overflow : String) :
    Outcome (IoError ε) (Nat × UInt64) := do
  let remaining ← .orPanic (checkedSub p.len p.pos)
  let max ← .okOr (u64OfUsize n) (.other "buffer too large")
  let count ← .okOr (usizeOfU64 (min remaining max)) (.other overflow)
  let start ← .orPanic (checkedAdd p.base p.pos)
  return (count, start)

/-- The cursor after a transfer of `n` bytes. -/
def advance (p : PartitionIo T) (n : Nat) (overflow : String) : Outcome (IoError ε) UInt64 := do
  let n ← .okOr (u64OfUsize n) (.other overflow)
  .orPanic (checkedAdd p.pos n)

/-- The calls a transfer makes on the disk: a seek, and if that succeeds the operation. -/
def seekThen (dev : ByteDevice T ε) (inner : T) (start : UInt64)
    (op : T → Except ε α × T) : Except ε α × T :=
  match dev.seek inner (.start start) with
  | (.error e, inner) => (.error e, inner)
  | (.ok _, inner) => op inner

/-- A transfer with a buffer of `n` bytes: `op` is given the part of the buffer to use, and
    `moved` counts what it moved. -/
def transfer (dev : ByteDevice T ε) (overflow : String) (nothing : α) (moved : α → Nat)
    (op : Nat → T → Except ε α × T) (p : PartitionIo T) (n : Nat) :
    Outcome (IoError ε) α × PartitionIo T :=
  -- at the end of the partition the disk is not asked
  if p.pos ≥ p.len then
    (.ok nothing, p)
  else
    match p.request n overflow with
    | .error f => (.error f, p)
    | .ok (count, start) =>
        match seekThen dev p.inner start (op count) with
        -- the disk has moved, the cursor of the partition has not
        | (.error e, inner) => (.err (.inner e), { p with inner })
        | (.ok a, inner) =>
            match p.advance (moved a) overflow with
            | .error f => (.error f, { p with inner })
            | .ok pos => (.ok a, { p with inner, pos })

/-- `Read::read` into a buffer of `n` bytes. -/
def read (dev : ByteDevice T ε) (p : PartitionIo T) (n : Nat) :
    Outcome (IoError ε) (List UInt8) × PartitionIo T :=
  transfer dev "read overflow" [] List.length (fun count inner => dev.read inner count) p n

/-- `Write::write`. -/
def write (dev : ByteDevice T ε) (p : PartitionIo T) (buf : List UInt8) :
    Outcome (IoError ε) Nat × PartitionIo T :=
  transfer dev "write overflow" 0 id (fun count inner => dev.write inner (buf.take count)) p
    buf.length

/-- `Write::flush`. -/
def flush (dev : ByteDevice T ε) (p : PartitionIo T) : Outcome (IoError ε) Unit × PartitionIo T :=
  match dev.flush p.inner with
  | (.error e, inner) => (.err (.inner e), { p with inner })
  | (.ok (), inner) => (.ok (), { p with inner })

/-! ## Seeks -/

/-- The offset a signed distance away. -/
def displace (origin : UInt64) (delta : Int64) : Outcome (IoError ε) UInt64 :=
  if delta ≥ 0 then do
    let forward ← .okOr (u64OfI64 delta) (.other "seek overflow")
    .okOr (checkedAdd origin forward) outsidePartition
  else
    .okOr (checkedSub origin (unsignedAbs delta)) outsidePartition

/-- The offset a seek asks for. -/
def next (p : PartitionIo T) : SeekFrom → Outcome (IoError ε) UInt64
  | .start off => .ok off
  | .current delta => displace p.pos delta
  | .fromEnd delta => displace p.len delta

/-- `Seek::seek`. -/
def seek (p : PartitionIo T) (pos : SeekFrom) : Outcome (IoError ε) UInt64 × PartitionIo T :=
  match p.next pos with
  | .error f => (.error f, p)
  | .ok next =>
      -- the position behind the last byte is allowed
      if next > p.len then
        (.err outsidePartition, p)
      else
        (.ok next, { p with pos := next })

/-! ## Calls and runs -/

/-- A call on the partition.  The length of a buffer is a `usize`. -/
inductive Call where
  | read (n : Nat) (fits : n ≤ usizeMax)
  | write (buf : List UInt8) (fits : buf.length ≤ usizeMax)
  | flush
  | seek (pos : SeekFrom)

/-- What a call returns: the bytes read, the number of bytes written, nothing, or the new
    position of the cursor. -/
inductive Reply where
  | bytes (bs : List UInt8)
  | count (n : Nat)
  | flushed
  | position (n : Nat)
deriving DecidableEq, Repr

def call (dev : ByteDevice T ε) (p : PartitionIo T) :
    Call → Outcome (IoError ε) Reply × PartitionIo T
  | .read n _ => (p.read dev n).map (Except.map .bytes) id
  | .write buf _ => (p.write dev buf).map (Except.map .count) id
  | .flush => (p.flush dev).map (Except.map fun _ => .flushed) id
  | .seek pos => (p.seek pos).map (Except.map fun next => .position next.toNat) id

/-- The results of a sequence of calls, and the state they leave. -/
def run (dev : ByteDevice T ε) (p : PartitionIo T) :
    List Call → List (Outcome (IoError ε) Reply) × PartitionIo T
  | [] => ([], p)
  | c :: cs =>
      let after := run dev (p.call dev c).2 cs
      ((p.call dev c).1 :: after.1, after.2)

end PartitionIo
end XnuRs.Xtask
