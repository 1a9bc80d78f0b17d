/-
  XnuRs.Kernel.Exec.Macho

  The kernel's view of a user Mach-O (kernel/src/exec/macho.rs): the segments
  that take memory, the entry address and the link base.

  `MachO::parse` is a parameter.  `parse_result` says what becomes of a file,
  and `parse_ok` what an accepted one gives: the kept segments, in file order,
  and a link base below all of them.
-/

import XnuRs.Kernel.Arch.Context
import XnuRs.Kernel.DeviceTree
import XnuRs.Lib.Memory
import XnuRs.Macho.Goblin

namespace XnuRs.Kernel

/-! ## Effects -/

/-- One effect of the kernel on the machine. -/
inductive KernelOp where
  | uart (op : UartOp)
  | mem (op : MemOp)
  /-- `dc cvau`: clean the data cache line at `addr`. -/
  | dcCvau (addr : UInt64)
  /-- `ic ivau`: invalidate the instruction cache line at `addr`. -/
  | icIvau (addr : UInt64)
  | dsbIsh
  | isb
  | installVectors
  /-- `user_enter`: the kernel leaves for EL0. -/
  | userEnter (frame : TrapFrame)
deriving DecidableEq, Repr

/-- A run of the kernel; it has no error values. -/
abbrev Executing := Traced KernelOp Empty

/-- `uart::write_str`. -/
def printStr (message : String) : Executing Unit := .emit (.uart (.str message))

/-- `uart::write_hex_u64`. -/
def printHexU64 (value : UInt64) : Executing Unit := .emit (.uart (.hexU64 value.toNat))

namespace Exec

/-! ## The parser -/

/-- `Segment`. -/
structure Segment where
  vmaddr : UInt64
  vmsize : UInt64
  data : List UInt8
deriving DecidableEq, Repr

/-- `UserImage`. -/
structure UserImage where
  segments : List Segment
  entryVa : UInt64
  linkBase : UInt64
deriving DecidableEq, Repr

/-- The segment loop of `parse`. -/
def collectSegments : List Macho.Segment → List Segment → UInt64 → List Segment × UInt64
  | [], segments, linkBase => (segments, linkBase)
  | seg :: rest, segments, linkBase =>
    -- a segment without memory is dropped
    if seg.vmsize = 0 then collectSegments rest segments linkBase
    else
      let linkBase := if seg.vmaddr < linkBase then seg.vmaddr else linkBase
      collectSegments rest (segments ++ [⟨seg.vmaddr, seg.vmsize, seg.data⟩]) linkBase

/-- The load command loop of `parse`; it stops at the first `LC_MAIN`. -/
def findEntry (macho : Macho.MachO) : List Macho.LoadCommand → Outcome Empty (Option UInt64)
  | [] => .ok none
  | cmd :: rest =>
    if cmd.cmd.toNat = Macho.lcMain then
      -- `__TEXT` is looked for in all segments, also those dropped above
      match cmd.entryoff, macho.segments.find? (·.name = some "__TEXT") with
      | some entryoff, some text => do
        let entryOffset := saturatingSub entryoff text.fileoff
        let entryVa ← .orPanic (checkedAdd text.vmaddr entryOffset)
        .ok (some entryVa)
      | _, _ => .ok none
    else findEntry macho rest

/-- `parse`. -/
def parse (machoParse : List UInt8 → Option Macho.MachO) (bytes : List UInt8) :
    Executing (Option UserImage) :=
  match machoParse bytes with
  | none => pure none
  | some macho =>
    let (segments, linkBase) := collectSegments macho.segments [] (.ofNat (2 ^ 64 - 1))
    if segments.isEmpty then do
      printStr "xnu-rs: Mach-O has no loadable segments\n"
      pure none
    else do
      match ← .lift (findEntry macho macho.loadCommands) with
      | none => do
        printStr "xnu-rs: Mach-O missing LC_MAIN\n"
        pure none
      | some entryVa => pure (some ⟨segments, entryVa, linkBase⟩)

/-! ## What is accepted -/

/-- The kernel's copy of a segment. -/
def Segment.of (seg : Macho.Segment) : Segment := ⟨seg.vmaddr, seg.vmsize, seg.data⟩

/-- The segments that take memory. -/
def kept (segments : List Macho.Segment) : List Segment :=
  (segments.filter (·.vmsize != 0)).map Segment.of

theorem mem_kept {segments : List Macho.Segment} {seg : Segment} :
    seg ∈ kept segments ↔ ∃ s ∈ segments, s.vmsize ≠ 0 ∧ Segment.of s = seg := by
  simp [kept, and_assoc]

/-- The segment loop keeps the sized segments, and ends with a base below all of them. -/
theorem collectSegments_spec (input : List Macho.Segment) (segments : List Segment)
    (linkBase : UInt64) :
    (collectSegments input segments linkBase).1 = segments ++ kept input ∧
      (collectSegments input segments linkBase).2 ≤ linkBase ∧
      ∀ seg ∈ kept input, (collectSegments input segments linkBase).2 ≤ seg.vmaddr := by
  induction input generalizing segments linkBase with
  | nil => simp [collectSegments, kept]
  | cons head rest ih =>
      rw [collectSegments]
      by_cases hzero : head.vmsize = 0
      · have hskip : kept (head :: rest) = kept rest := by simp [kept, hzero]
        rw [if_pos hzero, hskip]
        exact ih segments linkBase
      · have htake : kept (head :: rest) = Segment.of head :: kept rest := by simp [kept, hzero]
        -- one round keeps the lower of the two addresses
        rw [if_neg hzero, htake]
        simp only [← min_def_lt]
        obtain ⟨hsegments, hle, hall⟩ := ih (segments ++ [⟨head.vmaddr, head.vmsize, head.data⟩])
          (min head.vmaddr linkBase)
        refine ⟨?_, hle.trans (min_le_right ..), ?_⟩
        · rw [hsegments, List.append_assoc]
          rfl
        · exact List.forall_mem_cons.mpr ⟨hle.trans (min_le_left ..), hall⟩

variable {machoParse : List UInt8 → Option Macho.MachO} {bytes : List UInt8}
  {macho : Macho.MachO} {image : UserImage}

/-- The link base that the segment loop ends with. -/
def linkBaseOf (macho : Macho.MachO) : UInt64 :=
  (collectSegments macho.segments [] (.ofNat (2 ^ 64 - 1))).2

theorem parse_none (h : machoParse bytes = none) : (parse machoParse bytes).result = .ok none := by
  simp [parse, h]

/-- What becomes of a file, in terms of what it has. -/
theorem parse_result (h : machoParse bytes = some macho) :
    (parse machoParse bytes).result =
      if kept macho.segments = [] then .ok none
      else findEntry macho macho.loadCommands >>= fun entry =>
        .ok (entry.map fun entryVa => ⟨kept macho.segments, entryVa, linkBaseOf macho⟩) := by
  obtain ⟨hsegments, -, -⟩ := collectSegments_spec macho.segments [] (.ofNat (2 ^ 64 - 1))
  rw [List.nil_append] at hsegments
  simp only [parse, h, hsegments, List.isEmpty_iff]
  split
  · simp [printStr]
  · rw [Traced.bind_result]
    show (findEntry macho macho.loadCommands >>= _) = _
    congr 1
    funext entry
    cases entry with
    | none => simp [printStr]
    | some entryVa => rfl

/-- What an accepted file gives. -/
theorem parse_ok (h : (parse machoParse bytes).result = .ok (some image)) :
    ∃ macho, machoParse bytes = some macho ∧ image.segments = kept macho.segments ∧
      image.segments ≠ [] ∧ ∀ seg ∈ image.segments, image.linkBase ≤ seg.vmaddr := by
  cases hmacho : machoParse bytes with
  | none =>
      rw [parse_none hmacho] at h
      cases h
  | some macho =>
      rw [parse_result hmacho] at h
      split at h
      · cases h
      · rename_i hkept
        obtain ⟨entry, -, h⟩ := Outcome.bind_eq_ok.mp h
        obtain ⟨entryVa, -, rfl⟩ := Option.map_eq_some_iff.mp (Except.ok.inj h)
        obtain ⟨-, -, hbase⟩ := collectSegments_spec macho.segments [] (.ofNat (2 ^ 64 - 1))
        exact ⟨macho, rfl, rfl, hkept, hbase⟩

end Exec
end XnuRs.Kernel
