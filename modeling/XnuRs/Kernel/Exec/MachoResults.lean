/-
  XnuRs.Kernel.Exec.MachoResults

  Which files the kernel's `macho::parse` accepts, and where it lets them start.

  What becomes of a file (`parse_result`) depends on the segments that take memory
  and on the two parts of the entry address (`entryParts`), and on no field of
  the header.  From it come the files whose entry lies in the loaded image
  (`entryUsable_iff`), and those that are rejected when they should be
  (`rejectsInvalid_iff`).
-/

import XnuRs.Kernel.Exec.LoaderResults

namespace XnuRs.Kernel.Exec

variable {machoParse : List UInt8 → Option Macho.MachO} {bytes : List UInt8}
  {macho : Macho.MachO} {image : UserImage} {entryoff entryVa : UInt64} {text : Macho.Segment}

/-! ## The entry address -/

/-- What the entry address is made of: the offset in the first `LC_MAIN`, and the first segment
    named `__TEXT`. -/
def entryParts (macho : Macho.MachO) : Option (UInt64 × Macho.Segment) := do
  let main ← macho.loadCommands.find? fun cmd => decide (cmd.cmd.toNat = Macho.lcMain)
  let entryoff ← main.entryoff
  let text ← macho.segments.find? (·.name = some "__TEXT")
  some (entryoff, text)

/-- The distance of the entry from the start of `__TEXT`. -/
def entryDistance (entryoff : UInt64) (text : Macho.Segment) : Nat :=
  entryoff.toNat - text.fileoff.toNat

theorem entryParts_eq_some (h : entryParts macho = some (entryoff, text)) :
    (∃ cmd ∈ macho.loadCommands, cmd.cmd.toNat = Macho.lcMain) ∧ text ∈ macho.segments ∧
      text.name = some "__TEXT" := by
  simp only [entryParts, Option.bind_eq_bind, Option.bind_eq_some_iff, Option.some.injEq,
    Prod.mk.injEq] at h
  obtain ⟨main, hmain, _, -, text', htext, -, rfl⟩ := h
  refine ⟨⟨main, List.mem_of_find?_eq_some hmain, ?_⟩, List.mem_of_find?_eq_some htext, ?_⟩
  · simpa using List.find?_some hmain
  · simpa using List.find?_some htext

/-- The loop stops at the first `LC_MAIN`, and makes the entry address of its parts. -/
theorem findEntry_eq (macho : Macho.MachO) :
    findEntry macho macho.loadCommands =
      match entryParts macho with
      | none => .ok none
      | some (entryoff, text) =>
        .orPanic (checkedAdd text.vmaddr (saturatingSub entryoff text.fileoff)) >>=
          fun entryVa => .ok (some entryVa) := by
  rw [entryParts]
  induction macho.loadCommands with
  | nil => rfl
  | cons cmd rest ih =>
      rw [findEntry]
      -- the loop ends at the first LC_MAIN, whatever becomes of it
      by_cases hmain : cmd.cmd.toNat = Macho.lcMain
      · rw [if_pos hmain, List.find?_cons_of_pos (by simpa using hmain)]
        cases hentryoff : cmd.entryoff with
        | none => simp [hentryoff]
        | some entryoff =>
            cases htext : macho.segments.find? (·.name = some "__TEXT") with
            | none => simp
            | some text => simp [hentryoff]
      · rw [if_neg hmain, List.find?_cons_of_neg (by simpa using hmain)]
        exact ih

theorem entryVa_eq_some :
    checkedAdd text.vmaddr (saturatingSub entryoff text.fileoff) = some entryVa ↔
      entryVa.toNat = text.vmaddr.toNat + entryDistance entryoff text := by
  rw [checkedAdd_eq_some, saturatingSub_toNat, entryDistance]

/-! ## What becomes of a file -/

/-- A file without a segment that takes memory, or without a part of the entry address. -/
theorem parse_rejected (h : machoParse bytes = some macho)
    (hlacks : kept macho.segments = [] ∨ entryParts macho = none) :
    (parse machoParse bytes).result = .ok none := by
  rw [parse_result h]
  split
  · rfl
  · rename_i hkept
    rw [findEntry_eq, hlacks.resolve_left hkept]
    rfl

/-- Any other file panics or gives an image. -/
theorem parse_complete (h : machoParse bytes = some macho) (hkept : kept macho.segments ≠ [])
    (hparts : entryParts macho = some (entryoff, text)) :
    (parse machoParse bytes).result =
      match checkedAdd text.vmaddr (saturatingSub entryoff text.fileoff) with
      | none => .panic
      | some entryVa => .ok (some ⟨kept macho.segments, entryVa, linkBaseOf macho⟩) := by
  rw [parse_result h, if_neg hkept, findEntry_eq, hparts]
  show (Outcome.orPanic (checkedAdd text.vmaddr (saturatingSub entryoff text.fileoff)) >>=
    fun entryVa => Except.ok (some entryVa)) >>= _ = _
  cases checkedAdd text.vmaddr (saturatingSub entryoff text.fileoff) with
  | none => rfl
  | some entryVa => rfl

theorem parse_cases (machoParse : List UInt8 → Option Macho.MachO) (bytes : List UInt8) :
    (parse machoParse bytes).result = .ok none ∨
      ∃ macho entryoff text, machoParse bytes = some macho ∧ kept macho.segments ≠ [] ∧
        entryParts macho = some (entryoff, text) := by
  cases hmacho : machoParse bytes with
  | none => exact .inl (parse_none hmacho)
  | some macho =>
      by_cases hlacks : kept macho.segments = [] ∨ entryParts macho = none
      · exact .inl (parse_rejected hmacho hlacks)
      · obtain ⟨hkept, hparts⟩ := not_or.mp hlacks
        obtain ⟨parts, hparts⟩ := Option.ne_none_iff_exists'.mp hparts
        exact .inr ⟨macho, parts.1, parts.2, rfl, hkept, hparts⟩

/-- An image comes from a file that has everything `parse` looks for. -/
theorem parse_eq_some (h : (parse machoParse bytes).result = .ok (some image)) :
    ∃ macho entryoff text, machoParse bytes = some macho ∧ kept macho.segments ≠ [] ∧
      entryParts macho = some (entryoff, text) ∧ image.segments = kept macho.segments ∧
      image.entryVa.toNat = text.vmaddr.toNat + entryDistance entryoff text := by
  rcases parse_cases machoParse bytes with hnone | ⟨macho, entryoff, text, hmacho, hkept, hparts⟩
  · rw [hnone] at h
    cases h
  · rw [parse_complete hmacho hkept hparts] at h
    cases hentry : checkedAdd text.vmaddr (saturatingSub entryoff text.fileoff) with
    | none =>
        rw [hentry] at h
        cases h
    | some entryVa =>
        rw [hentry] at h
        obtain rfl := Option.some.inj (Except.ok.inj h)
        exact ⟨macho, entryoff, text, hmacho, hkept, hparts, rfl, entryVa_eq_some.mp hentry⟩

/-- So does a panic, when the entry address is not a word. -/
theorem parse_eq_panic (h : (parse machoParse bytes).result = .panic) :
    ∃ macho entryoff text, machoParse bytes = some macho ∧ kept macho.segments ≠ [] ∧
      entryParts macho = some (entryoff, text) ∧
      2 ^ 64 ≤ text.vmaddr.toNat + entryDistance entryoff text := by
  rcases parse_cases machoParse bytes with hnone | ⟨macho, entryoff, text, hmacho, hkept, hparts⟩
  · rw [hnone] at h
    cases h
  · refine ⟨macho, entryoff, text, hmacho, hkept, hparts, ?_⟩
    by_contra hlt
    have hentry : checkedAdd text.vmaddr (saturatingSub entryoff text.fileoff) = some _ :=
      entryVa_eq_some.mpr (UInt64.toNat_ofNat_of_lt' (Nat.not_le.mp hlt))
    rw [parse_complete hmacho hkept hparts, hentry] at h
    cases h

/-! ## Where an image starts -/

/-- The entry address is computed without overflow, and an image that is returned starts in one
    of its segments, at a place in the memory that `load_and_run` takes for it. -/
structure EntryUsable (machoParse : List UInt8 → Option Macho.MachO) (bytes : List UInt8) :
    Prop where
  computed : (parse machoParse bytes).result ≠ .panic
  inSegment : ∀ image, (parse machoParse bytes).result = .ok (some image) →
    ∃ seg ∈ image.segments, seg.vmaddr.toNat ≤ image.entryVa.toNat ∧
      image.entryVa.toNat < seg.vmaddr.toNat + seg.vmsize.toNat
  inImage : ∀ image, (parse machoParse bytes).result = .ok (some image) →
    image.linkBase ≤ image.entryVa ∧
      image.entryVa.toNat - image.linkBase.toNat < image.span.toNat

/-- The offset in `LC_MAIN` stays inside `__TEXT`, or reaches another segment, and does not reach
    the last address. -/
def EntryWithin (macho : Macho.MachO) : Prop :=
  ∀ entryoff text, kept macho.segments ≠ [] → entryParts macho = some (entryoff, text) →
    text.vmaddr.toNat + entryDistance entryoff text < 2 ^ 64 - 1 ∧
      (entryDistance entryoff text < text.vmsize.toNat ∨
        ∃ other ∈ macho.segments,
          other.vmaddr.toNat ≤ text.vmaddr.toNat + entryDistance entryoff text ∧
          text.vmaddr.toNat + entryDistance entryoff text <
            other.vmaddr.toNat + other.vmsize.toNat)

/-- An address in a segment of the file, below the last address, is one of the loaded image. -/
theorem UserImage.Based.mem_span (hbased : image.Based) {seg : Segment}
    (hseg : seg ∈ image.segments) (hle : seg.vmaddr.toNat ≤ entryVa.toNat)
    (hlt : entryVa.toNat < seg.vmaddr.toNat + seg.vmsize.toNat)
    (hlast : entryVa.toNat < 2 ^ 64 - 1) :
    image.linkBase ≤ entryVa ∧ entryVa.toNat - image.linkBase.toNat < image.span.toNat := by
  obtain ⟨hlink, hmin, hmax⟩ := hbased.span_ge hseg
  rw [UInt64.le_iff_toNat_le]
  omega

theorem entryUsable_of_within
    (h : ∀ macho, machoParse bytes = some macho → EntryWithin macho) :
    EntryUsable machoParse bytes := by
  have hin : ∀ image, (parse machoParse bytes).result = .ok (some image) →
      ∃ seg ∈ image.segments, seg.vmaddr.toNat ≤ image.entryVa.toNat ∧
        image.entryVa.toNat < seg.vmaddr.toNat + seg.vmsize.toNat ∧
        image.entryVa.toNat < 2 ^ 64 - 1 := by
    intro image himage
    obtain ⟨macho, entryoff, text, hmacho, hkept, hparts, hsegments, hentry⟩ := parse_eq_some himage
    obtain ⟨hlast, hreach⟩ := h macho hmacho entryoff text hkept hparts
    rw [hsegments, hentry]
    -- the entry is in `__TEXT` itself or in another segment, which has memory
    rcases hreach with hdistance | ⟨other, hother, hle, hlt⟩
    · have hsize : text.vmsize ≠ 0 := by
        rintro h0
        rw [h0, UInt64.toNat_zero] at hdistance
        omega
      refine ⟨.of text, mem_kept.mpr ⟨text, (entryParts_eq_some hparts).2.1, hsize, rfl⟩, ?_⟩
      simp only [Segment.of]
      omega
    · have hsize : other.vmsize ≠ 0 := by
        rintro h0
        rw [h0, UInt64.toNat_zero] at hlt
        omega
      exact ⟨.of other, mem_kept.mpr ⟨other, hother, hsize, rfl⟩, hle, hlt, hlast⟩
  refine ⟨?_, ?_, ?_⟩
  · intro hpanic
    obtain ⟨macho, entryoff, text, hmacho, hkept, hparts, hover⟩ := parse_eq_panic hpanic
    have hlast := (h macho hmacho entryoff text hkept hparts).1
    omega
  · intro image himage
    obtain ⟨seg, hseg, hle, hlt, -⟩ := hin image himage
    exact ⟨seg, hseg, hle, hlt⟩
  · intro image himage
    obtain ⟨seg, hseg, hle, hlt, hlast⟩ := hin image himage
    exact (based_of_parse himage).mem_span hseg hle hlt hlast

/-- **Which files have a usable entry point**: those that are not accepted, and those whose
    `LC_MAIN` stays inside `__TEXT` or reaches another segment, below the last address. -/
theorem entryUsable_iff (machoParse : List UInt8 → Option Macho.MachO) (bytes : List UInt8) :
    EntryUsable machoParse bytes ↔
      ∀ macho, machoParse bytes = some macho → EntryWithin macho := by
  refine ⟨?_, entryUsable_of_within⟩
  intro husable macho hmacho entryoff text hkept hparts
  have hresult := parse_complete hmacho hkept hparts
  cases hentry : checkedAdd text.vmaddr (saturatingSub entryoff text.fileoff) with
  | none =>
      rw [hentry] at hresult
      exact absurd hresult husable.computed
  | some entryVa =>
      rw [hentry] at hresult
      have hsum := entryVa_eq_some.mp hentry
      obtain ⟨seg, hseg, hle, hlt⟩ := husable.inSegment _ hresult
      obtain ⟨hlink, hspan⟩ := husable.inImage _ hresult
      have hmax := ((based_of_parse hresult).span_ge hseg).2.2
      have hlink := UInt64.le_iff_toNat_le.mp hlink
      obtain ⟨other, hother, -, rfl⟩ := mem_kept.mp hseg
      dsimp only at hle hlt hlink hspan hmax
      rw [← hsum]
      exact ⟨by omega, .inr ⟨other, hother, hle, hlt⟩⟩

/-- A file of a `__TEXT` segment of 16 bytes, with the entry behind it. -/
def strayFile : List UInt8 :=
  Macho.header 2 96 0 ++
    Macho.encodeCommands [textSegment 0x100000000] { entryoff := 0x1000, stacksize := 0 }

/-- It is accepted, and starts where nothing is loaded. -/
theorem strayFile_not_usable : ¬ EntryUsable Macho.parse strayFile := by
  have hparse : (parse Macho.parse strayFile).result =
      .ok (some ⟨[⟨0x100000000, 16, strayFile.take 16⟩], 0x100001000, 0x100000000⟩) := by
    decide +kernel
  intro husable
  obtain ⟨seg, hseg, -, hlt⟩ := husable.inSegment _ hparse
  obtain rfl := List.mem_singleton.mp hseg
  revert hlt
  decide

/-! ## What should be rejected -/

/-- `MH_CIGAM_64`: the magic number of a 64-bit file in the other byte order. -/
def mhCigam64 : Nat := 0xcffaedfe

/-- `MH_CIGAM`: that of a 32-bit file. -/
def mhCigam : Nat := 0xcefaedfe

/-- A 32-bit field of the header, in the byte order of the file. -/
def headerField (bytes : List UInt8) (offset : Nat) : Nat :=
  if Macho.field bytes 0 4 = mhCigam64 ∨ Macho.field bytes 0 4 = mhCigam then
    leToNat ((bytes.drop offset).take 4).reverse
  else Macho.field bytes offset 4

/-- The header says that the file is a 64-bit executable for `AArch64`. -/
structure Arm64Executable (bytes : List UInt8) : Prop where
  is64 : Macho.field bytes 0 4 = Macho.mhMagic64 ∨ Macho.field bytes 0 4 = mhCigam64
  cputype : headerField bytes 4 = Macho.cpuTypeArm64
  filetype : headerField bytes 12 = Macho.mhExecute

/-- The file has what the documentation of `parse` asks for. -/
structure ValidExecutable (bytes : List UInt8) (macho : Macho.MachO) : Prop where
  header : Arm64Executable bytes
  sized : ∃ seg ∈ macho.segments, seg.vmsize ≠ 0
  main : ∃ cmd ∈ macho.loadCommands, cmd.cmd.toNat = Macho.lcMain
  text : ∃ seg ∈ macho.segments, seg.name = some "__TEXT"

/-- The file is a valid executable, or `parse` returns `None`. -/
def RejectsInvalid (machoParse : List UInt8 → Option Macho.MachO) (bytes : List UInt8) : Prop :=
  (∃ macho, machoParse bytes = some macho ∧ ValidExecutable bytes macho) ∨
    (parse machoParse bytes).result = .ok none

/-- A file with everything that `parse` looks for is valid but for its header. -/
theorem validExecutable_of_parts (hheader : Arm64Executable bytes)
    (hkept : kept macho.segments ≠ []) (hparts : entryParts macho = some (entryoff, text)) :
    ValidExecutable bytes macho := by
  obtain ⟨seg, hseg⟩ := List.exists_mem_of_ne_nil _ hkept
  obtain ⟨s, hs, hsize, -⟩ := mem_kept.mp hseg
  obtain ⟨hmain, htext, hname⟩ := entryParts_eq_some hparts
  exact ⟨hheader, ⟨s, hs, hsize⟩, hmain, ⟨text, htext, hname⟩⟩

/-- **Which invalid files are rejected**: none for what its header says, so every file is
    treated as documented that has the right header, or lacks something else. -/
theorem rejectsInvalid_iff (machoParse : List UInt8 → Option Macho.MachO) (bytes : List UInt8) :
    RejectsInvalid machoParse bytes ↔
      Arm64Executable bytes ∨ ∀ macho, machoParse bytes = some macho →
        kept macho.segments = [] ∨ entryParts macho = none := by
  constructor
  · rintro (⟨macho, -, hvalid⟩ | hnone)
    · exact .inl hvalid.header
    · right
      intro macho hmacho
      -- a file with all the parts is accepted, or its entry overflows
      by_contra hcomplete
      obtain ⟨hkept, hparts⟩ := not_or.mp hcomplete
      obtain ⟨parts, hparts⟩ := Option.ne_none_iff_exists'.mp hparts
      have hresult := parse_complete hmacho hkept hparts
      rw [hnone] at hresult
      split at hresult
      · cases hresult
      · cases hresult
  · intro h
    rcases parse_cases machoParse bytes with hnone | ⟨macho, entryoff, text, hmacho, hkept, hparts⟩
    · exact .inr hnone
    rcases h with hheader | hlacks
    · exact .inl ⟨macho, hmacho, validExecutable_of_parts hheader hkept hparts⟩
    · exact .inr (parse_rejected hmacho (hlacks macho hmacho))

/-- A file like `textFile`, for x86-64. -/
def foreignFile : List UInt8 := (textFile 0x100000000).set 4 7

/-- It is accepted. -/
theorem foreignFile_accepted : ¬ RejectsInvalid Macho.parse foreignFile := by
  have hparse : (parse Macho.parse foreignFile).result ≠ .ok none := by decide +kernel
  have hcputype : headerField foreignFile 4 ≠ Macho.cpuTypeArm64 := by decide +kernel
  rintro (⟨macho, -, hvalid⟩ | hnone)
  · exact hcputype hvalid.header.cputype
  · exact hparse hnone

end XnuRs.Kernel.Exec
