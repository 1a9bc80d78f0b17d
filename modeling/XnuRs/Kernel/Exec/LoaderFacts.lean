/-
  XnuRs.Kernel.Exec.LoaderFacts

  What the kernel's loader writes.

  The link base lies below every kept segment and the span reaches every one of
  them, so no address of a copy overflows (`segmentDst_eq`).  What a run of
  `load_and_run` writes is one zero fill and one copy per kept segment
  (`memOps_loadAndRun`), whatever becomes of it afterwards.

  The span ends at a saturating maximum, the copies at exact sums: they stay
  inside it exactly when no copied byte lies past the top of the words
  (`load_stays_inside_iff`).
-/

import XnuRs.Kernel.Exec.Loader

namespace XnuRs.Kernel.Exec

variable {machoParse : List UInt8 → Option Macho.MachO} {bytes : List UInt8}
  {image : UserImage} {loadBase : UInt64}

/-! ## The span -/

/-- The end of the image is at the end of every segment, or behind it. -/
theorem le_imageEndLoop (segments : List Segment) (imageEnd : UInt64) :
    imageEnd ≤ imageEndLoop segments imageEnd ∧
      ∀ seg ∈ segments, saturatingAdd seg.vmaddr seg.vmsize ≤ imageEndLoop segments imageEnd := by
  induction segments generalizing imageEnd with
  | nil => simp [imageEndLoop]
  | cons head rest ih =>
      -- one round keeps the larger of the two ends
      simp only [imageEndLoop, gt_iff_lt, ← max_def_lt]
      obtain ⟨hle, hall⟩ := ih (max imageEnd (saturatingAdd head.vmaddr head.vmsize))
      exact ⟨(le_max_left ..).trans hle,
        List.forall_mem_cons.mpr ⟨(le_max_right ..).trans hle, hall⟩⟩

/-- The link base lies below the segments. -/
def UserImage.Based (image : UserImage) : Prop :=
  ∀ seg ∈ image.segments, image.linkBase ≤ seg.vmaddr

theorem based_of_parse (h : (parse machoParse bytes).result = .ok (some image)) : image.Based := by
  obtain ⟨_, -, -, -, hbased⟩ := parse_ok h
  exact hbased

/-- The span reaches the end of every segment, or the top of the words. -/
theorem UserImage.Based.span_ge (hbased : image.Based) {seg : Segment}
    (hseg : seg ∈ image.segments) :
    image.linkBase.toNat ≤ seg.vmaddr.toNat ∧
      min (seg.vmaddr.toNat + seg.vmsize.toNat) (2 ^ 64 - 1) ≤
        image.linkBase.toNat + image.span.toNat ∧
      image.linkBase.toNat + image.span.toNat ≤ 2 ^ 64 - 1 := by
  have hle := UInt64.le_iff_toNat_le.mp (hbased seg hseg)
  have hstop := UInt64.le_iff_toNat_le.mp ((le_imageEndLoop image.segments 0).2 seg hseg)
  have hsum := saturatingAdd_toNat seg.vmaddr seg.vmsize
  have hspan := saturatingSub_toNat (imageEndLoop image.segments 0) image.linkBase
  have hend := (imageEndLoop image.segments 0).toNat_lt
  have hvmaddr := seg.vmaddr.toNat_lt
  rw [← UserImage.span] at hspan
  omega

/-! ## The copies -/

/-- The exact destination of a segment. -/
def dstOf (image : UserImage) (loadBase : UInt64) (seg : Segment) : Nat :=
  loadBase.toNat + (seg.vmaddr.toNat - image.linkBase.toNat)

/-- What is copied of a segment. -/
def copied (seg : Segment) : List UInt8 := seg.data.take (min seg.data.length seg.vmsize.toNat)

/-- The address computations of a segment, with room for the span behind `loadBase`. -/
theorem UserImage.Based.segmentDst_eq (hbased : image.Based)
    (hroom : loadBase.toNat + image.span.toNat < 2 ^ 64) {seg : Segment}
    (hseg : seg ∈ image.segments) :
    ∃ offset dst, checkedSub seg.vmaddr image.linkBase = some offset ∧
      checkedAdd loadBase offset = some dst ∧ dst.toNat = dstOf image loadBase seg ∧
        segmentDst image.linkBase loadBase seg = .ok dst := by
  obtain ⟨hle, hmin, hmax⟩ := hbased.span_ge hseg
  have hvmaddr := seg.vmaddr.toNat_lt
  -- both sums are below the end of the span, so neither wraps
  have hoffset : (UInt64.ofNat (seg.vmaddr.toNat - image.linkBase.toNat)).toNat =
      seg.vmaddr.toNat - image.linkBase.toNat :=
    UInt64.toNat_ofNat_of_lt' (show _ < 2 ^ 64 by omega)
  have hdst : (UInt64.ofNat (dstOf image loadBase seg)).toNat = dstOf image loadBase seg := by
    apply UInt64.toNat_ofNat_of_lt'
    show dstOf image loadBase seg < 2 ^ 64
    unfold dstOf
    omega
  have hsub : checkedSub seg.vmaddr image.linkBase =
      some (.ofNat (seg.vmaddr.toNat - image.linkBase.toNat)) := by
    rw [checkedSub_eq_some, hoffset]
    omega
  have hadd : checkedAdd loadBase (.ofNat (seg.vmaddr.toNat - image.linkBase.toNat)) =
      some (.ofNat (dstOf image loadBase seg)) := by
    rw [checkedAdd_eq_some, hoffset, hdst, dstOf]
  refine ⟨_, _, hsub, hadd, hdst, ?_⟩
  rw [segmentDst, hsub, Outcome.orPanic_some, Outcome.ok_bind, hadd, Outcome.orPanic_some]

theorem UserImage.Based.copySegment_eq (hbased : image.Based)
    (hroom : loadBase.toNat + image.span.toNat < 2 ^ 64) {seg : Segment}
    (hseg : seg ∈ image.segments) :
    copySegment image.linkBase loadBase seg =
      ⟨[.mem (.copy (dstOf image loadBase seg) (copied seg))], .ok ()⟩ := by
  obtain ⟨_, dst, -, -, hdst, hok⟩ := hbased.segmentDst_eq hroom hseg
  rw [copySegment, hok, Traced.lift_ok_bind, hdst]
  rfl

/-! ## The effects of a run -/

/-- The memory operation an effect is, if it is one. -/
def KernelOp.mem? : KernelOp → Option MemOp
  | .mem op => some op
  | _ => none

/-- The memory operations among the effects. -/
def memOps (log : List KernelOp) : List MemOp := log.filterMap KernelOp.mem?

theorem mem_memOps {log : List KernelOp} {op : MemOp} : op ∈ memOps log ↔ .mem op ∈ log := by
  rw [memOps, List.mem_filterMap]
  constructor
  · rintro ⟨effect, hmem, h⟩
    cases effect with
    | mem op' =>
        rw [Option.some.inj h] at hmem
        exact hmem
    | _ => cases h
  · intro h
    exact ⟨.mem op, h, rfl⟩

theorem memOps_append (log log' : List KernelOp) :
    memOps (log ++ log') = memOps log ++ memOps log' := List.filterMap_append ..

@[simp] theorem memOps_uart (op : UartOp) (log : List KernelOp) :
    memOps (.uart op :: log) = memOps log := List.filterMap_cons_none rfl

/-- The effect writes no memory. -/
def NoWrite (op : KernelOp) : Prop := KernelOp.mem? op = none

theorem memOps_eq_nil {α : Type} {x : Executing α} (h : x.Only NoWrite) : memOps x.log = [] :=
  List.filterMap_eq_nil_iff.mpr h

/-- Printing writes no memory. -/
@[simp] theorem printStr_bind_noWrite {α : Type} (message : String) (f : Unit → Executing α) :
    (printStr message >>= f).Only NoWrite ↔ (f ()).Only NoWrite := by
  rw [printStr, Traced.only_emit_bind]
  exact and_iff_right rfl

@[simp] theorem printHexU64_bind_noWrite {α : Type} (value : UInt64) (f : Unit → Executing α) :
    (printHexU64 value >>= f).Only NoWrite ↔ (f ()).Only NoWrite := by
  rw [printHexU64, Traced.only_emit_bind]
  exact and_iff_right rfl

theorem parse_noWrite (machoParse : List UInt8 → Option Macho.MachO) (bytes : List UInt8) :
    (parse machoParse bytes).Only NoWrite := by
  unfold parse
  split
  · exact Traced.only_pure _
  · split
    split
    · rw [printStr_bind_noWrite]
      exact Traced.only_pure _
    · refine Traced.only_bind (Traced.only_lift _) ?_
      intro entry
      cases entry with
      | none =>
          show (printStr _ >>= fun _ => pure none).Only NoWrite
          rw [printStr_bind_noWrite]
          exact Traced.only_pure _
      | some entryVa => exact Traced.only_pure _

theorem cacheLoop_noWrite (op : UInt64 → KernelOp) (hop : ∀ addr, NoWrite (op addr))
    (addr stop : UInt64) : (cacheLoop op addr stop).Only NoWrite := by
  fun_induction cacheLoop op addr stop with
  | case1 addr hlt ih =>
      refine Traced.only_bind (Traced.only_emit (hop addr)) ?_
      intro _
      split
      · rename_i next hnext
        exact ih next hnext
      · exact Traced.only_lift _
  | case2 addr hlt => exact Traced.only_pure _

theorem flush_noWrite (base len : UInt64) :
    (flushDcacheInvalidateIcache base len).Only NoWrite := by
  refine Traced.only_bind (Traced.only_lift _) fun stop => ?_
  refine Traced.only_bind (cacheLoop_noWrite .dcCvau (fun _ => rfl) _ _) fun _ => ?_
  refine Traced.only_bind (Traced.only_emit rfl) fun _ => ?_
  refine Traced.only_bind (cacheLoop_noWrite .icIvau (fun _ => rfl) _ _) fun _ => ?_
  exact Traced.only_bind (Traced.only_emit rfl) fun _ => Traced.only_emit rfl

/-- Behind the copies nothing is written. -/
theorem enterImage_noWrite (image : UserImage) (loadBase : UInt64) :
    (enterImage image loadBase).Only NoWrite := by
  refine Traced.only_bind (flush_noWrite _ _) fun _ => ?_
  refine Traced.only_bind (Traced.only_lift _) fun _ => ?_
  refine Traced.only_bind (Traced.only_lift _) fun _ => ?_
  refine Traced.only_bind (Traced.only_lift _) fun _ => ?_
  simp only [printStr_bind_noWrite, printHexU64_bind_noWrite, Traced.only_emit_bind]
  exact ⟨rfl, rfl, Traced.only_pure _⟩

/-- What the copy loop and the fill before it write. -/
def imageOps (image : UserImage) (loadBase : UInt64) : List MemOp :=
  .fill loadBase.toNat image.span.toNat 0 ::
    image.segments.map fun seg => .copy (dstOf image loadBase seg) (copied seg)

theorem UserImage.Based.loadImage_ok (hbased : image.Based)
    (hroom : loadBase.toNat + image.span.toNat < 2 ^ 64) :
    (loadImage image loadBase).result = .ok () ∧
      memOps (loadImage image loadBase).log = imageOps image loadBase := by
  have hround := fun seg (hseg : seg ∈ image.segments) => hbased.copySegment_eq hroom hseg
  have hok : ∀ seg ∈ image.segments,
      (copySegment image.linkBase loadBase seg).result = .ok () := by
    intro seg hseg
    rw [hround seg hseg]
  -- every round copies one segment and does nothing else
  have hlog : (Traced.forEach (copySegment image.linkBase loadBase) image.segments).log =
      image.segments.map fun seg => .mem (.copy (dstOf image loadBase seg) (copied seg)) := by
    rw [Traced.forEach_log hok, List.map_eq_flatMap, List.flatMap_def, List.flatMap_def]
    congr 1
    apply List.map_congr_left
    intro seg hseg
    rw [hround seg hseg]
  refine ⟨?_, ?_⟩
  · simp only [loadImage, Traced.bind_result, printStr, printHexU64, Traced.emit_result,
      Outcome.ok_bind]
    exact Traced.forEach_ok.mpr hok
  · simp only [loadImage, printStr, printHexU64, Traced.emit_bind_log, hlog]
    simp only [memOps, List.filterMap_cons, KernelOp.mem?, imageOps, List.filterMap_map]
    exact congrArg _ (congrFun List.filterMap_eq_map _)

/-- **What `load_and_run` writes.**  However the run goes on behind the copies, it has
    filled the span with zero and copied every kept segment. -/
theorem memOps_loadAndRun (h : (parse machoParse bytes).result = .ok (some image))
    (hroom : loadBase.toNat + image.span.toNat < 2 ^ 64) :
    memOps (loadAndRun machoParse bytes loadBase).log = imageOps image loadBase := by
  obtain ⟨hok, hops⟩ := (based_of_parse h).loadImage_ok hroom
  rw [loadAndRun, Traced.bind_log_ok _ h, memOps_append, memOps_eq_nil (parse_noWrite _ _),
    List.nil_append]
  show memOps (loadImage image loadBase >>= fun _ => enterImage image loadBase).log = _
  rw [Traced.bind_log_ok _ hok, memOps_append, hops, memOps_eq_nil (enterImage_noWrite _ _),
    List.append_nil]

/-! ## The region -/

/-- A copy wrote the byte at `a`. -/
def Copied (log : List KernelOp) (a : Nat) : Prop :=
  ∃ start data, .mem (.copy start data) ∈ log ∧ start ≤ a ∧ a < start + data.length

/-- The bytes the copies write. -/
theorem copied_iff (h : (parse machoParse bytes).result = .ok (some image))
    (hroom : loadBase.toNat + image.span.toNat < 2 ^ 64) {a : Nat} :
    Copied (loadAndRun machoParse bytes loadBase).log a ↔ ∃ seg ∈ image.segments,
      dstOf image loadBase seg ≤ a ∧
        a < dstOf image loadBase seg + min seg.data.length seg.vmsize.toNat := by
  have hlen : ∀ seg : Segment, (copied seg).length = min seg.data.length seg.vmsize.toNat := by
    intro seg
    rw [copied, List.length_take]
    omega
  simp only [Copied, ← mem_memOps, memOps_loadAndRun h hroom, imageOps, List.mem_cons,
    reduceCtorEq, false_or, List.mem_map, MemOp.copy.injEq]
  constructor
  · rintro ⟨start, data, ⟨seg, hseg, hstart, hdata⟩, hle, hlt⟩
    subst hstart hdata
    rw [hlen] at hlt
    exact ⟨seg, hseg, hle, hlt⟩
  · rintro ⟨seg, hseg, hle, hlt⟩
    exact ⟨_, _, ⟨seg, hseg, rfl, rfl⟩, hle, by rwa [hlen]⟩

end XnuRs.Kernel.Exec
