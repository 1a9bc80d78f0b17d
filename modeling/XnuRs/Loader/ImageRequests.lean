/-
  XnuRs.Loader.ImageRequests

  The pages the loader asks the firmware for.

  The merged ranges are separated and cover the pages of the segments, so they
  are determined by these pages alone (`merged_eq`): neither the order of the
  segments nor the sort matters, no page is asked for twice and none is missed
  (`requests_exact`).
-/

import XnuRs.Loader.ImageResults

namespace XnuRs.Loader

open XnuRs.Macho

variable {sort sort' : SortByStart} {firmware : Firmware} {macho macho' : MachO}
  {ranges ranges' merged : List LoadRange}

/-! ## Requests -/

/-- A call of `allocate_pages`: an address and a number of pages. -/
abbrev Request := UInt64 × Nat

/-- The allocation an effect is, if it is one. -/
def LoadOp.allocation? : LoadOp → Option Request
  | .allocated start pages => some (start, pages)
  | _ => none

/-- The requests that were granted. -/
def allocations (log : List LoadOp) : List Request := log.filterMap LoadOp.allocation?

/-- The firmware grants the request. -/
def Firmware.grants (firmware : Firmware) (request : Request) : Bool :=
  (firmware.allocateAt request.1 request.2).isOk

/-- How a row of requests ends: with the status of the first refusal, if there is one. -/
def Firmware.answers (firmware : Firmware) : List Request → Outcome Status Unit
  | [] => .ok ()
  | request :: rest =>
    match firmware.allocateAt request.1 request.2 with
    | .error status => .err (.firmware status)
    | .ok () => firmware.answers rest

/-- The run asks for the requests in turn, up to the first refusal, which ends it. -/
structure AsksFor (firmware : Firmware) (requests : List Request) (run : Loading Unit) : Prop where
  granted : allocations run.log = requests.takeWhile firmware.grants
  result : run.result = firmware.answers requests
  complete : run.result = .ok () → allocations run.log = requests

/-- The pages asked for, against the merged ranges and the segments: every request is a range,
    in whole pages and at a page boundary; the requests increase, with a page or more between
    them; together they are the pages of the segments. -/
structure ExactRequests (segments : List Segment) (merged : List LoadRange)
    (requests : List Request) : Prop where
  whole : List.Forall₂ (fun range request => request.1 = range.start ∧
    request.1.toNat % 4096 = 0 ∧ 1 ≤ request.2 ∧
    request.1.toNat + 4096 * request.2 = range.stop.toNat) merged requests
  apart : requests.Pairwise fun a b => a.1.toNat + 4096 * a.2 + 4096 ≤ b.1.toNat
  union : ∀ a, (∃ request ∈ requests,
    request.1.toNat ≤ a ∧ a < request.1.toNat + 4096 * request.2) ↔ InPages segments a

/-! ## The loop -/

/-- The request for a range. -/
def requestOf (range : LoadRange) : Request :=
  (range.start, (range.stop.toNat - range.start.toNat) / 4096)

theorem takeWhile_of_answers {requests : List Request} (h : firmware.answers requests = .ok ()) :
    requests.takeWhile firmware.grants = requests := by
  induction requests with
  | nil => rfl
  | cons request rest ih =>
      rw [Firmware.answers] at h
      cases hanswer : firmware.allocateAt request.1 request.2 with
      | error status =>
          rw [hanswer] at h
          cases h
      | ok granted =>
          rw [hanswer] at h
          have hgrants : firmware.grants request = true := by
            rw [Firmware.grants, hanswer]
            rfl
          rw [List.takeWhile_cons_of_pos hgrants, ih h]

theorem allocateLoop_asks (firmware : Firmware) (hwhole : ∀ range ∈ merged, WholePages range) :
    allocations (Traced.forEach (allocateRange firmware) merged).log =
        (merged.map requestOf).takeWhile firmware.grants ∧
      (Traced.forEach (allocateRange firmware) merged).result =
        firmware.answers (merged.map requestOf) := by
  induction merged with
  | nil => exact ⟨rfl, rfl⟩
  | cons range rest ih =>
      obtain ⟨hrange, hrest⟩ := List.forall_mem_cons.mp hwhole
      obtain ⟨hlog, hresult⟩ := ih hrest
      rw [Traced.forEach_cons, allocateRange_eq firmware hrange, List.map_cons, Firmware.answers]
      -- the first refusal ends the loop, and with it the list of requests
      cases hanswer : firmware.allocateAt (requestOf range).1 (requestOf range).2 with
      | error status =>
          have hrefused : ¬ firmware.grants (requestOf range) = true := by
            rw [Firmware.grants, hanswer]
            exact nofun
          rw [List.takeWhile_cons_of_neg hrefused]
          simp only [requestOf] at hanswer
          rw [hanswer]
          exact ⟨rfl, rfl⟩
      | ok granted =>
          have hgrants : firmware.grants (requestOf range) = true := by
            rw [Firmware.grants, hanswer]
            rfl
          rw [List.takeWhile_cons_of_pos hgrants, ← hlog, ← hresult]
          simp only [requestOf] at hanswer
          rw [hanswer]
          exact ⟨rfl, rfl⟩

/-! ## The merged ranges -/

theorem toNat_strictMono : StrictMono UInt64.toNat := fun _ _ h => UInt64.lt_iff_toNat_lt.mp h

theorem PageRange.nonempty {segment : Segment} {range : LoadRange} (h : PageRange segment range)
    (hsize : segment.vmsize ≠ 0) : range.Nonempty := by
  have hdown := roundDown_le segment.vmaddr.toNat 4096
  have hup := le_roundUp (n := stopOf segment) (a := 4096) (by decide)
  have hpos : segment.vmsize.toNat ≠ 0 := fun h0 => hsize (UInt64.toNat_inj.mp h0)
  rw [stopOf] at hup
  rw [Span.Nonempty, UInt64.lt_iff_toNat_lt, h.start, h.stop, stopOf]
  omega

theorem pageRanges_nonempty {segments : List Segment}
    (h : List.Forall₂ PageRange segments ranges)
    (hsize : ∀ segment ∈ segments, segment.vmsize ≠ 0) :
    ∀ range ∈ ranges, range.Nonempty := by
  induction h with
  | nil => simp
  | cons hrange _ ih =>
      obtain ⟨hfirst, hrest⟩ := List.forall_mem_cons.mp hsize
      exact List.forall_mem_cons.mpr ⟨hrange.nonempty hfirst, ih hrest⟩

/-- No merged range is empty. -/
theorem merged_nonempty (sort : SortByStart) (h : loadRanges macho = .ok ranges) :
    ∀ range ∈ Span.merge (sort.run ranges), range.Nonempty := by
  have hsize : ∀ segment ∈ sized macho.segments, segment.vmsize ≠ 0 := fun segment hmem =>
    (mem_sized.mp hmem).2
  have hranges := pageRanges_nonempty (loadRanges_eq_ok.mp h) hsize
  refine Span.mem_merge (fun s t hs _ => lt_max_of_lt_left hs) ?_
  intro range hrange
  exact hranges range ((sort.perm ranges).mem_iff.mp hrange)

theorem inPages_perm {segments segments' : List Segment} (h : segments'.Perm segments) {a : Nat} :
    InPages segments' a ↔ InPages segments a := by
  simp only [InPages, h.mem_iff]

/-- **The merged ranges depend on the set of the segments alone**, and not on their order or on
    the sort. -/
theorem merged_eq (h : loadRanges macho = .ok ranges) (h' : loadRanges macho' = .ok ranges')
    (hperm : macho'.segments.Perm macho.segments) :
    Span.merge (sort'.run ranges') = Span.merge (sort.run ranges) := by
  refine Span.Separated.eq_of_covered toNat_strictMono (Span.separated_merge (sort'.sorted _))
    (Span.separated_merge (sort.sorted _)) (merged_nonempty sort' h') (merged_nonempty sort h) ?_
  intro a
  rw [(merged_loadRanges sort' h').1, (merged_loadRanges sort h).1, inPages_perm hperm]

/-- Ranges exist for a list of segments when they do for another order of it. -/
theorem loadRanges_perm (h : loadRanges macho = .ok ranges)
    (hperm : macho'.segments.Perm macho.segments) : ∃ ranges', loadRanges macho' = .ok ranges' := by
  refine exists_loadRanges.mpr fun segment hmem => ?_
  obtain ⟨hmem, hsize⟩ := mem_sized.mp hmem
  exact exists_loadRanges.mp ⟨ranges, h⟩ segment (mem_sized.mpr ⟨hperm.mem_iff.mp hmem, hsize⟩)

/-! ## The requests -/

/-- The request for a nonempty range of whole pages. -/
theorem WholePages.request {range : LoadRange} (h : WholePages range) (hne : range.Nonempty) :
    (requestOf range).1 = range.start ∧ (requestOf range).1.toNat % 4096 = 0 ∧
      1 ≤ (requestOf range).2 ∧
      (requestOf range).1.toNat + 4096 * (requestOf range).2 = range.stop.toNat := by
  have hstart := h.start
  have hstop := h.stop
  have hlt := UInt64.lt_iff_toNat_lt.mp hne
  refine ⟨rfl, hstart, ?_, ?_⟩
  · show 1 ≤ (range.stop.toNat - range.start.toNat) / 4096
    omega
  · show range.start.toNat + 4096 * ((range.stop.toNat - range.start.toNat) / 4096) = _
    omega

theorem exactRequests (sort : SortByStart) (h : loadRanges macho = .ok ranges) :
    ExactRequests macho.segments (Span.merge (sort.run ranges))
      ((Span.merge (sort.run ranges)).map requestOf) := by
  obtain ⟨hcovered, hwhole⟩ := merged_loadRanges sort h
  have hne := merged_nonempty sort h
  have hseparated := Span.separated_merge (sort.sorted ranges)
  generalize Span.merge (sort.run ranges) = merged at hcovered hwhole hne hseparated
  have hrequest := fun range (hmem : range ∈ merged) => (hwhole range hmem).request (hne range hmem)
  refine ⟨?_, ?_, ?_⟩
  · rw [List.forall₂_map_right_iff, List.forall₂_same]
    exact hrequest
  · rw [List.pairwise_map]
    refine hseparated.imp_of_mem ?_
    intro s t hs ht hgap
    -- both ends of the gap are page boundaries
    obtain ⟨-, -, -, hsum⟩ := hrequest s hs
    obtain ⟨hstart, hmod, -, -⟩ := hrequest t ht
    have hgap := UInt64.lt_iff_toNat_lt.mp hgap
    have hstop := (hwhole s hs).stop
    rw [hstart] at hmod ⊢
    omega
  · intro a
    rw [← hcovered]
    constructor
    · rintro ⟨request, hmem, hle, hlt⟩
      obtain ⟨range, hrange, rfl⟩ := List.mem_map.mp hmem
      obtain ⟨-, -, -, hsum⟩ := hrequest range hrange
      exact ⟨range, hrange, hle, by rwa [← hsum]⟩
    · rintro ⟨range, hrange, hle, hlt⟩
      obtain ⟨-, -, -, hsum⟩ := hrequest range hrange
      exact ⟨requestOf range, List.mem_map_of_mem hrange, hle, by rwa [hsum]⟩

theorem allocateLoadRanges_asks (sort : SortByStart) (firmware : Firmware)
    (h : loadRanges macho = .ok ranges) :
    AsksFor firmware ((Span.merge (sort.run ranges)).map requestOf)
      (allocateLoadRanges sort firmware macho) := by
  have hrun : allocateLoadRanges sort firmware macho =
      Traced.forEach (allocateRange firmware) (Span.merge (sort.run ranges)) := by
    rw [allocateLoadRanges, h, Traced.lift_ok_bind]
  obtain ⟨hgranted, hresult⟩ := allocateLoop_asks firmware (merged_loadRanges sort h).2
  rw [hrun]
  refine ⟨hgranted, hresult, fun hok => ?_⟩
  rw [hresult] at hok
  rw [hgranted, takeWhile_of_answers hok]

theorem loadRangesLoop_failsOnlyWith (segments : List Segment) (ranges : List LoadRange) :
    Outcome.FailsOnlyWith .loadError (loadRangesLoop segments ranges) := by
  induction segments generalizing ranges with
  | nil => exact .ok ranges
  | cons segment rest ih =>
      rw [loadRangesLoop]
      refine .ite (fun _ => ih ranges) fun _ => ?_
      refine .bind (.okOr _) fun stop _ => ?_
      exact .bind (.bind (.okOr _) fun _ _ => .ok _) fun _ _ => ih _

/-- `load_ranges` has one way to fail. -/
theorem loadRanges_failsOnlyWith (macho : MachO) :
    Outcome.FailsOnlyWith .loadError (loadRanges macho) :=
  loadRangesLoop_failsOnlyWith macho.segments []

/-- **The loader asks for the pages of the segments, each once.**  When the ranges exist, the
    requests are one list for every order of the segments, every sort and every firmware, cut
    off at the first refusal.  When they do not, nothing is asked for. -/
theorem requests_exact :
    (∀ {macho : MachO} {ranges : List LoadRange}, loadRanges macho = .ok ranges →
      ∃ merged requests, ExactRequests macho.segments merged requests ∧
        ∀ (macho' : MachO) (sort : SortByStart), macho'.segments.Perm macho.segments →
          ∃ ranges', loadRanges macho' = .ok ranges' ∧ Span.merge (sort.run ranges') = merged ∧
            ∀ firmware, AsksFor firmware requests (allocateLoadRanges sort firmware macho')) ∧
    ∀ {macho : MachO} (sort : SortByStart) (firmware : Firmware),
      (∀ ranges, loadRanges macho ≠ .ok ranges) →
        allocateLoadRanges sort firmware macho = ⟨[], .err .loadError⟩ := by
  refine ⟨?_, ?_⟩
  · intro macho ranges h
    refine ⟨_, _, exactRequests insertionSortByStart h, ?_⟩
    intro macho' sort hperm
    obtain ⟨ranges', h'⟩ := loadRanges_perm h hperm
    -- the merged ranges do not depend on the order of the segments, nor on the sort
    have hmerged : Span.merge (sort.run ranges') = Span.merge (insertionSortByStart.run ranges) :=
      merged_eq h h' hperm
    refine ⟨ranges', h', hmerged, fun firmware => ?_⟩
    rw [← hmerged]
    exact allocateLoadRanges_asks sort firmware h'
  · intro macho sort firmware hnone
    have herror : loadRanges macho = .err .loadError := by
      rcases (loadRanges_failsOnlyWith macho).cases with ⟨ranges, hok⟩ | herror
      · exact absurd hok (hnone ranges)
      · exact herror
    rw [allocateLoadRanges, herror]
    rfl

/-- `sharedPage` with its segments the other way round asks for the same page. -/
theorem requests_exact_sharedPage :
    allocations (allocateLoadRanges insertionSortByStart grantingFirmware
      { sharedPage with segments := sharedPage.segments.reverse }).log =
    allocations (allocateLoadRanges insertionSortByStart grantingFirmware sharedPage).log := by
  have hranges : loadRanges sharedPage =
      .ok [⟨0x40000000, 0x40001000⟩, ⟨0x40000000, 0x40001000⟩] := by decide
  obtain ⟨merged, requests, -, hasks⟩ := requests_exact.1 hranges
  obtain ⟨-, -, -, hreverse⟩ := hasks { sharedPage with segments := sharedPage.segments.reverse }
    insertionSortByStart (List.reverse_perm _)
  obtain ⟨-, -, -, hforward⟩ := hasks sharedPage insertionSortByStart (.refl _)
  rw [(hreverse grantingFirmware).complete (by decide), (hforward _).complete sharedPage_allocated]

end XnuRs.Loader
