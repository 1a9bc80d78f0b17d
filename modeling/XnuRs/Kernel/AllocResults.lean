/-
  XnuRs.Kernel.AllocResults

  The kernel's heap never hands out the same byte twice, and hands out a pointer
  with the alignment asked for exactly when `HEAP` itself has it.

  `bump_eq_some` is all the arithmetic: from a counter inside the heap the block
  starts at the first multiple of the alignment, and the new counter is its end.
  `Sound` then relates the counter to the blocks handed out so far, and holds
  over every interleaving because only a `compare_exchange` that finds the
  loaded value changes either.

  The offset of a block is a multiple of its alignment.  The pointer adds the
  address of `HEAP`, of which only a multiple of 16 is known
  (`pointers_aligned_iff`).
-/

import XnuRs.Kernel.Alloc

namespace XnuRs.Kernel.Alloc

/-! ## One round -/

theorem Layout.align_le (layout : Layout) : layout.align.toNat ≤ isizeMax := by
  have hpos : 0 < layout.align.toNat := by
    obtain ⟨k, _, hk⟩ := layout.isPowerOfTwo
    rw [hk]
    exact Nat.two_pow_pos k
  have hsize := layout.size_pos
  have hfits := layout.size_fits
  -- a positive size rounds up to one alignment at least
  have hround : layout.align.toNat ≤ roundUp layout.size.toNat layout.align.toNat := by
    rw [roundUp]
    exact Nat.le_mul_of_pos_left _ (Nat.div_pos (by omega) hpos)
  exact hround.trans hfits

theorem bump_eq_checkedAdd {layout : Layout} {old aligned new : UInt64} :
    bump layout old = some (aligned, new) ↔
      aligned = maskDown (old + (layout.align - 1)) layout.align ∧
        checkedAdd (maskDown (old + (layout.align - 1)) layout.align) layout.size = some new ∧
        new ≤ heapSize := by
  cases hsum : checkedAdd (maskDown (old + (layout.align - 1)) layout.align) layout.size with
  | none => simp [bump, hsum]
  | some n =>
      simp only [bump, hsum, Option.ite_none_right_eq_some, Option.some.injEq, Prod.mk.injEq]
      constructor
      · rintro ⟨hle, rfl, rfl⟩
        exact ⟨rfl, rfl, hle⟩
      · rintro ⟨rfl, rfl, hle⟩
        exact ⟨hle, rfl, rfl⟩

/-- What a round computes from a counter inside the heap. -/
theorem bump_eq_some {layout : Layout} {old aligned new : UInt64} (hold : old ≤ heapSize) :
    bump layout old = some (aligned, new) ↔
      aligned.toNat = roundUp old.toNat layout.align.toNat ∧
        new.toNat = aligned.toNat + layout.size.toNat ∧ new ≤ heapSize := by
  obtain ⟨k, hk, hpow⟩ := layout.isPowerOfTwo
  have halign := layout.align_le
  have hpos : 0 < layout.align.toNat := by
    rw [hpow]
    exact Nat.two_pow_pos k
  have hone : (1 : UInt64) ≤ layout.align := by
    rw [UInt64.le_iff_toNat_le]
    exact hpos
  have hheap : old.toNat ≤ 4 * 1024 * 1024 := UInt64.le_iff_toNat_le.mp hold
  have hsub : (layout.align - 1).toNat = layout.align.toNat - 1 := UInt64.toNat_sub_of_le _ _ hone
  -- the wrapping addition does not wrap
  have hadd : (old + (layout.align - 1)).toNat = old.toNat + (layout.align.toNat - 1) := by
    rw [isizeMax] at halign
    rw [toNat_add_of_lt (by omega), hsub]
  have hmask : (maskDown (old + (layout.align - 1)) layout.align).toNat =
      roundUp old.toNat layout.align.toNat := by
    rw [maskDown_toNat hk hpow, hadd, roundDown, roundUp, hpow]
  rw [bump_eq_checkedAdd, checkedAdd_eq_some, ← UInt64.toNat_inj, hmask]
  constructor
  · rintro ⟨haligned, hnew, hle⟩
    exact ⟨haligned, by rw [haligned, hnew], hle⟩
  · rintro ⟨haligned, hnew, hle⟩
    exact ⟨haligned, by rw [hnew, haligned], hle⟩

/-! ## The invariant -/

/-- The end of a block, as an exact offset. -/
def Block.stop (b : Block) : Nat := b.offset.toNat + b.layout.size.toNat

/-- Two blocks share no byte. -/
def Block.Disjoint (a b : Block) : Prop := a.stop ≤ b.offset.toNat ∨ b.stop ≤ a.offset.toNat

/-- A block that lies in the heap at a multiple of its alignment. -/
def Block.Placed (b : Block) : Prop :=
  b.offset.toNat % b.layout.align.toNat = 0 ∧ b.stop ≤ heapSize.toNat

variable {τ : Type} [DecidableEq τ]

/-- The counter is inside the heap and above every block handed out, and what a caller
    has computed is what the value it loaded gives. -/
structure Sound (actions : List (Action τ)) (s : State τ) : Prop where
  next_le : s.heapNext ≤ heapSize
  below : ∀ b ∈ returned actions, b.Placed ∧ b.stop ≤ s.heapNext.toNat
  disjoint : (returned actions).Pairwise Block.Disjoint
  computed : ∀ {t layout old aligned new}, s.callers t = .computed layout old aligned new →
    bump layout old = some (aligned, new)

omit [DecidableEq τ] in
theorem returned_snoc (actions : List (Action τ)) (a : Action τ) :
    returned (actions ++ [a]) = returned actions ++ a.block?.toList := by
  rw [returned, List.filterMap_append, returned]
  cases hb : a.block? with
  | none => simp [hb]
  | some b => simp [hb]

@[simp] theorem State.move_callers_self (s : State τ) (t : τ) (c : Caller) :
    (s.move t c).callers t = c := Function.update_self ..

theorem State.move_callers_of_ne {s : State τ} {t t' : τ} {c : Caller} (h : t' ≠ t) :
    (s.move t c).callers t' = s.callers t' := Function.update_of_ne h ..

omit [DecidableEq τ] in
theorem sound_initial : Sound (τ := τ) [] initial where
  next_le := UInt64.zero_le
  below := by simp [returned]
  disjoint := .nil
  computed h := by cases h

/-- Moving a caller somewhere that is not behind the computation keeps what the others
    have computed. -/
theorem Sound.computed_move {actions : List (Action τ)} {s : State τ} (h : Sound actions s)
    {t : τ} {c : Caller}
    (hc : ∀ {layout old aligned new}, c = .computed layout old aligned new →
      bump layout old = some (aligned, new))
    {t' : τ} {layout : Layout} {old aligned new : UInt64}
    (ht' : (s.move t c).callers t' = .computed layout old aligned new) :
    bump layout old = some (aligned, new) := by
  by_cases heq : t' = t
  · subst heq
    rw [State.move_callers_self] at ht'
    exact hc ht'
  · rw [State.move_callers_of_ne heq] at ht'
    exact h.computed ht'

/-- A step that hands out nothing and leaves the counter alone. -/
theorem Sound.move {actions : List (Action τ)} {s : State τ} (h : Sound actions s) {a : Action τ}
    (ha : a.block? = none) {t : τ} {c : Caller}
    (hc : ∀ {layout old aligned new}, c = .computed layout old aligned new →
      bump layout old = some (aligned, new)) : Sound (actions ++ [a]) (s.move t c) where
  next_le := h.next_le
  below := by
    rw [returned_snoc, ha, Option.toList_none, List.append_nil]
    exact h.below
  disjoint := by
    rw [returned_snoc, ha, Option.toList_none, List.append_nil]
    exact h.disjoint
  computed := h.computed_move hc

/-- Handing out a block: it starts at or behind the counter, which moves to its end. -/
theorem Sound.allocated {actions : List (Action τ)} {s : State τ} (h : Sound actions s) {t : τ}
    {layout : Layout} {old aligned new : UInt64}
    (ht : s.callers t = .computed layout old aligned new) (heq : s.heapNext = old) :
    Sound (actions ++ [.allocated t ⟨aligned, layout⟩]) { s.move t .idle with heapNext := new } ∧
      s.heapNext ≤ new := by
  obtain ⟨haligned, hnew, hle⟩ := (bump_eq_some (heq ▸ h.next_le)).mp (h.computed ht)
  have hpos : 0 < layout.align.toNat := by
    obtain ⟨k, _, hk⟩ := layout.isPowerOfTwo
    rw [hk]
    exact Nat.two_pow_pos k
  have hup := le_roundUp (n := old.toNat) hpos
  have hmod := roundUp_mod old.toNat layout.align.toNat
  have hgrow : s.heapNext.toNat ≤ new.toNat := by
    rw [heq]
    omega
  have hplaced : Block.Placed ⟨aligned, layout⟩ ∧ Block.stop ⟨aligned, layout⟩ ≤ new.toNat := by
    refine ⟨⟨?_, ?_⟩, Nat.le_of_eq hnew.symm⟩
    · show aligned.toNat % layout.align.toNat = 0
      rw [haligned, hmod]
    · show aligned.toNat + layout.size.toNat ≤ _
      rw [← hnew]
      exact UInt64.le_iff_toNat_le.mp hle
  refine ⟨⟨hle, ?_, ?_, h.computed_move (c := .idle) fun hc => (nomatch hc)⟩,
    UInt64.le_iff_toNat_le.mpr hgrow⟩
  · rw [returned_snoc]
    intro b hb
    rcases List.mem_append.mp hb with hb | hb
    · exact ⟨(h.below b hb).1, (h.below b hb).2.trans hgrow⟩
    · obtain rfl := List.mem_singleton.mp hb
      exact hplaced
  · rw [returned_snoc]
    refine List.pairwise_append.mpr ⟨h.disjoint, List.pairwise_singleton _ _, ?_⟩
    intro a ha b hb
    obtain rfl := List.mem_singleton.mp hb
    -- an older block ends below the counter, the new one starts behind it
    have hstop := (h.below a ha).2
    rw [heq] at hstop
    left
    show a.stop ≤ aligned.toNat
    omega

/-- Every step keeps the invariant and moves the counter up only. -/
theorem Sound.step {actions : List (Action τ)} {s s' : State τ} {a : Action τ}
    (h : Sound actions s) (hstep : Step s a s') :
    Sound (actions ++ [a]) s' ∧ s.heapNext ≤ s'.heapNext := by
  cases hstep with
  | call _ => exact ⟨h.move rfl fun hc => (nomatch hc), le_rfl⟩
  | load _ => exact ⟨h.move rfl fun hc => (nomatch hc), le_rfl⟩
  | compute _ hbump =>
      refine ⟨h.move rfl fun hc => ?_, le_rfl⟩
      obtain ⟨rfl, rfl, rfl, rfl⟩ := Caller.computed.inj hc
      exact hbump
  | null _ _ => exact ⟨h.move rfl fun hc => (nomatch hc), le_rfl⟩
  | allocated ht heq => exact h.allocated ht heq
  | retry _ _ => exact ⟨h.move rfl fun hc => (nomatch hc), le_rfl⟩
  | @dealloc t offset layout _ =>
      refine ⟨⟨h.next_le, ?_, ?_, h.computed⟩, le_rfl⟩
      · rw [returned_snoc]
        simpa [Action.block?] using h.below
      · rw [returned_snoc]
        simpa [Action.block?] using h.disjoint

theorem sound_of_runs {actions : List (Action τ)} {s : State τ}
    (h : Runs Step initial actions s) : Sound actions s :=
  h.history sound_initial fun hsound hstep => (hsound.step hstep).1

/-! ## Calls that return null -/

/-- Only a step that hands out a block changes the counter. -/
theorem Step.heapNext_eq {s s' : State τ} {a : Action τ} (h : Step s a s')
    (ha : a.block? = none) : s'.heapNext = s.heapNext := by
  cases h with
  | allocated _ _ => cases ha
  | _ => rfl

/-- A step of another caller leaves a caller where it is. -/
theorem Step.callers_of_ne {s s' : State τ} {a : Action τ} {t : τ} (h : Step s a s')
    (ht : a.caller ≠ t) : s'.callers t = s.callers t := by
  cases h with
  | dealloc _ => rfl
  | _ => exact Function.update_of_ne (Ne.symm ht) _ _

/-- A step of a caller that leaves it inside `alloc`, and is not the call, found it there
    and handed out nothing. -/
theorem Step.inside {s s' : State τ} {a : Action τ} (h : Step s a s')
    (hcall : ∀ layout, a ≠ .call a.caller layout) (hin : s'.callers a.caller ≠ .idle) :
    s.callers a.caller ≠ .idle ∧ a.block? = none := by
  cases h with
  | call _ => exact absurd rfl (hcall _)
  | load h => exact ⟨by rw [Action.caller, h]; exact nofun, rfl⟩
  | compute h _ => exact ⟨by rw [Action.caller, h]; exact nofun, rfl⟩
  | null _ _ => exact absurd (Function.update_self ..) hin
  | allocated _ _ => exact absurd (Function.update_self ..) hin
  | retry h _ => exact ⟨by rw [Action.caller, h]; exact nofun, rfl⟩
  | dealloc h => exact absurd h hin

/-- A caller that is inside `alloc` has been handed nothing since it entered. -/
theorem inside_returned_none {actions : List (Action τ)} {s : State τ}
    (h : Runs Step initial actions s) {t : τ} (hin : s.callers t ≠ .idle)
    {pre mid : List (Action τ)} {layout : Layout} (hsplit : actions = pre ++ .call t layout :: mid)
    (hmid : ∀ layout', .call t layout' ∉ mid) : ∀ a ∈ mid, a.caller = t → a.block? = none := by
  induction h generalizing mid with
  | start => simp at hsplit
  | @snoc ls s' s'' l hrun hlast ih =>
      rcases List.eq_nil_or_concat mid with rfl | ⟨mid, l', rfl⟩
      · simp
      · rw [List.concat_eq_append, ← List.cons_append, ← List.append_assoc] at hsplit
        obtain ⟨hls, hl⟩ := List.append_inj' hsplit rfl
        obtain rfl := List.singleton_inj.mp hl
        simp only [List.concat_eq_append, List.mem_append, List.mem_singleton, not_or] at hmid
        intro a ha hat
        -- the last step is another caller's, or one that found this caller inside
        have hinside : s'.callers t ≠ .idle ∧ (l.caller = t → l.block? = none) := by
          by_cases hlt : l.caller = t
          · subst hlt
            have hstep := hlast.inside (fun layout' h => (hmid layout').2 h.symm) hin
            exact ⟨hstep.1, fun _ => hstep.2⟩
          · exact ⟨hlast.callers_of_ne hlt ▸ hin, fun h => absurd h hlt⟩
        rcases List.mem_append.mp (List.concat_eq_append ▸ ha) with ha | ha
        · exact ih hinside.1 hls (fun layout' => (hmid layout').1) a ha hat
        · obtain rfl := List.mem_singleton.mp ha
          exact hinside.2 hat

/-- A call that returns null has handed out nothing, from its first step to the last. -/
theorem null_returned_none {pre mid : List (Action τ)} {t : τ} {layout : Layout} {s : State τ}
    (h : Runs Step initial (pre ++ .call t layout :: (mid ++ [.null t])) s)
    (hmid : ∀ layout', .call t layout' ∉ mid) {a : Action τ}
    (ha : a ∈ .call t layout :: (mid ++ [.null t])) (hat : a.caller = t) : a.block? = none := by
  rw [← List.cons_append, ← List.append_assoc] at h
  obtain ⟨s', hrun, hlast⟩ := h.of_snoc
  have hin : s'.callers t ≠ .idle := by
    cases hlast with
    | null hloaded _ =>
        rw [hloaded]
        exact nofun
  rcases List.mem_cons.mp ha with rfl | ha
  · rfl
  rcases List.mem_append.mp ha with ha | ha
  · exact inside_returned_none hrun hin rfl hmid a ha hat
  · obtain rfl := List.mem_singleton.mp ha
    rfl

/-! ## The heap -/

/-- **The heap never hands out a byte twice.**  After any steps of any callers the
    counter is inside the heap and has not gone down, the blocks handed out lie in the
    heap at multiples of their alignments and are disjoint, and the steps of a call that
    returned null all left the counter alone. -/
theorem blocks_disjoint {actions : List (Action τ)} {s : State τ}
    (h : Runs Step initial actions s) :
    s.heapNext ≤ heapSize ∧
      (∀ {more s'}, Runs Step s more s' → s.heapNext ≤ s'.heapNext) ∧
      (∀ b ∈ returned actions, b.offset.toNat % b.layout.align.toNat = 0 ∧
        b.offset.toNat + b.layout.size.toNat ≤ heapSize.toNat) ∧
      (returned actions).Pairwise Block.Disjoint ∧
      ∀ {pre mid post t layout}, actions = pre ++ .call t layout :: (mid ++ .null t :: post) →
        (∀ layout', .call t layout' ∉ mid) →
        ∀ a ∈ .call t layout :: (mid ++ [.null t]), a.caller = t →
          a.block? = none ∧ ∀ {s₁ s₂}, Step s₁ a s₂ → s₂.heapNext = s₁.heapNext := by
  have hsound := sound_of_runs h
  refine ⟨hsound.next_le, ?_, fun b hb => (hsound.below b hb).1, hsound.disjoint, ?_⟩
  · intro more s' hmore
    -- the invariant holds all along the rest of the run
    exact (hmore.related (I := fun s => ∃ actions, Sound actions s)
      (r := fun s s' => s.heapNext ≤ s'.heapNext) (fun _ => le_rfl) le_trans
      (fun ⟨_, hs⟩ hstep => ⟨⟨_, (hs.step hstep).1⟩, (hs.step hstep).2⟩) ⟨_, hsound⟩).2
  · intro pre mid post t layout hsplit hmid a ha hat
    have hprefix : ∃ s₀, Runs Step initial (pre ++ .call t layout :: (mid ++ [.null t])) s₀ := by
      rw [hsplit, show pre ++ .call t layout :: (mid ++ .null t :: post) =
        (pre ++ .call t layout :: (mid ++ [.null t])) ++ post by simp] at h
      obtain ⟨s₀, hfirst, _⟩ := h.of_append
      exact ⟨s₀, hfirst⟩
    obtain ⟨s₀, hrun⟩ := hprefix
    have hnone := null_returned_none hrun hmid ha hat
    exact ⟨hnone, fun hstep => hstep.heapNext_eq hnone⟩

/-! ## Two callers -/

/-- Three bytes at a multiple of 8. -/
def threeBytes : Layout := ⟨3, 8, ⟨3, by decide, rfl⟩, by decide, by decide⟩

/-- Both callers load 0; the first one takes the block, the second one has to retry. -/
def raced : List (Action Bool) :=
  [.call true threeBytes, .load true, .call false threeBytes, .load false, .compute true,
    .compute false, .allocated true ⟨0, threeBytes⟩, .retry false, .load false, .compute false,
    .allocated false ⟨8, threeBytes⟩]

theorem raced_runs : ∃ s, Runs Step initial raced s := by
  have hfirst : bump threeBytes 0 = some (0, 3) := by decide +kernel
  have hsecond : bump threeBytes 3 = some (8, 11) := by decide +kernel
  refine ⟨_, ((((((((((Runs.start.snoc (.call rfl)).snoc (.load rfl)).snoc (.call rfl)).snoc
    (.load rfl)).snoc (.compute rfl hfirst)).snoc (.compute rfl hfirst)).snoc
    (.allocated rfl rfl)).snoc (.retry rfl ?_)).snoc (.load rfl)).snoc (.compute rfl hsecond)).snoc
    (.allocated rfl rfl)⟩
  show (3 : UInt64) ≠ 0
  decide

theorem blocks_disjoint_raced : (returned raced).Pairwise Block.Disjoint := by
  obtain ⟨s, hrun⟩ := raced_runs
  exact (blocks_disjoint hrun).2.2.2.1

/-! ## Pointers -/

/-- The pointer returned for the block is a multiple of the alignment asked for. -/
def Block.Aligned (base : HeapBase) (b : Block) : Prop :=
  ∃ p, b.pointer base = .ok p ∧ p.toNat % b.layout.align.toNat = 0

/-- A block in the heap has a pointer, which is the exact sum. -/
theorem Block.Placed.pointer_eq {b : Block} (h : b.Placed) (base : HeapBase) :
    ∃ p, b.pointer base = .ok p ∧ p.toNat = base.address.toNat + b.offset.toNat := by
  have hstop := h.2
  have hfits := base.fits
  have hsize := b.layout.size_pos
  rw [Block.stop] at hstop
  have hsum : (UInt64.ofNat (base.address.toNat + b.offset.toNat)).toNat =
      base.address.toNat + b.offset.toNat :=
    UInt64.toNat_ofNat_of_lt' (show _ < 2 ^ 64 by omega)
  refine ⟨_, ?_, hsum⟩
  rw [Block.pointer, checkedAdd_eq_some.mpr hsum, Outcome.orPanic_some]

/-- The offset being a multiple of the alignment, the pointer is one when the address of
    the heap is. -/
theorem Block.Placed.aligned_iff {b : Block} (h : b.Placed) (base : HeapBase) :
    b.Aligned base ↔ base.address.toNat % b.layout.align.toNat = 0 := by
  obtain ⟨p, hp, hsum⟩ := h.pointer_eq base
  have hmod : p.toNat % b.layout.align.toNat = base.address.toNat % b.layout.align.toNat := by
    rw [hsum, Nat.add_mod, h.1, Nat.add_zero, Nat.mod_mod]
  constructor
  · rintro ⟨p', hp', haligned⟩
    rw [hp] at hp'
    rw [← hmod, Except.ok.inj hp']
    exact haligned
  · intro hbase
    exact ⟨p, hp, hmod.trans hbase⟩

/-- **Which pointers have the alignment asked for.**  After any steps of any callers, the
    pointer of a block handed out is a multiple of its alignment exactly when the address of
    `HEAP` is. -/
theorem pointers_aligned_iff {actions : List (Action τ)} {s : State τ} (base : HeapBase)
    (h : Runs Step initial actions s) :
    ∀ b ∈ returned actions,
      b.Aligned base ↔ base.address.toNat % b.layout.align.toNat = 0 := by
  intro b hb
  exact ((sound_of_runs h).below b hb).1.aligned_iff base

/-- What `repr(align(16))` promises: alignments up to 16 are kept, wherever `HEAP` lies. -/
theorem pointers_aligned_of_le {actions : List (Action τ)} {s : State τ} (base : HeapBase)
    (h : Runs Step initial actions s) :
    ∀ b ∈ returned actions, b.layout.align.toNat ≤ 16 → b.Aligned base := by
  intro b hb hle
  rw [((sound_of_runs h).below b hb).1.aligned_iff base]
  obtain ⟨k, -, hpow⟩ := b.layout.isPowerOfTwo
  rw [hpow] at hle ⊢
  have hk : k ≤ 4 := (Nat.pow_le_pow_iff_right (by decide)).mp hle
  have hdvd : 2 ^ k ∣ 16 := Nat.pow_dvd_pow 2 hk
  exact Nat.mod_eq_zero_of_dvd (Nat.dvd_trans hdvd (Nat.dvd_of_mod_eq_zero base.aligned))

/-- An address that is a multiple of 16 and not of 32. -/
def oddBase : HeapBase := ⟨0x40080010, by decide, by decide⟩

theorem pointers_aligned_iff_raced : Block.Aligned oddBase ⟨8, threeBytes⟩ := by
  obtain ⟨s, hrun⟩ := raced_runs
  have hmem : ⟨8, threeBytes⟩ ∈ returned raced :=
    List.mem_filterMap.mpr ⟨.allocated false _, List.mem_of_getLast? rfl, rfl⟩
  exact (pointers_aligned_iff oddBase hrun _ hmem).mpr (by decide)

/-- 32 bytes at a multiple of 32. -/
def vectorLayout : Layout := ⟨32, 32, ⟨5, by decide, rfl⟩, by decide, by decide⟩

/-- The first allocation after boot gets the address of `HEAP`, whatever its alignment. -/
theorem vector_not_aligned : ∃ (actions : List (Action Unit)) (s : State Unit),
    Runs Step initial actions s ∧ ∃ b ∈ returned actions, ¬ b.Aligned oddBase := by
  have hbump : bump vectorLayout 0 = some (0, 32) := by decide +kernel
  have hrun : Runs Step (initial : State Unit) [.call () vectorLayout, .load (), .compute (),
      .allocated () ⟨0, vectorLayout⟩] _ :=
    (((Runs.start.snoc (.call rfl)).snoc (.load rfl)).snoc (.compute rfl hbump)).snoc
      (.allocated rfl rfl)
  refine ⟨_, _, hrun, ⟨0, vectorLayout⟩, List.mem_singleton_self _, ?_⟩
  have hplaced : Block.Placed ⟨0, vectorLayout⟩ := ⟨by decide, by decide⟩
  rw [hplaced.aligned_iff]
  decide

end XnuRs.Kernel.Alloc
