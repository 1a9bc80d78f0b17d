/-
  XnuRs.Loader.FdtParserTotal

  The FDT parser ends on every blob: it returns a tree or LOAD_ERROR.

  Every position fits a `usize`, and a scan stops before or at the end of the
  blob, so the slices it cuts are in range.  The counter of `parse_node` is not
  exhausted either: each round and each nested node moves the cursor on.
-/

import XnuRs.Loader.FdtParserSound

namespace XnuRs.Loader.FdtParser

open Outcome (FailsOnlyWith)

variable {p q : FdtParser}

/-! ## The reading steps -/

theorem readBeU32_fails (bytes : List UInt8) (offset : Nat) :
    FailsOnlyWith () (readBeU32 bytes offset) := readU32_fails beToNat bytes offset

/-- Reading the header cannot panic: the blob is cut at `totalsize` after the check. -/
theorem new_fails (b : List UInt8) : FailsOnlyWith .loadError (new b) := by
  refine .bind (.mapErr (readBeU32_fails b 0)) fun magic _ => .ite (fun _ => .err) fun _ => ?_
  refine .bind (.mapErr (readBeU32_fails b 4)) fun totalsize _ => ?_
  refine .bind (.mapErr (readBeU32_fails b 8)) fun structOffset _ => ?_
  refine .bind (.mapErr (readBeU32_fails b 12)) fun stringsOffset _ => ?_
  refine .ite (fun _ => .err) fun hrange => ?_
  rw [indexTo_of_le (by omega)]
  exact .ok _

theorem peekToken_fails (p : FdtParser) : FailsOnlyWith .loadError p.peekToken :=
  .mapErr (readBeU32_fails _ _)

theorem readToken_fails (p : FdtParser) : FailsOnlyWith .loadError p.readToken :=
  .bind p.peekToken_fails fun _ _ => .bind (.okOr _) fun _ _ => .ok _

theorem expectToken_fails (p : FdtParser) (expected : Nat) :
    FailsOnlyWith .loadError (p.expectToken expected) :=
  .bind p.readToken_fails fun _ _ => .ite (fun _ => .ok _) fun _ => .err

theorem alignPos_fails (p : FdtParser) : FailsOnlyWith .loadError p.alignPos :=
  .bind (.okOr _) fun _ _ => .ok _

theorem scanNul_fails (bytes : List UInt8) (stop : Nat) :
    FailsOnlyWith .loadError (scanNul bytes stop) := by
  induction bytes generalizing stop with
  | nil => exact .err
  | cons byte rest ih => exact .ite (fun _ => .bind (.okOr _) fun _ _ => ih _) fun _ => .ok _

/-- A scan that stops has found the first NUL, at whatever position it started. -/
theorem of_scanNul {bytes : List UInt8} {start stop : Nat} (h : scanNul bytes start = .ok stop) :
    (0 : UInt8) ∈ bytes ∧ stop = start + (beforeNul bytes).length := by
  induction bytes generalizing start with
  | nil => exact absurd h Outcome.err_ne_ok
  | cons byte rest ih =>
      rw [scanNul] at h
      split at h
      · rename_i hne
        obtain ⟨next, hnext, hrest⟩ := Outcome.bind_eq_ok.mp h
        rw [Outcome.okOr_eq_ok, usizeAdd_eq_some] at hnext
        obtain ⟨hmem, hstop⟩ := ih hrest
        have hcut : (beforeNul (byte :: rest)).length = (beforeNul rest).length + 1 := by
          simp [beforeNul, hne]
        exact ⟨List.mem_cons_of_mem _ hmem, by omega⟩
      · rename_i hzero
        obtain rfl := Decidable.of_not_not hzero
        obtain rfl := Except.ok.inj h
        exact ⟨List.mem_cons_self .., rfl⟩

/-- What a scan has passed is in range. -/
theorem indexRange_of_scanNul {bytes : List UInt8} {start stop : Nat}
    (h : scanNul (bytes.drop start) start = .ok stop) :
    (indexRange bytes start stop : Outcome Status _) = .ok (beforeNul (bytes.drop start)) := by
  obtain ⟨hnul, rfl⟩ := of_scanNul h
  rw [indexRange, getRange_beforeNul (Nat.le_of_lt (lt_length_of_mem_drop hnul)),
    Outcome.orPanic_some]

theorem stringAt_fails (p : FdtParser) (offset : Nat) :
    FailsOnlyWith .loadError (p.stringAt offset) := by
  refine .bind (.okOr _) fun start _ => .bind (scanNul_fails _ _) fun stop hstop => ?_
  rw [indexRange_of_scanNul hstop, Outcome.ok_bind]
  exact .okOr _

theorem readCstr_fails (p : FdtParser) : FailsOnlyWith .loadError p.readCstr := by
  refine .bind (scanNul_fails _ _) fun stop hstop => .bind (.okOr _) fun pos _ => ?_
  rw [indexRange_of_scanNul hstop, Outcome.ok_bind]
  exact .bind (.okOr _) fun _ _ => .ok _

theorem newOwned_fails (name : String) (value : List UInt8) :
    FailsOnlyWith .loadError (AdtProp.newOwned name value) := by
  unfold AdtProp.newOwned
  exact .ite (fun _ => .err) fun _ => .ok _

theorem parseProp_fails (p : FdtParser) : FailsOnlyWith .loadError p.parseProp :=
  .bind (p.expectToken_fails _) fun _ _ => .bind (readToken_fails _) fun _ _ =>
    .bind (readToken_fails _) fun _ _ => .bind (stringAt_fails _ _) fun _ _ =>
      .bind (.okOr _) fun _ _ => .bind (.okOr _) fun _ _ => .bind (alignPos_fails _) fun _ _ =>
        .bind (newOwned_fails _ _) fun _ _ => .ok _

/-! ## Whole runs -/

/-- `fuel` is more than the bytes left, so `parse_node` ends before it runs out. -/
def NodeStops (fuel : Nat) : Prop :=
  ∀ {p : FdtParser}, p.Sized → p.bytes.length < fuel + p.pos → 0 < fuel →
    FailsOnlyWith .loadError (parseNode fuel p)

/-- The same for the loop of `parse_node`. -/
def ItemsStop (fuel : Nat) : Prop :=
  ∀ {p : FdtParser}, p.Sized → 0 < fuel → p.bytes.length + 1 < fuel + p.pos →
    ∀ (props : List AdtProp) (children : List AdtNode),
      FailsOnlyWith .loadError (parseItems fuel p props children)

theorem nodeStops_succ {fuel : Nat} (hitems : ItemsStop fuel) : NodeStops (fuel + 1) := by
  intro p hp hfuel _
  refine .bind (p.expectToken_fails _) fun p₁ h₁ => ?_
  refine .bind (readCstr_fails _) fun ⟨name, p₂⟩ h₂ => ?_
  refine .bind (alignPos_fails _) fun p₃ h₃ => ?_
  obtain ⟨hskip, hpos, _⟩ := head_advances hp h₁ h₂ h₃
  obtain ⟨h4, _⟩ := (expectToken_eq_ok hp.1).mp h₁
  refine .bind (hitems (hskip.sized hp) (by omega) (by rw [hskip.bytes]; omega) _ _)
    fun _ _ => ?_
  dsimp only
  rw [insertName_eq, Outcome.ok_bind]
  exact .ok _

theorem itemsStop_succ {fuel : Nat} (hnode : NodeStops fuel) (hitems : ItemsStop fuel) :
    ItemsStop (fuel + 1) := by
  intro p hp _ hfuel props children
  refine .bind p.peekToken_fails fun token htoken => ?_
  obtain ⟨hlen, _⟩ := (peekToken_eq_ok hp.1).mp htoken
  -- the tests of the loop in its order; a round that goes on is past a token
  refine .ite (fun _ => ?_) fun _ => .ite (fun _ => ?_) fun _ => .ite (fun _ => ?_) fun _ =>
    .ite (fun _ => ?_) fun _ => .ite (fun _ => .ok _) fun _ => .err
  · -- a property
    refine .bind p.parseProp_fails fun ⟨prop, p₁⟩ h₁ => ?_
    obtain ⟨hstep, hpos, _⟩ := parseProp_advances hp h₁
    exact hitems (hstep.sized hp) (by omega) (by rw [hstep.bytes]; omega) _ _
  · -- a child
    refine .bind (hnode hp (by omega) (by omega)) fun ⟨child, p₁⟩ h₁ => ?_
    obtain ⟨hstep, hpos, _⟩ := (parser_sound fuel).1 hp h₁
    exact hitems (hstep.sized hp) (by omega) (by rw [hstep.bytes]; omega) _ _
  · -- the end of the node
    exact .bind p.readToken_fails fun _ _ => .ok _
  · -- a NOP
    refine .bind p.readToken_fails fun ⟨_, p₁⟩ h₁ => ?_
    obtain ⟨hstep, hpos⟩ := readToken_advances hp h₁
    exact hitems (hstep.sized hp) (by omega) (by rw [hstep.bytes]; omega) _ _

theorem parser_stops (fuel : Nat) : NodeStops fuel ∧ ItemsStop fuel := by
  induction fuel with
  | zero => exact ⟨fun _ _ h => absurd h (Nat.lt_irrefl 0), fun _ h => absurd h (Nat.lt_irrefl 0)⟩
  | succ fuel ih => exact ⟨nodeStops_succ ih.2, itemsStop_succ ih.1 ih.2⟩

/-- `parse` returns a tree or LOAD_ERROR: its counter is large enough. -/
theorem parse_fails (hp : p.Sized) : FailsOnlyWith .loadError p.parse :=
  .bind ((parser_stops _).1 hp (by omega) (by omega)) fun _ _ => .ok _

/-- The parser returns a tree or LOAD_ERROR, for every blob. -/
theorem new_parse_fails (b : List UInt8) : FailsOnlyWith .loadError (new b >>= parse) :=
  .bind (new_fails b) fun _ hnew => parse_fails (new_sized hnew).1

end XnuRs.Loader.FdtParser
