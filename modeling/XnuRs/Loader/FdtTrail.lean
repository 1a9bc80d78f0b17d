/-
  XnuRs.Loader.FdtTrail

  Where the cursor of the FDT parser goes.

  The parser is written once more, with a note of every assignment to `pos`,
  every call of `parse_node` and every round of its loop; leaving the notes out
  gives the parser back (`parserT_result`).  The trail of a run only climbs,
  and what is noted at one depth of nesting is 4 bytes apart at least.
-/

import XnuRs.Loader.FdtGrammar
import XnuRs.Lib.Traced

namespace XnuRs.Loader.FdtParser

open Outcome (FailsOnlyWith)

/-! ## The parser with its trail -/

/-- A note: `pos` was assigned to, `parse_node` was called at a depth of nesting, or a round
    of its loop began. -/
inductive Move where
  | assign (pos : Nat)
  | enter (depth pos : Nat)
  | round (depth pos : Nat)
deriving DecidableEq, Repr

/-- A run of the parser with its notes. -/
abbrev Tracing := Traced Move Status

/-- `read_token`. -/
def readTokenT (p : FdtParser) : Tracing (Nat × FdtParser) := do
  let value ← .lift p.peekToken
  let pos ← .lift (.okOr (usizeAdd p.pos 4) .loadError)
  .emit (.assign pos)
  pure (value, { p with pos })

/-- `expect_token`. -/
def expectTokenT (p : FdtParser) (expected : Nat) : Tracing FdtParser := do
  let (value, p) ← p.readTokenT
  if value = expected then pure p else .lift (.err .loadError)

/-- `align_pos`. -/
def alignPosT (p : FdtParser) : Tracing FdtParser := do
  let pos ← .lift (.okOr (usizeAdd p.pos 3) .loadError)
  .emit (.assign (pos / 4 * 4))
  pure { p with pos := pos / 4 * 4 }

/-- The loop of `read_cstr`. -/
def scanNulT : List UInt8 → Nat → Tracing Nat
  | [], _ => .lift (.err .loadError)
  | byte :: rest, stop =>
    if byte ≠ 0 then do
      let stop ← .lift (.okOr (usizeAdd stop 1) .loadError)
      .emit (.assign stop)
      scanNulT rest stop
    else pure stop

/-- `read_cstr`. -/
def readCstrT (p : FdtParser) : Tracing (String × FdtParser) := do
  let stop ← scanNulT (p.bytes.drop p.pos) p.pos
  let pos ← .lift (.okOr (usizeAdd stop 1) .loadError)
  .emit (.assign pos)
  let text ← .lift (indexRange p.bytes p.pos stop)
  let name ← .lift (.okOr (fromUtf8 text) .loadError)
  pure (name, { p with pos })

/-- `parse_prop`. -/
def parsePropT (p : FdtParser) : Tracing (AdtProp × FdtParser) := do
  let p ← p.expectTokenT fdtProp
  let (len, p) ← p.readTokenT
  let (nameoff, p) ← p.readTokenT
  let name ← .lift (p.stringAt nameoff)
  let stop ← .lift (.okOr (usizeAdd p.pos len) .loadError)
  let value ← .lift (.okOr (getRange p.bytes p.pos stop) .loadError)
  .emit (.assign stop)
  let p ← alignPosT { p with pos := stop }
  let prop ← .lift (AdtProp.newOwned name value)
  pure (prop, p)

/-- The head of `parse_node`: the token, the name and the padding. -/
def headT (p : FdtParser) : Tracing (String × FdtParser) := do
  let p ← p.expectTokenT fdtBeginNode
  let (name, p) ← p.readCstrT
  let p ← p.alignPosT
  pure (name, p)

mutual

/-- `parse_node` at a depth of nesting. -/
def parseNodeT : Nat → Nat → FdtParser → Tracing (AdtNode × FdtParser)
  | 0, _, _ => .lift .fuel
  | fuel + 1, depth, p => do
    .emit (.enter depth p.pos)
    let (name, p) ← p.headT
    let (props, children, p) ← parseItemsT fuel depth p [] []
    let props ← .lift (insertName name props)
    pure (⟨props, children⟩, p)

/-- The loop of `parse_node`. -/
def parseItemsT : Nat → Nat → FdtParser → List AdtProp → List AdtNode →
    Tracing (List AdtProp × List AdtNode × FdtParser)
  | 0, _, _, _, _ => .lift .fuel
  | fuel + 1, depth, p, props, children => do
    .emit (.round depth p.pos)
    let token ← .lift p.peekToken
    if token = fdtProp then
      let (prop, p) ← p.parsePropT
      parseItemsT fuel depth p (props ++ [prop]) children
    else if token = fdtBeginNode then
      let (child, p) ← parseNodeT fuel (depth + 1) p
      parseItemsT fuel depth p props (children ++ [child])
    else if token = fdtEndNode then
      let (_, p) ← p.readTokenT
      pure (props, children, p)
    else if token = fdtNop then
      let (_, p) ← p.readTokenT
      parseItemsT fuel depth p props children
    else if token = fdtEnd then pure (props, children, p)
    else .lift (.err .loadError)

end

/-- `parse`; the root is nested to depth 1. -/
def parseT (p : FdtParser) : Tracing AdtNode := do
  let (root, _) ← parseNodeT (p.bytes.length + 1) 1 p
  pure root

/-! ## Without the notes -/

@[simp] theorem readTokenT_result (p : FdtParser) : p.readTokenT.result = p.readToken := by
  simp only [readTokenT, readToken, Traced.bind_result, Traced.lift_result, Traced.emit_result,
    Outcome.ok_bind, Traced.pure_result]

@[simp] theorem expectTokenT_result (p : FdtParser) (expected : Nat) :
    (p.expectTokenT expected).result = p.expectToken expected := by
  simp only [expectTokenT, expectToken, Traced.bind_result, readTokenT_result]
  refine Outcome.bind_congr_ok rfl fun r _ => ?_
  obtain ⟨value, q⟩ := r
  dsimp only
  split <;> rfl

@[simp] theorem alignPosT_result (p : FdtParser) : p.alignPosT.result = p.alignPos := by
  simp only [alignPosT, alignPos, Traced.bind_result, Traced.lift_result, Traced.emit_result,
    Outcome.ok_bind, Traced.pure_result]

@[simp] theorem scanNulT_result (bytes : List UInt8) (stop : Nat) :
    (scanNulT bytes stop).result = scanNul bytes stop := by
  induction bytes generalizing stop with
  | nil => rfl
  | cons byte rest ih =>
      unfold scanNulT scanNul
      split
      · simp only [Traced.bind_result, Traced.lift_result, Traced.emit_result, Outcome.ok_bind, ih]
      · rfl

@[simp] theorem readCstrT_result (p : FdtParser) : p.readCstrT.result = p.readCstr := by
  simp only [readCstrT, readCstr, Traced.bind_result, scanNulT_result, Traced.lift_result,
    Traced.emit_result, Outcome.ok_bind, Traced.pure_result]

@[simp] theorem parsePropT_result (p : FdtParser) : p.parsePropT.result = p.parseProp := by
  simp only [parsePropT, parseProp, Traced.bind_result, expectTokenT_result, readTokenT_result,
    alignPosT_result, Traced.lift_result, Traced.emit_result, Outcome.ok_bind, Traced.pure_result]

/-- The notes do not change what the parser returns. -/
theorem parserT_result (fuel : Nat) :
    (∀ depth p, (parseNodeT fuel depth p).result = parseNode fuel p) ∧
      ∀ depth p props children,
        (parseItemsT fuel depth p props children).result = parseItems fuel p props children := by
  induction fuel with
  | zero => exact ⟨fun _ _ => rfl, fun _ _ _ _ => rfl⟩
  | succ fuel ih =>
      obtain ⟨hnode, hitems⟩ := ih
      constructor
      · intro depth p
        simp only [parseNodeT, parseNode, headT, Traced.bind_result, Traced.emit_result,
          Outcome.ok_bind, expectTokenT_result, readCstrT_result, alignPosT_result, hitems,
          Traced.lift_result, Traced.pure_result, bind_assoc]
      · intro depth p props children
        simp only [parseItemsT, parseItems, Traced.bind_result, Traced.emit_result,
          Traced.lift_result, Outcome.ok_bind]
        refine Outcome.bind_congr_ok rfl fun token _ => ?_
        split
        · simp only [Traced.bind_result, parsePropT_result, hitems]
        split
        · simp only [Traced.bind_result, hnode, hitems]
        split
        · simp only [Traced.bind_result, readTokenT_result, Traced.pure_result]
        split
        · simp only [Traced.bind_result, readTokenT_result, hitems]
        split <;> rfl

/-! ## Trails -/

/-- Where the cursor is at a note. -/
def Move.at : Move → Nat
  | .assign pos | .enter _ pos | .round _ pos => pos

/-- The depth of nesting a call or a round is noted at. -/
def Move.depth? : Move → Option Nat
  | .assign _ => none
  | .enter depth _ | .round depth _ => some depth

/-- Notes at one depth of nesting are 4 bytes apart. -/
def Apart (m m' : Move) : Prop :=
  ∀ depth, m.depth? = some depth → m'.depth? = some depth → m.at + 4 ≤ m'.at

/-- An assignment. -/
def Plain (m : Move) : Prop := m.depth? = none

theorem Plain.apart {m m' : Move} (h : Plain m) : Apart m m' := fun depth hm => by
  rw [show m.depth? = none from h] at hm
  cases hm

/-- The notes of a run that starts with the cursor at `lo`: the cursor climbs, up to `bound`
    at most, and to `stop` when the run returns. -/
structure Trail {α : Type} (bound lo : Nat) (x : Tracing α) (stop : α → Nat) : Prop where
  sorted : x.log.Pairwise fun m m' => m.at ≤ m'.at
  apart : x.log.Pairwise Apart
  inside : ∀ m ∈ x.log, lo ≤ m.at ∧ m.at ≤ bound
  last : ∀ a, x.result = .ok a → lo ≤ stop a ∧ ∀ m ∈ x.log, m.at ≤ stop a

namespace Trail

variable {α β : Type} {bound lo : Nat} {x : Tracing α} {f : α → Tracing β} {stop : α → Nat}
  {stop' : β → Nat}

theorem pure {a : α} (h : lo ≤ stop a) : Trail bound lo (Pure.pure a) stop where
  sorted := .nil
  apart := .nil
  inside _ hm := by cases hm
  last _ ha := by
    obtain rfl := Except.ok.inj ha
    exact ⟨h, fun _ hm => by cases hm⟩

theorem fault {e : Fault Status} : Trail bound lo (.lift (.error e) : Tracing α) stop where
  sorted := .nil
  apart := .nil
  inside _ hm := by cases hm
  last _ ha := by cases ha

/-- One run after another, the notes of which keep apart. -/
theorem bind (hx : Trail bound lo x stop)
    (hf : ∀ a, x.result = .ok a → Trail bound (stop a) (f a) stop')
    (hcross : ∀ a, x.result = .ok a → ∀ m ∈ x.log, ∀ m' ∈ (f a).log, Apart m m') :
    Trail bound lo (x >>= f) stop' := by
  -- a first part that fails ends the run with its own notes
  cases hr : x.result with
  | error e =>
      have hlog := Traced.bind_log_error f hr
      refine ⟨hlog ▸ hx.sorted, hlog ▸ hx.apart, hlog ▸ hx.inside, fun b hb => ?_⟩
      rw [Traced.bind_result, hr, Outcome.error_bind] at hb
      cases hb
  | ok a =>
      obtain ⟨hlo, hle⟩ := hx.last a hr
      have hnext := hf a hr
      have hresult : (x >>= f).result = (f a).result := by
        rw [Traced.bind_result, hr, Outcome.ok_bind]
      constructor
      · rw [Traced.bind_log_ok f hr, List.pairwise_append]
        exact ⟨hx.sorted, hnext.sorted, fun m hm m' hm' =>
          (hle m hm).trans (hnext.inside m' hm').1⟩
      · rw [Traced.bind_log_ok f hr, List.pairwise_append]
        exact ⟨hx.apart, hnext.apart, hcross a hr⟩
      · intro m hm
        rw [Traced.bind_log_ok f hr, List.mem_append] at hm
        rcases hm with hm | hm
        · exact hx.inside m hm
        · exact ⟨hlo.trans (hnext.inside m hm).1, (hnext.inside m hm).2⟩
      · intro b hb
        rw [hresult] at hb
        obtain ⟨hlo', hle'⟩ := hnext.last b hb
        refine ⟨hlo.trans hlo', fun m hm => ?_⟩
        rw [Traced.bind_log_ok f hr, List.mem_append] at hm
        rcases hm with hm | hm
        · exact (hle m hm).trans hlo'
        · exact hle' m hm

/-- A part with assignments only. -/
theorem bind_plain (hx : Trail bound lo x stop) (hplain : Traced.Only Plain x)
    (hf : ∀ a, x.result = .ok a → Trail bound (stop a) (f a) stop') :
    Trail bound lo (x >>= f) stop' :=
  hx.bind hf fun _ _ m hm _ _ => (hplain m hm).apart

/-- A part without notes. -/
theorem lift_bind {y : Outcome Status α} (hf : ∀ a, y = .ok a → Trail bound lo (f a) stop') :
    Trail bound lo (.lift y >>= f) stop' := by
  have hy : Trail bound lo (.lift y : Tracing α) fun _ => lo :=
    ⟨.nil, .nil, fun _ hm => (nomatch hm), fun _ _ => ⟨Nat.le_refl _, fun _ hm => (nomatch hm)⟩⟩
  exact hy.bind_plain (Traced.only_lift y) hf

/-- A note at the cursor, which then is at `m.at`. -/
theorem emit_bind {m : Move} {f : Unit → Tracing β} (hlo : lo ≤ m.at) (hbound : m.at ≤ bound)
    (hf : Trail bound m.at (f ()) stop') (hcross : ∀ m' ∈ (f ()).log, Apart m m') :
    Trail bound lo (.emit m >>= f) stop' := by
  have hm : Trail bound lo (.emit m : Tracing Unit) fun _ => m.at :=
    ⟨List.pairwise_singleton .., List.pairwise_singleton .., fun m' hm' => by
      obtain rfl := List.mem_singleton.mp hm'
      exact ⟨hlo, hbound⟩, fun _ _ => ⟨hlo, fun m' hm' => by
        obtain rfl := List.mem_singleton.mp hm'
        exact Nat.le_refl _⟩⟩
  refine hm.bind (fun _ _ => hf) fun _ _ m' hm' m'' hm'' => ?_
  obtain rfl := List.mem_singleton.mp hm'
  exact hcross m'' hm''

/-- An assignment to the cursor. -/
theorem assign_bind {pos : Nat} {f : Unit → Tracing β} (hlo : lo ≤ pos) (hbound : pos ≤ bound)
    (hf : Trail bound pos (f ()) stop') : Trail bound lo (.emit (.assign pos) >>= f) stop' :=
  emit_bind hlo hbound hf fun _ _ => Plain.apart rfl

end Trail

/-! ## The reading steps -/

section Steps

variable {p : FdtParser}

theorem readTokenT_trail (hp : p.Sized) :
    Trail (p.bytes.length + 3) p.pos p.readTokenT (fun r => r.2.pos) := by
  refine .lift_bind fun value hvalue => .lift_bind fun pos hpos => ?_
  obtain ⟨hlen, _⟩ := (peekToken_eq_ok hp.1).mp hvalue
  rw [Outcome.okOr_eq_ok, usizeAdd_eq_some] at hpos
  exact .assign_bind (by omega) (by omega) (.pure (Nat.le_refl pos))

theorem readTokenT_plain (p : FdtParser) : Traced.Only Plain p.readTokenT :=
  Traced.only_bind (Traced.only_lift _) fun _ => Traced.only_bind (Traced.only_lift _) fun _ =>
    Traced.only_bind (Traced.only_emit rfl) fun _ => Traced.only_pure _

theorem expectTokenT_trail {expected : Nat} (hp : p.Sized) :
    Trail (p.bytes.length + 3) p.pos (p.expectTokenT expected) (fun q => q.pos) := by
  refine (readTokenT_trail hp).bind_plain p.readTokenT_plain fun ⟨value, q⟩ _ => ?_
  dsimp only
  split
  · exact .pure (Nat.le_refl _)
  · exact .fault

theorem expectTokenT_plain (p : FdtParser) (expected : Nat) :
    Traced.Only Plain (p.expectTokenT expected) := by
  refine Traced.only_bind p.readTokenT_plain fun ⟨value, q⟩ => ?_
  dsimp only
  split
  · exact Traced.only_pure _
  · exact Traced.only_lift _

theorem alignPosT_trail (hpos : p.pos ≤ p.bytes.length) :
    Trail (p.bytes.length + 3) p.pos p.alignPosT (fun q => q.pos) := by
  refine .lift_bind fun pos h => ?_
  rw [Outcome.okOr_eq_ok, usizeAdd_eq_some] at h
  exact .assign_bind (by omega) (by omega) (.pure (Nat.le_refl _))

theorem alignPosT_plain (p : FdtParser) : Traced.Only Plain p.alignPosT :=
  Traced.only_bind (Traced.only_lift _) fun _ =>
    Traced.only_bind (Traced.only_emit rfl) fun _ => Traced.only_pure _

theorem scanNulT_trail {bytes : List UInt8} {start bound : Nat}
    (hbound : start + bytes.length ≤ bound) : Trail bound start (scanNulT bytes start) id := by
  induction bytes generalizing start with
  | nil => exact .fault
  | cons byte rest ih =>
      rw [List.length_cons] at hbound
      unfold scanNulT
      split
      · refine .lift_bind fun stop h => ?_
        rw [Outcome.okOr_eq_ok, usizeAdd_eq_some] at h
        exact .assign_bind (by omega) (by omega) (ih (by omega))
      · exact .pure (Nat.le_refl _)

theorem scanNulT_plain (bytes : List UInt8) (start : Nat) :
    Traced.Only Plain (scanNulT bytes start) := by
  induction bytes generalizing start with
  | nil => exact Traced.only_lift _
  | cons byte rest ih =>
      unfold scanNulT
      split
      · exact Traced.only_bind (Traced.only_lift _) fun _ =>
          Traced.only_bind (Traced.only_emit rfl) fun _ => ih _
      · exact Traced.only_pure _

theorem readCstrT_trail (hpos : p.pos ≤ p.bytes.length) :
    Trail (p.bytes.length + 3) p.pos p.readCstrT (fun r => r.2.pos) := by
  have hscan : p.pos + (p.bytes.drop p.pos).length ≤ p.bytes.length + 3 := by
    rw [List.length_drop]
    omega
  refine (scanNulT_trail hscan).bind_plain (scanNulT_plain _ _) fun stop hstop => ?_
  rw [scanNulT_result] at hstop
  obtain ⟨hnul, rfl⟩ := of_scanNul hstop
  have hlt := beforeNul_length_lt hnul
  rw [List.length_drop] at hlt
  refine .lift_bind fun pos h => ?_
  rw [Outcome.okOr_eq_ok, usizeAdd_eq_some] at h
  dsimp only [id]
  refine .assign_bind (by omega) (by omega) (.lift_bind fun _ _ => .lift_bind fun _ _ => ?_)
  exact .pure (Nat.le_refl pos)

theorem readCstrT_plain (p : FdtParser) : Traced.Only Plain p.readCstrT :=
  Traced.only_bind (scanNulT_plain _ _) fun _ => Traced.only_bind (Traced.only_lift _) fun _ =>
    Traced.only_bind (Traced.only_emit rfl) fun _ => Traced.only_bind (Traced.only_lift _) fun _ =>
      Traced.only_bind (Traced.only_lift _) fun _ => Traced.only_pure _

theorem parsePropT_trail (hp : p.Sized) :
    Trail (p.bytes.length + 3) p.pos p.parsePropT (fun r => r.2.pos) := by
  refine (expectTokenT_trail hp).bind_plain (expectTokenT_plain _ _) fun p₁ h₁ => ?_
  rw [expectTokenT_result] at h₁
  obtain ⟨h4, _, rfl⟩ := (expectToken_eq_ok hp.1).mp h₁
  refine (readTokenT_trail (p := { p with pos := p.pos + 4 }) hp).bind_plain (readTokenT_plain _)
    fun ⟨len, p₂⟩ h₂ => ?_
  rw [readTokenT_result] at h₂
  obtain ⟨h8, rfl, rfl⟩ := (readToken_eq_ok (p := { p with pos := p.pos + 4 }) hp.1).mp h₂
  refine (readTokenT_trail (p := { p with pos := p.pos + 8 }) hp).bind_plain (readTokenT_plain _)
    fun ⟨nameoff, p₃⟩ h₃ => ?_
  rw [readTokenT_result] at h₃
  obtain ⟨h12, rfl, rfl⟩ := (readToken_eq_ok (p := { p with pos := p.pos + 8 }) hp.1).mp h₃
  refine .lift_bind fun name _ => .lift_bind fun stop hstop => .lift_bind fun value hvalue => ?_
  rw [Outcome.okOr_eq_ok, usizeAdd_eq_some] at hstop
  rw [Outcome.okOr_eq_ok, getRange_eq_some] at hvalue
  dsimp only at hstop hvalue ⊢
  -- the cursor jumps over the value
  refine .assign_bind (by omega) (by omega) ?_
  refine (alignPosT_trail (p := { p with pos := stop }) hvalue.1.2).bind_plain (alignPosT_plain _)
    fun p₄ _ => ?_
  exact .lift_bind fun _ _ => .pure (Nat.le_refl _)

theorem parsePropT_plain (p : FdtParser) : Traced.Only Plain p.parsePropT :=
  Traced.only_bind (expectTokenT_plain _ _) fun _ => Traced.only_bind (readTokenT_plain _) fun _ =>
    Traced.only_bind (readTokenT_plain _) fun _ => Traced.only_bind (Traced.only_lift _) fun _ =>
      Traced.only_bind (Traced.only_lift _) fun _ => Traced.only_bind (Traced.only_lift _) fun _ =>
        Traced.only_bind (Traced.only_emit rfl) fun _ =>
          Traced.only_bind (alignPosT_plain _) fun _ => Traced.only_bind (Traced.only_lift _)
            fun _ => Traced.only_pure _

theorem headT_trail (hp : p.Sized) :
    Trail (p.bytes.length + 3) p.pos p.headT (fun r => r.2.pos) := by
  refine (expectTokenT_trail hp).bind_plain (expectTokenT_plain _ _) fun p₁ h₁ => ?_
  rw [expectTokenT_result] at h₁
  obtain ⟨h4, _, rfl⟩ := (expectToken_eq_ok hp.1).mp h₁
  refine (readCstrT_trail (p := { p with pos := p.pos + 4 }) h4).bind_plain (readCstrT_plain _)
    fun ⟨name, p₂⟩ h₂ => ?_
  rw [readCstrT_result] at h₂
  obtain ⟨hnul, _, rfl⟩ := (readCstr_eq_ok (p := { p with pos := p.pos + 4 }) hp.1
    (by have := hp.1; dsimp only; omega)).mp h₂
  have hlt := beforeNul_length_lt hnul
  rw [List.length_drop] at hlt
  dsimp only at hlt ⊢
  refine (alignPosT_trail (p := ⟨p.bytes, p.stringsOffset,
    p.pos + 4 + (beforeNul (p.bytes.drop (p.pos + 4))).length + 1⟩)
    (by dsimp only; omega)).bind_plain (alignPosT_plain _) fun p₃ _ => ?_
  exact .pure (Nat.le_refl _)

theorem headT_plain (p : FdtParser) : Traced.Only Plain p.headT :=
  Traced.only_bind (expectTokenT_plain _ _) fun _ => Traced.only_bind (readCstrT_plain _) fun _ =>
    Traced.only_bind (alignPosT_plain _) fun _ => Traced.only_pure _

end Steps

/-! ## Whole runs -/

/-- The next token is FDT_END. -/
def AtEnd (p : FdtParser) : Prop := p.peekToken = .ok fdtEnd

/-- What a run of the loop of `parse_node` notes, at a depth of nesting and below it. -/
structure ItemsTrail (depth : Nat) (p : FdtParser)
    (x : Tracing (List AdtProp × List AdtNode × FdtParser)) : Prop where
  trail : Trail (p.bytes.length + 3) p.pos x (fun r => r.2.2.pos)
  deep : ∀ m ∈ x.log, ∀ d, m.depth? = some d → depth ≤ d ∧ p.pos + 4 * d ≤ m.at + 4 * (depth + 1)
  enters : ∀ d pos, .enter d pos ∈ x.log → pos + 4 ≤ p.bytes.length
  passed : ∀ r, x.result = .ok r →
    (∀ m ∈ x.log, ∀ d, m.depth? = some d → m.at + 4 ≤ r.2.2.pos) ∨ r.2.2.AtEnd

/-- What a run of `parse_node` notes, at a depth of nesting and below it. -/
structure NodeTrail (depth : Nat) (p : FdtParser) (x : Tracing (AdtNode × FdtParser)) : Prop where
  trail : Trail (p.bytes.length + 3) p.pos x (fun r => r.2.pos)
  deep : ∀ m ∈ x.log, ∀ d, m.depth? = some d → depth ≤ d ∧ p.pos + 4 * d ≤ m.at + 4 * depth
  enters : ∀ d pos, .enter d pos ∈ x.log → pos = p.pos ∨ pos + 4 ≤ p.bytes.length
  passed : ∀ r, x.result = .ok r →
    (∀ m ∈ x.log, ∀ d, m.depth? = some d → m.at + 4 ≤ r.2.pos) ∨ r.2.AtEnd

section Runs

variable {p : FdtParser} {depth fuel : Nat} {props : List AdtProp} {children : List AdtNode}

/-- A round that leaves the loop at once. -/
theorem ItemsTrail.leave {x : Tracing (List AdtProp × List AdtNode × FdtParser)}
    (hpos : p.pos ≤ p.bytes.length + 3)
    (hx : Trail (p.bytes.length + 3) p.pos x (fun r => r.2.2.pos)) (hplain : Traced.Only Plain x)
    (hlast : ∀ r, x.result = .ok r → p.pos + 4 ≤ r.2.2.pos ∨ r.2.2.AtEnd) :
    ItemsTrail depth p (.emit (.round depth p.pos) >>= fun _ => x) where
  trail := .emit_bind (Nat.le_refl p.pos) (show p.pos ≤ _ by omega) hx fun m hm d _ hd => by
    rw [show m.depth? = none from hplain m hm] at hd
    cases hd
  deep m hm d hd := by
    rcases List.mem_cons.mp hm with rfl | hm
    · obtain rfl := Option.some.inj hd
      exact ⟨Nat.le_refl _, show p.pos + _ ≤ p.pos + _ by omega⟩
    · rw [show m.depth? = none from hplain m hm] at hd
      cases hd
  enters d pos hm := by
    rcases List.mem_cons.mp hm with h | hm
    · cases h
    · cases hplain _ hm
  passed r hr := by
    rw [Traced.bind_result, Traced.emit_result, Outcome.ok_bind] at hr
    refine (hlast r hr).imp_left fun hle m hm d hd => ?_
    rcases List.mem_cons.mp hm with rfl | hm
    · exact hle
    · rw [show m.depth? = none from hplain m hm] at hd
      cases hd

/-- A round that reads something with its notes below the loop, and goes on. -/
theorem ItemsTrail.step {β : Type} {first : Tracing β} (cur : β → FdtParser)
    {rest : β → Tracing (List AdtProp × List AdtNode × FdtParser)}
    (hpos : p.pos ≤ p.bytes.length + 3)
    (hfirst : Trail (p.bytes.length + 3) p.pos first (fun r => (cur r).pos))
    (hdeep : ∀ m ∈ first.log, ∀ d, m.depth? = some d →
      depth < d ∧ p.pos + 4 * d ≤ m.at + 4 * (depth + 1))
    (henters : ∀ d pos, .enter d pos ∈ first.log → pos + 4 ≤ p.bytes.length)
    (hnext : ∀ r, first.result = .ok r → Advances p (cur r) ∧ p.pos + 4 ≤ (cur r).pos)
    (hpassed : ∀ r, first.result = .ok r →
      (∀ m ∈ first.log, ∀ d, m.depth? = some d → m.at + 4 ≤ (cur r).pos) ∨ (cur r).AtEnd)
    (hrest : ∀ r, first.result = .ok r → ItemsTrail depth (cur r) (rest r))
    (hend : ∀ r, (cur r).AtEnd → (∀ m ∈ (rest r).log, m.depth? = some depth) ∧
      ∀ s, (rest r).result = .ok s → s.2.2 = cur r) :
    ItemsTrail depth p (.emit (.round depth p.pos) >>= fun _ => first >>= rest) where
  trail := by
    refine .emit_bind (Nat.le_refl p.pos) (show p.pos ≤ _ by omega) (hfirst.bind ?_ ?_) ?_
    · intro r hr
      have hbytes := (hnext r hr).1.bytes
      rw [← hbytes]
      exact (hrest r hr).trail
    · -- nothing is noted below the loop once FDT_END is the next token
      intro r hr m hm m' hm' d hd hd'
      rcases hpassed r hr with hpass | hat
      · exact (hpass m hm d hd).trans ((hrest r hr).trail.inside m' hm').1
      · have hsame := ((hend r hat).1 m' hm').symm.trans hd'
        have hbelow := (hdeep m hm d hd).1
        have heq := Option.some.inj hsame
        omega
    · intro m hm d hd hd'
      obtain rfl := Option.some.inj hd
      rcases Traced.mem_bind_log_iff.mp hm with hm | ⟨r, hr, hm⟩
      · exact absurd (hdeep m hm _ hd').1 (Nat.lt_irrefl _)
      · have hge := ((hrest r hr).trail.inside m hm).1
        have hstep := (hnext r hr).2
        show p.pos + 4 ≤ m.at
        omega
  deep m hm d hd := by
    rcases List.mem_cons.mp hm with rfl | hm
    · obtain rfl := Option.some.inj hd
      exact ⟨Nat.le_refl _, show p.pos + _ ≤ p.pos + _ by omega⟩
    · rcases Traced.mem_bind_log_iff.mp hm with hm | ⟨r, hr, hm⟩
      · obtain ⟨hlt, hle⟩ := hdeep m hm d hd
        exact ⟨Nat.le_of_lt hlt, hle⟩
      · obtain ⟨hle, hroom⟩ := (hrest r hr).deep m hm d hd
        have hstep := (hnext r hr).2
        exact ⟨hle, by omega⟩
  enters d pos hm := by
    rcases List.mem_cons.mp hm with h | hm
    · cases h
    · rcases Traced.mem_bind_log_iff.mp hm with hm | ⟨r, hr, hm⟩
      · exact henters d pos hm
      · rw [← (hnext r hr).1.bytes]
        exact (hrest r hr).enters d pos hm
  passed s hs := by
    rw [Traced.bind_result, Traced.emit_result, Outcome.ok_bind, Traced.bind_result,
      Outcome.bind_eq_ok] at hs
    obtain ⟨r, hr, hs⟩ := hs
    have hlast := ((hrest r hr).trail.last s hs).1
    rcases hpassed r hr with hpass | hat
    · refine ((hrest r hr).passed s hs).imp_left fun hlater m hm d hd => ?_
      rcases List.mem_cons.mp hm with rfl | hm
      · exact (hnext r hr).2.trans hlast
      · rcases Traced.mem_bind_log_iff.mp hm with hm | ⟨r', hr', hm⟩
        · exact (hpass m hm d hd).trans hlast
        · obtain rfl := Except.ok.inj (hr.symm.trans hr')
          exact hlater m hm d hd
    -- at FDT_END the rest of the loop returns where it stands
    · rw [(hend r hat).2 s hs]
      exact .inr hat

/-- A round that reads something with assignments only, and goes on. -/
theorem ItemsTrail.step_plain {β : Type} {first : Tracing β} (cur : β → FdtParser)
    {rest : β → Tracing (List AdtProp × List AdtNode × FdtParser)}
    (hpos : p.pos ≤ p.bytes.length + 3)
    (hfirst : Trail (p.bytes.length + 3) p.pos first (fun r => (cur r).pos))
    (hplain : Traced.Only Plain first)
    (hnext : ∀ r, first.result = .ok r → Advances p (cur r) ∧ p.pos + 4 ≤ (cur r).pos)
    (hrest : ∀ r, first.result = .ok r → ItemsTrail depth (cur r) (rest r))
    (hend : ∀ r, (cur r).AtEnd → (∀ m ∈ (rest r).log, m.depth? = some depth) ∧
      ∀ s, (rest r).result = .ok s → s.2.2 = cur r) :
    ItemsTrail depth p (.emit (.round depth p.pos) >>= fun _ => first >>= rest) := by
  refine .step cur hpos hfirst (fun m hm d hd => ?_) (fun d pos hm => ?_) hnext
    (fun r _ => .inl fun m hm d hd => ?_) hrest hend
  · cases (hplain m hm).symm.trans hd
  · cases hplain _ hm
  · cases (hplain m hm).symm.trans hd

/-- The loop stops where FDT_END is the next token. -/
theorem parseItemsT_atEnd (h : p.AtEnd) :
    (∀ m ∈ (parseItemsT fuel depth p props children).log, m.depth? = some depth) ∧
      ∀ s, (parseItemsT fuel depth p props children).result = .ok s → s.2.2 = p := by
  have hpeek : p.peekToken = .ok fdtEnd := h
  cases fuel with
  | zero => exact ⟨fun m hm => (nomatch hm), fun s hs => absurd hs Outcome.fuel_ne_ok⟩
  | succ fuel =>
      have hround : parseItemsT (fuel + 1) depth p props children =
          ⟨[.round depth p.pos], .ok (props, children, p)⟩ := by
        rw [parseItemsT, hpeek, Traced.lift_ok_bind, if_neg (by decide), if_neg (by decide),
          if_neg (by decide), if_neg (by decide), if_pos rfl]
        rfl
      rw [hround]
      refine ⟨fun m hm => ?_, fun s hs => ?_⟩
      · rw [List.mem_singleton.mp hm]
        rfl
      · rw [← Except.ok.inj hs]

theorem headT_ok {name : String} {q : FdtParser} (hp : p.Sized)
    (h : p.headT.result = .ok (name, q)) : Advances p q ∧ p.pos + 4 < q.pos := by
  simp only [headT, Traced.bind_result, expectTokenT_result, readCstrT_result, alignPosT_result,
    Traced.pure_result, Outcome.bind_eq_ok, Prod.exists] at h
  obtain ⟨p₁, h₁, name', p₂, h₂, p₃, h₃, h⟩ := h
  obtain ⟨rfl, rfl⟩ := Prod.mk.inj (Except.ok.inj h)
  obtain ⟨hskip, hpos, _⟩ := head_advances hp h₁ h₂ h₃
  exact ⟨hskip, by omega⟩

/-- What the rest of `parse_node` notes behind the head are the notes of its loop. -/
theorem mem_behind_head {x : Tracing (List AdtProp × List AdtNode × FdtParser)} {name : String}
    {m : Move} (h : m ∈ (x >>= fun r => (.lift (insertName name r.1) : Tracing _) >>= fun props =>
      pure ((⟨props, r.2.1⟩ : AdtNode), r.2.2)).log) : m ∈ x.log := by
  rwa [Traced.bind_log_of_silent fun r => Traced.bind_log_of_silent fun _ => rfl] at h

/-- The head of a node, and its items one level of the loop further on. -/
theorem nodeTrail_succ (hp : p.Sized) (hpos : p.pos ≤ p.bytes.length + 3)
    (hitems : ∀ {q : FdtParser}, q.Sized → q.pos ≤ q.bytes.length + 3 →
      ItemsTrail depth q (parseItemsT fuel depth q [] [])) :
    NodeTrail depth p (parseNodeT (fuel + 1) depth p) := by
  -- what the loop behind the head satisfies, for any head that is read
  have hloop : ∀ {name q}, p.headT.result = .ok (name, q) → Advances p q ∧ p.pos + 4 < q.pos ∧
      ItemsTrail depth q (parseItemsT fuel depth q [] []) := by
    intro name q h
    obtain ⟨hskip, hlt⟩ := headT_ok hp h
    have hwithin := hskip.within
    rw [← hskip.bytes] at hwithin
    exact ⟨hskip, hlt, hitems (hskip.sized hp) hwithin⟩
  rw [parseNodeT]
  constructor
  · refine .emit_bind (Nat.le_refl p.pos) hpos ((headT_trail hp).bind_plain (headT_plain p) ?_) ?_
    · rintro ⟨name, q⟩ hhead
      obtain ⟨hskip, hlt, hq⟩ := hloop hhead
      rw [← hskip.bytes]
      refine hq.trail.bind (fun r _ => .lift_bind fun _ _ => .pure (Nat.le_refl _)) ?_
      intro r _ m _ m' hm'
      rcases Traced.mem_bind_log_iff.mp hm' with hm' | ⟨_, _, hm'⟩
      · cases hm'
      · cases hm'
    · intro m hm d hd hd'
      rcases Traced.mem_bind_log_iff.mp hm with hm | ⟨⟨name, q⟩, hhead, hm⟩
      · cases (headT_plain p m hm).symm.trans hd'
      · obtain ⟨_, hlt, hq⟩ := hloop hhead
        have hge := (hq.trail.inside m (mem_behind_head hm)).1
        show p.pos + 4 ≤ m.at
        omega
  · intro m hm d hd
    rcases List.mem_cons.mp hm with rfl | hm
    · obtain rfl := Option.some.inj hd
      exact ⟨Nat.le_refl _, Nat.le_refl _⟩
    · rcases Traced.mem_bind_log_iff.mp hm with hm | ⟨⟨name, q⟩, hhead, hm⟩
      · cases (headT_plain p m hm).symm.trans hd
      · obtain ⟨_, hlt, hq⟩ := hloop hhead
        obtain ⟨hle, hroom⟩ := hq.deep m (mem_behind_head hm) d hd
        exact ⟨hle, by omega⟩
  · intro d pos hm
    rcases List.mem_cons.mp hm with h | hm
    · cases h
      exact .inl rfl
    · rcases Traced.mem_bind_log_iff.mp hm with hm | ⟨⟨name, q⟩, hhead, hm⟩
      · cases headT_plain p _ hm
      · obtain ⟨hskip, _, hq⟩ := hloop hhead
        rw [← hskip.bytes]
        exact .inr (hq.enters d pos (mem_behind_head hm))
  · intro r hr
    rw [Traced.bind_result, Traced.emit_result, Outcome.ok_bind, Traced.bind_result,
      Outcome.bind_eq_ok] at hr
    obtain ⟨⟨name, q⟩, hhead, hr⟩ := hr
    obtain ⟨hskip, hlt, hq⟩ := hloop hhead
    simp only [Traced.bind_result, Traced.lift_result, Traced.pure_result, Outcome.bind_eq_ok] at hr
    obtain ⟨⟨props, children, q'⟩, hrun, props', _, hr⟩ := hr
    obtain rfl := Except.ok.inj hr
    have hlast := (hq.trail.last _ hrun).1
    dsimp only at hlast
    refine (hq.passed _ hrun).imp_left fun hlater m hm d hd => ?_
    rcases List.mem_cons.mp hm with rfl | hm
    · show p.pos + 4 ≤ q'.pos
      omega
    · rcases Traced.mem_bind_log_iff.mp hm with hm | ⟨⟨name', q₂⟩, hhead', hm⟩
      · cases (headT_plain p m hm).symm.trans hd
      · obtain ⟨rfl, rfl⟩ := Prod.mk.inj (Except.ok.inj (hhead.symm.trans hhead'))
        exact hlater m (mem_behind_head hm) d hd

/-- One round of the loop, by the token it reads. -/
theorem itemsTrail_succ (hp : p.Sized) (hpos : p.pos ≤ p.bytes.length + 3)
    (hnode : ∀ {q : FdtParser}, q.Sized → q.pos ≤ q.bytes.length + 3 →
      NodeTrail (depth + 1) q (parseNodeT fuel (depth + 1) q))
    (hitems : ∀ {q : FdtParser} {props : List AdtProp} {children : List AdtNode}, q.Sized →
      q.pos ≤ q.bytes.length + 3 → ItemsTrail depth q (parseItemsT fuel depth q props children)) :
    ItemsTrail depth p (parseItemsT (fuel + 1) depth p props children) := by
  -- the rest of the loop, from wherever this round gets to
  have hafter : ∀ {q : FdtParser} {props children}, Advances p q →
      ItemsTrail depth q (parseItemsT fuel depth q props children) := by
    intro q props children hstep
    have hwithin := hstep.within
    rw [← hstep.bytes] at hwithin
    exact hitems (hstep.sized hp) hwithin
  rw [parseItemsT]
  cases hpeek : p.peekToken with
  | error e =>
      refine .leave hpos ?_ ?_ ?_
      · exact .lift_bind fun _ h => (nomatch h)
      · exact Traced.only_lift _
      · intro r hr
        cases hr
  | ok token =>
      obtain ⟨hlen, hword⟩ := (peekToken_eq_ok hp.1).mp hpeek
      simp only [Traced.lift_ok_bind]
      split
      · -- a property
        refine .step_plain (fun r => r.2) hpos (parsePropT_trail hp) (parsePropT_plain p) ?_ ?_ ?_
        · rintro ⟨prop, q⟩ h
          rw [parsePropT_result] at h
          obtain ⟨hstep, hle, _⟩ := parseProp_advances hp h
          exact ⟨hstep, hle⟩
        · rintro ⟨prop, q⟩ h
          rw [parsePropT_result] at h
          exact hafter (parseProp_advances hp h).1
        · exact fun ⟨prop, q⟩ hat => parseItemsT_atEnd hat
      split
      · -- a child
        have hchild := hnode hp hpos
        have hsound : ∀ {r}, (parseNodeT fuel (depth + 1) p).result = .ok r →
            NodeRead p r.2 r.1 := by
          rintro ⟨child, q⟩ h
          rw [(parserT_result fuel).1] at h
          exact (parser_sound fuel).1 hp h
        refine .step (fun r => r.2) hpos hchild.trail ?_ ?_ ?_ ?_ ?_ ?_
        · intro m hm d hd
          obtain ⟨hle, hroom⟩ := hchild.deep m hm d hd
          exact ⟨hle, hroom⟩
        · intro d pos hm
          rcases hchild.enters d pos hm with rfl | hle
          · exact hlen
          · exact hle
        · intro r h
          have hread := hsound h
          exact ⟨hread.advances, Nat.le_of_lt hread.grows⟩
        · exact hchild.passed
        · exact fun ⟨child, q⟩ h => hafter (hsound h).advances
        · exact fun ⟨child, q⟩ hat => parseItemsT_atEnd hat
      split
      · -- the end of the node
        refine .leave hpos ?_ ?_ ?_
        · exact (readTokenT_trail hp).bind_plain p.readTokenT_plain fun ⟨_, q⟩ _ =>
            .pure (Nat.le_refl _)
        · exact Traced.only_bind p.readTokenT_plain fun ⟨_, q⟩ => Traced.only_pure _
        · intro r hr
          rw [Traced.bind_result, readTokenT_result, Outcome.bind_eq_ok] at hr
          obtain ⟨⟨_, q⟩, hread, hr⟩ := hr
          obtain rfl := Except.ok.inj hr
          obtain ⟨_, hq⟩ := readToken_advances hp hread
          exact .inl (Nat.le_of_eq hq.symm)
      split
      · -- a NOP
        have hread : ∀ {r}, p.readTokenT.result = .ok r → Advances p r.2 ∧ r.2.pos = p.pos + 4 := by
          rintro ⟨_, q⟩ h
          rw [readTokenT_result] at h
          exact readToken_advances hp h
        refine .step_plain (fun r => r.2) hpos (readTokenT_trail hp) p.readTokenT_plain ?_ ?_ ?_
        · exact fun r h => ⟨(hread h).1, Nat.le_of_eq (hread h).2.symm⟩
        · exact fun ⟨_, q⟩ h => hafter (hread h).1
        · exact fun ⟨_, q⟩ hat => parseItemsT_atEnd hat
      split
      · -- the end of the structure block
        rename_i hend
        refine .leave hpos (.pure (Nat.le_refl _)) (Traced.only_pure _) ?_
        intro r hr
        obtain rfl := Except.ok.inj hr
        exact .inr (hpeek.trans (congrArg Except.ok hend))
      · exact .leave hpos .fault (Traced.only_lift _) fun r hr => absurd hr Outcome.err_ne_ok

end Runs

/-- The trails of whole runs, with any counter. -/
theorem parser_trails (fuel : Nat) :
    (∀ depth {p : FdtParser}, p.Sized → p.pos ≤ p.bytes.length + 3 →
      NodeTrail depth p (parseNodeT fuel depth p)) ∧
    ∀ depth {p : FdtParser} {props : List AdtProp} {children : List AdtNode}, p.Sized →
      p.pos ≤ p.bytes.length + 3 →
        ItemsTrail depth p (parseItemsT fuel depth p props children) := by
  induction fuel with
  | zero =>
      exact ⟨fun _ _ _ _ => ⟨.fault, fun _ hm => (nomatch hm), fun _ _ hm => (nomatch hm),
          fun _ hr => absurd hr Outcome.fuel_ne_ok⟩,
        fun _ _ _ _ _ _ => ⟨.fault, fun _ hm => (nomatch hm), fun _ _ hm => (nomatch hm),
          fun _ hr => absurd hr Outcome.fuel_ne_ok⟩⟩
  | succ fuel ih =>
      exact ⟨fun depth p hp hpos => nodeTrail_succ hp hpos (ih.2 depth),
        fun depth p _ _ hp hpos => itemsTrail_succ hp hpos (ih.1 (depth + 1)) (ih.2 depth)⟩

/-- **The parser ends on every blob.**  It returns a tree or LOAD_ERROR.  Its cursor only
    climbs, and stays below the length of the blob and 3.  The calls and rounds of one
    depth of nesting are 4 bytes apart at least, so that no call is nested deeper than a
    quarter of the length. -/
theorem parse_ends (b : List UInt8) :
    FailsOnlyWith .loadError (new b >>= parse) ∧
    ∀ p, new b = .ok p →
      p.parseT.result = p.parse ∧
      (p.parseT.log.Pairwise fun m m' => m.at ≤ m'.at) ∧
      (∀ m ∈ p.parseT.log, p.pos ≤ m.at ∧ m.at ≤ b.length + 3) ∧
      p.parseT.log.Pairwise Apart ∧
      ∀ depth pos, .enter depth pos ∈ p.parseT.log → depth ≤ b.length / 4 := by
  refine ⟨new_parse_fails b, fun p hnew => ?_⟩
  obtain ⟨hp, hpos⟩ := new_sized hnew
  -- the root is at depth 1, and the counter is larger than the blob
  have hroot := (parser_trails (p.bytes.length + 1)).1 1 hp (by omega)
  have hlen : p.bytes.length ≤ b.length ∧ 16 ≤ b.length := by
    obtain ⟨h16, _, _, _, _, rfl⟩ := new_eq_ok.mp hnew
    exact ⟨List.length_take_le' .., h16⟩
  have hlog : p.parseT.log = (parseNodeT (p.bytes.length + 1) 1 p).log :=
    Traced.bind_log_of_silent fun _ => rfl
  refine ⟨?_, hlog ▸ hroot.trail.sorted, fun m hm => ?_, hlog ▸ hroot.trail.apart,
    fun depth pos hm => ?_⟩
  · rw [parseT, Traced.bind_result, (parserT_result _).1]
    rfl
  · obtain ⟨hlo, hhi⟩ := hroot.trail.inside m (hlog ▸ hm)
    exact ⟨hlo, by omega⟩
  · rw [hlog] at hm
    obtain ⟨_, hroom⟩ := hroot.deep _ hm depth rfl
    have hroom' : p.pos + 4 * depth ≤ pos + 4 * 1 := hroom
    rcases hroot.enters depth pos hm with rfl | hle
    · omega
    · omega

/-- On a blob whose root is not closed the cursor stays below 31. -/
theorem parse_ends_cutBlob : ∀ m ∈ (parseT ⟨cutBlob, 0, 16⟩).log, 16 ≤ m.at ∧ m.at ≤ 31 :=
  ((parse_ends cutBlob).2 _ cutBlob_new).2.2.1

end XnuRs.Loader.FdtParser
