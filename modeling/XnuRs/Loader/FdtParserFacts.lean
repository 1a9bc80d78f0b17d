/-
  XnuRs.Loader.FdtParserFacts

  One spec for each reading step of the FDT parser: what the blob has to hold
  for the step to succeed, and where it leaves the cursor.

  The blob of a parser is the first `totalsize` bytes of its input, a 32-bit
  number, so no position overflows; the specs assume that bound (`hb`).
-/

import XnuRs.Loader.FdtParser

namespace XnuRs.Loader

/-- The properties the loader gives a node: without one called `name`, the node's
    own name comes first, and `/` stands for the empty name. -/
def withName (name : String) (props : List AdtProp) : List AdtProp :=
  if ∃ prop ∈ props, prop.name = "name" then props
  else ⟨"name", if name = "" then asBytes "/" else asBytes name⟩ :: props

namespace FdtParser

/-- The big-endian word at a position. -/
def wordAt (bytes : List UInt8) (pos : Nat) : Nat := beToNat ((bytes.drop pos).take 4)

theorem wordAt_lt (bytes : List UInt8) (pos : Nat) : wordAt bytes pos < 2 ^ 32 := by
  have hlt := beToNat_lt ((bytes.drop pos).take 4)
  have hlen : ((bytes.drop pos).take 4).length ≤ 4 := List.length_take_le ..
  calc wordAt bytes pos < 256 ^ ((bytes.drop pos).take 4).length := hlt
    _ ≤ 256 ^ 4 := Nat.pow_le_pow_right (by decide) hlen
    _ = 2 ^ 32 := by decide

theorem readBeU32_eq_ok {bytes : List UInt8} {offset v : Nat} :
    readBeU32 bytes offset = .ok v ↔
      offset + 4 ≤ bytes.length ∧ offset + 4 ≤ usizeMax ∧ v = wordAt bytes offset :=
  readU32_eq_ok

/-! ## The header -/

/-- Everything `FdtParser::new` accepts. -/
theorem new_eq_ok {b : List UInt8} {p : FdtParser} :
    new b = .ok p ↔
      16 ≤ b.length ∧ wordAt b 0 = fdtMagic ∧ wordAt b 4 ≤ b.length ∧
      wordAt b 8 < wordAt b 4 ∧ wordAt b 12 < wordAt b 4 ∧
      p = ⟨b.take (wordAt b 4), wordAt b 12, wordAt b 8⟩ := by
  have h16 : (12 + 4 : Nat) ≤ usizeMax := by decide
  -- the four header fields are words of the first 16 bytes
  unfold new
  simp only [Outcome.bind_eq_ok, Outcome.mapErr_eq_ok, readBeU32_eq_ok]
  constructor
  · rintro ⟨_, ⟨_, _, rfl⟩, h⟩
    split at h
    · exact absurd h Outcome.err_ne_ok
    rename_i hmagic
    simp only [Outcome.bind_eq_ok, Outcome.mapErr_eq_ok, readBeU32_eq_ok] at h
    obtain ⟨_, ⟨_, _, rfl⟩, _, ⟨_, _, rfl⟩, _, ⟨hlen, _, rfl⟩, h⟩ := h
    split at h
    · exact absurd h Outcome.err_ne_ok
    rename_i hrange
    rw [indexTo_of_le (by omega)] at h
    exact ⟨hlen, Decidable.of_not_not hmagic, by omega, by omega, by omega,
      (Except.ok.inj h).symm⟩
  · rintro ⟨hlen, hmagic, hle, hstruct, hstrings, rfl⟩
    refine ⟨wordAt b 0, ⟨by omega, by omega, rfl⟩, ?_⟩
    rw [if_neg (not_not_intro hmagic)]
    simp only [Outcome.bind_eq_ok, Outcome.mapErr_eq_ok, readBeU32_eq_ok]
    refine ⟨wordAt b 4, ⟨by omega, by omega, rfl⟩, wordAt b 8, ⟨by omega, by omega, rfl⟩,
      wordAt b 12, ⟨by omega, by omega, rfl⟩, ?_⟩
    rw [if_neg (by omega), indexTo_of_le hle]
    rfl

/-! ## Tokens -/

variable {p q : FdtParser}

theorem peekToken_eq_ok {v : Nat} (hb : p.bytes.length < 2 ^ 32) :
    p.peekToken = .ok v ↔ p.pos + 4 ≤ p.bytes.length ∧ v = wordAt p.bytes p.pos := by
  have hmax : (2 ^ 32 : Nat) ≤ usizeMax := by decide
  rw [peekToken, Outcome.mapErr_eq_ok, readBeU32_eq_ok]
  constructor
  · rintro ⟨hlen, _, hv⟩
    exact ⟨hlen, hv⟩
  · rintro ⟨hlen, hv⟩
    exact ⟨hlen, by omega, hv⟩

theorem readToken_eq_ok {v : Nat} (hb : p.bytes.length < 2 ^ 32) :
    p.readToken = .ok (v, q) ↔
      p.pos + 4 ≤ p.bytes.length ∧ v = wordAt p.bytes p.pos ∧ q = { p with pos := p.pos + 4 } := by
  have hmax : (2 ^ 32 : Nat) ≤ usizeMax := by decide
  simp only [readToken, Outcome.bind_eq_ok, peekToken_eq_ok hb, Outcome.okOr_eq_ok,
    usizeAdd_eq_some]
  constructor
  · rintro ⟨_, ⟨hlen, rfl⟩, _, ⟨rfl, _⟩, h⟩
    obtain ⟨rfl, rfl⟩ := Prod.mk.inj (Except.ok.inj h)
    exact ⟨hlen, rfl, rfl⟩
  · rintro ⟨hlen, rfl, rfl⟩
    exact ⟨_, ⟨hlen, rfl⟩, _, ⟨rfl, by omega⟩, rfl⟩

theorem expectToken_eq_ok {expected : Nat} (hb : p.bytes.length < 2 ^ 32) :
    p.expectToken expected = .ok q ↔
      p.pos + 4 ≤ p.bytes.length ∧ wordAt p.bytes p.pos = expected ∧
        q = { p with pos := p.pos + 4 } := by
  simp only [expectToken, Outcome.bind_eq_ok, Prod.exists, readToken_eq_ok hb]
  constructor
  · rintro ⟨_, _, ⟨hlen, rfl, rfl⟩, h⟩
    split at h
    · rename_i htoken
      exact ⟨hlen, htoken, (Except.ok.inj h).symm⟩
    · exact absurd h Outcome.err_ne_ok
  · rintro ⟨hlen, rfl, rfl⟩
    exact ⟨_, _, ⟨hlen, rfl, rfl⟩, if_pos rfl⟩

theorem alignPos_eq_ok (hpos : p.pos < 2 ^ 33) :
    p.alignPos = .ok q ↔ q = { p with pos := (p.pos + 3) / 4 * 4 } := by
  have hmax : (2 ^ 33 + 3 : Nat) ≤ usizeMax := by decide
  rw [alignPos, usizeAdd_of_le (by omega), Outcome.okOr_some, Outcome.ok_bind]
  simp [eq_comm]

/-! ## Strings -/

/-- The scan stops at the first NUL. -/
theorem scanNul_eq_ok {bytes : List UInt8} {start stop : Nat}
    (hmax : start + bytes.length ≤ usizeMax) :
    scanNul bytes start = .ok stop ↔
      (0 : UInt8) ∈ bytes ∧ stop = start + (beforeNul bytes).length := by
  induction bytes generalizing start with
  | nil => simp [scanNul]
  | cons byte rest ih =>
      rw [List.length_cons] at hmax
      unfold scanNul
      -- the loop stops at a NUL, and otherwise has one byte less to scan
      by_cases hz : byte = 0
      · subst hz
        simp [beforeNul, eq_comm]
      · have hcut : (beforeNul (byte :: rest)).length = (beforeNul rest).length + 1 := by
          simp [beforeNul, hz]
        have hmem : (0 : UInt8) ∈ byte :: rest ↔ (0 : UInt8) ∈ rest := by
          simp [Ne.symm hz]
        rw [if_pos hz, usizeAdd_of_le (by omega), Outcome.okOr_some, Outcome.ok_bind,
          ih (by omega), hcut, hmem]
        constructor
        · rintro ⟨h0, hstop⟩
          exact ⟨h0, by omega⟩
        · rintro ⟨h0, hstop⟩
          exact ⟨h0, by omega⟩

/-- The bytes the scan has passed are those before the NUL. -/
theorem getRange_beforeNul {bytes : List UInt8} {start : Nat} (hstart : start ≤ bytes.length) :
    getRange bytes start (start + (beforeNul (bytes.drop start)).length) =
      some (beforeNul (bytes.drop start)) := by
  have hle := beforeNul_length_le (bytes.drop start)
  rw [List.length_drop] at hle
  refine getRange_eq_some.mpr ⟨⟨by omega, by omega⟩, ?_⟩
  rw [Nat.add_sub_cancel_left, take_beforeNul_length]

theorem lt_length_of_mem_drop {bytes : List UInt8} {start : Nat} {byte : UInt8}
    (h : byte ∈ bytes.drop start) : start < bytes.length := by
  by_contra hge
  rw [List.drop_of_length_le (by omega)] at h
  cases h

/-- Everything `string_at` accepts. -/
theorem stringAt_eq_ok {offset : Nat} {name : String} (hb : p.bytes.length < 2 ^ 32)
    (hstart : p.stringsOffset + offset < 2 ^ 33) :
    p.stringAt offset = .ok name ↔
      (0 : UInt8) ∈ p.bytes.drop (p.stringsOffset + offset) ∧
      fromUtf8 (beforeNul (p.bytes.drop (p.stringsOffset + offset))) = some name := by
  -- offsets have 32 bits each, far below the largest `usize`
  have hmax : (2 ^ 34 : Nat) ≤ usizeMax := by decide
  have hlen : (p.bytes.drop (p.stringsOffset + offset)).length ≤ p.bytes.length := by
    rw [List.length_drop]
    omega
  rw [stringAt, usizeAdd_of_le (by omega), Outcome.okOr_some, Outcome.ok_bind]
  simp only [Outcome.bind_eq_ok, scanNul_eq_ok (show p.stringsOffset + offset +
    (p.bytes.drop (p.stringsOffset + offset)).length ≤ usizeMax by omega), indexRange,
    Outcome.orPanic_eq_ok, Outcome.okOr_eq_ok]
  constructor
  · rintro ⟨_, ⟨hnul, rfl⟩, text, htext, hutf8⟩
    rw [getRange_beforeNul (Nat.le_of_lt (lt_length_of_mem_drop hnul))] at htext
    obtain rfl := Option.some.inj htext
    exact ⟨hnul, hutf8⟩
  · rintro ⟨hnul, hutf8⟩
    exact ⟨_, ⟨hnul, rfl⟩, _, getRange_beforeNul (Nat.le_of_lt (lt_length_of_mem_drop hnul)),
      hutf8⟩

/-- Everything `read_cstr` accepts. -/
theorem readCstr_eq_ok {name : String} (hb : p.bytes.length < 2 ^ 32) (hpos : p.pos < 2 ^ 33) :
    p.readCstr = .ok (name, q) ↔
      (0 : UInt8) ∈ p.bytes.drop p.pos ∧
      fromUtf8 (beforeNul (p.bytes.drop p.pos)) = some name ∧
      q = { p with pos := p.pos + (beforeNul (p.bytes.drop p.pos)).length + 1 } := by
  have hmax : (2 ^ 34 : Nat) ≤ usizeMax := by decide
  have hlen : (p.bytes.drop p.pos).length ≤ p.bytes.length := by
    rw [List.length_drop]
    omega
  have hcut := beforeNul_length_le (p.bytes.drop p.pos)
  simp only [readCstr, Outcome.bind_eq_ok, scanNul_eq_ok (show p.pos +
    (p.bytes.drop p.pos).length ≤ usizeMax by omega), indexRange, Outcome.orPanic_eq_ok,
    Outcome.okOr_eq_ok, usizeAdd_eq_some]
  constructor
  · rintro ⟨_, ⟨hnul, rfl⟩, _, ⟨rfl, _⟩, text, htext, _, hutf8, h⟩
    rw [getRange_beforeNul (Nat.le_of_lt (lt_length_of_mem_drop hnul))] at htext
    obtain rfl := Option.some.inj htext
    obtain ⟨rfl, rfl⟩ := Prod.mk.inj (Except.ok.inj h)
    exact ⟨hnul, hutf8, rfl⟩
  · rintro ⟨hnul, hutf8, rfl⟩
    exact ⟨_, ⟨hnul, rfl⟩, _, ⟨rfl, by omega⟩, _,
      getRange_beforeNul (Nat.le_of_lt (lt_length_of_mem_drop hnul)), _, hutf8, rfl⟩

/-! ## Properties -/

theorem newOwned_eq_ok {name : String} {value : List UInt8} {prop : AdtProp} :
    AdtProp.newOwned name value = .ok prop ↔
      (asBytes name).length < 32 ∧ prop = ⟨name, value⟩ := by
  unfold AdtProp.newOwned
  split
  · simp only [Outcome.err_ne_ok, false_iff]
    rintro ⟨hlt, _⟩
    omega
  · rename_i hlt
    constructor
    · intro h
      exact ⟨by omega, (Except.ok.inj h).symm⟩
    · rintro ⟨_, rfl⟩
      rfl

/-- Everything `parse_prop` accepts: a property token, the two words, a name in
    the strings block and a value in the blob. -/
theorem parseProp_eq_ok {prop : AdtProp} (hb : p.bytes.length < 2 ^ 32)
    (hs : p.stringsOffset < 2 ^ 32) :
    p.parseProp = .ok (prop, q) ↔
      p.pos + 12 + wordAt p.bytes (p.pos + 4) ≤ p.bytes.length ∧
      wordAt p.bytes p.pos = fdtProp ∧
      (0 : UInt8) ∈ p.bytes.drop (p.stringsOffset + wordAt p.bytes (p.pos + 8)) ∧
      fromUtf8 (beforeNul (p.bytes.drop (p.stringsOffset + wordAt p.bytes (p.pos + 8)))) =
        some prop.name ∧
      (asBytes prop.name).length < 32 ∧
      prop.value = (p.bytes.drop (p.pos + 12)).take (wordAt p.bytes (p.pos + 4)) ∧
      q = { p with pos := (p.pos + 12 + wordAt p.bytes (p.pos + 4) + 3) / 4 * 4 } := by
  have hmax : (2 ^ 34 : Nat) ≤ usizeMax := by decide
  have hlen := wordAt_lt p.bytes (p.pos + 4)
  have hoff := wordAt_lt p.bytes (p.pos + 8)
  -- the fields of a property are the words at 4 and 8, then its value
  unfold parseProp
  constructor
  · intro h
    obtain ⟨p₁, h₁, h⟩ := Outcome.bind_eq_ok.mp h
    obtain ⟨h4, htoken, rfl⟩ := (expectToken_eq_ok hb).mp h₁
    obtain ⟨⟨len, p₂⟩, h₂, h⟩ := Outcome.bind_eq_ok.mp h
    obtain ⟨h8, rfl, rfl⟩ := (readToken_eq_ok (p := { p with pos := p.pos + 4 }) hb).mp h₂
    obtain ⟨⟨nameoff, p₃⟩, h₃, h⟩ := Outcome.bind_eq_ok.mp h
    obtain ⟨h12, rfl, rfl⟩ := (readToken_eq_ok (p := { p with pos := p.pos + 8 }) hb).mp h₃
    obtain ⟨name, hname, h⟩ := Outcome.bind_eq_ok.mp h
    obtain ⟨hnul, hutf8⟩ :=
      (stringAt_eq_ok (p := { p with pos := p.pos + 12 }) hb (by dsimp only; omega)).mp hname
    obtain ⟨stop, hstop, h⟩ := Outcome.bind_eq_ok.mp h
    rw [Outcome.okOr_eq_ok, usizeAdd_eq_some] at hstop
    obtain ⟨rfl, _⟩ := hstop
    obtain ⟨value, hvalue, h⟩ := Outcome.bind_eq_ok.mp h
    rw [Outcome.okOr_eq_ok, getRange_eq_some] at hvalue
    obtain ⟨⟨_, hfit⟩, rfl⟩ := hvalue
    -- the cursor is behind the value, then at the next multiple of 4
    obtain ⟨p₄, h₄, h⟩ := Outcome.bind_eq_ok.mp h
    dsimp only at h₄ hfit
    rw [alignPos_eq_ok (by dsimp only; omega)] at h₄
    obtain ⟨prop', hprop, h⟩ := Outcome.bind_eq_ok.mp h
    obtain ⟨hshort, rfl⟩ := newOwned_eq_ok.mp hprop
    obtain ⟨rfl, rfl⟩ := Prod.mk.inj (Except.ok.inj h)
    refine ⟨hfit, htoken, hnul, hutf8, hshort, ?_, h₄⟩
    show (p.bytes.drop (p.pos + 12)).take (_ - _) = _
    rw [Nat.add_sub_cancel_left]
  · rintro ⟨hfit, htoken, hnul, hutf8, hshort, hvalue, rfl⟩
    -- each step by its own lemma, in the order of the source
    have h₁ : p.expectToken fdtProp = .ok { p with pos := p.pos + 4 } :=
      (expectToken_eq_ok hb).mpr ⟨by omega, htoken, rfl⟩
    have h₂ : readToken { p with pos := p.pos + 4 } =
        .ok (wordAt p.bytes (p.pos + 4), { p with pos := p.pos + 8 }) :=
      (readToken_eq_ok (p := { p with pos := p.pos + 4 }) hb).mpr
        ⟨by dsimp only; omega, rfl, rfl⟩
    have h₃ : readToken { p with pos := p.pos + 8 } =
        .ok (wordAt p.bytes (p.pos + 8), { p with pos := p.pos + 12 }) :=
      (readToken_eq_ok (p := { p with pos := p.pos + 8 }) hb).mpr
        ⟨by dsimp only; omega, rfl, rfl⟩
    have hname : stringAt { p with pos := p.pos + 12 } (wordAt p.bytes (p.pos + 8)) =
        .ok prop.name :=
      (stringAt_eq_ok (p := { p with pos := p.pos + 12 }) hb (by dsimp only; omega)).mpr
        ⟨hnul, hutf8⟩
    have hslice : getRange p.bytes (p.pos + 12) (p.pos + 12 + wordAt p.bytes (p.pos + 4)) =
        some prop.value := by
      refine getRange_eq_some.mpr ⟨⟨by omega, hfit⟩, ?_⟩
      rw [Nat.add_sub_cancel_left, hvalue]
    have halign : alignPos { p with pos := p.pos + 12 + wordAt p.bytes (p.pos + 4) } =
        .ok { p with pos := (p.pos + 12 + wordAt p.bytes (p.pos + 4) + 3) / 4 * 4 } :=
      (alignPos_eq_ok (by dsimp only; omega)).mpr rfl
    simp only [h₁, h₂, h₃, hname, usizeAdd_of_le (show p.pos + 12 + wordAt p.bytes (p.pos + 4) ≤
      usizeMax by omega), hslice, halign, newOwned_eq_ok.mpr ⟨hshort, rfl⟩, Outcome.ok_bind,
      Outcome.okOr_some]

/-! ## The name of a node -/

theorem insertName_eq (name : String) (props : List AdtProp) :
    insertName name props = .ok (withName name props) := by
  have hany : props.any (fun prop => prop.name == "name") = true ↔
      ∃ prop ∈ props, prop.name = "name" := by simp
  have hshort : ¬ (asBytes "name").length ≥ 32 := by decide
  unfold insertName withName
  by_cases h : ∃ prop ∈ props, prop.name = "name"
  · rw [if_pos h, hany.mpr h]
    rfl
  · rw [if_neg h, Bool.eq_false_iff.mpr (mt hany.mp h)]
    simp [AdtProp.new, AdtProp.newOwned, hshort, String.isEmpty_iff]

/-! ## One round of the loop -/

section Rounds

variable {fuel : Nat} {props : List AdtProp} {children : List AdtNode}

theorem parseItems_prop {prop : AdtProp} (hpeek : p.peekToken = .ok fdtProp)
    (hprop : p.parseProp = .ok (prop, q)) :
    parseItems (fuel + 1) p props children = parseItems fuel q (props ++ [prop]) children := by
  rw [parseItems, hpeek, Outcome.ok_bind, if_pos rfl, hprop]
  rfl

theorem parseItems_child {child : AdtNode} (hpeek : p.peekToken = .ok fdtBeginNode)
    (hchild : parseNode fuel p = .ok (child, q)) :
    parseItems (fuel + 1) p props children = parseItems fuel q props (children ++ [child]) := by
  rw [parseItems, hpeek, Outcome.ok_bind, if_neg (by decide), if_pos rfl, hchild]
  rfl

theorem parseItems_endNode {value : Nat} (hpeek : p.peekToken = .ok fdtEndNode)
    (hread : p.readToken = .ok (value, q)) :
    parseItems (fuel + 1) p props children = .ok (props, children, q) := by
  rw [parseItems, hpeek, Outcome.ok_bind, if_neg (by decide), if_neg (by decide), if_pos rfl,
    hread]
  rfl

theorem parseItems_nop {value : Nat} (hpeek : p.peekToken = .ok fdtNop)
    (hread : p.readToken = .ok (value, q)) :
    parseItems (fuel + 1) p props children = parseItems fuel q props children := by
  rw [parseItems, hpeek, Outcome.ok_bind, if_neg (by decide), if_neg (by decide),
    if_neg (by decide), if_pos rfl, hread]
  rfl

end Rounds

end FdtParser
end XnuRs.Loader
