/-
  XnuRs.Lib.Bytes

  Byte strings as lists: fixed-width integers in both byte orders, bounds-checked
  slices, the scan for a terminating NUL, and UTF-8 text.

  A position in a byte string is a `Nat`.  `usizeAdd` is the checked addition of
  a 64-bit position; every other bound is the length of the list.
-/

import XnuRs.Lib.Outcome
import Mathlib.Algebra.Group.Nat.Defs
import Mathlib.Data.List.TakeWhile

namespace XnuRs

/-! ## Positions -/

/-- The largest 64-bit position. -/
def usizeMax : Nat := 2 ^ 64 - 1

/-- The largest number of bytes one object or buffer can hold. -/
def isizeMax : Nat := 2 ^ 63 - 1

/-- Checked addition of two positions. -/
def usizeAdd (a b : Nat) : Option Nat :=
  if a + b ≤ usizeMax then some (a + b) else none

theorem usizeAdd_eq_some {a b c : Nat} :
    usizeAdd a b = some c ↔ c = a + b ∧ a + b ≤ usizeMax := by
  unfold usizeAdd
  split
  · simp [*, eq_comm]
  · simp [*]

theorem usizeAdd_of_le {a b : Nat} (h : a + b ≤ usizeMax) : usizeAdd a b = some (a + b) :=
  usizeAdd_eq_some.mpr ⟨rfl, h⟩

/-- `u32::try_from`: a number that fits 32 bits. -/
def u32TryFrom (n : Nat) : Option Nat := if n < 2 ^ 32 then some n else none

theorem u32TryFrom_eq_some {n m : Nat} : u32TryFrom n = some m ↔ m = n ∧ n < 2 ^ 32 := by
  by_cases h : n < 2 ^ 32
  · rw [u32TryFrom, if_pos h, Option.some.injEq]
    exact ⟨fun heq => ⟨heq.symm, h⟩, fun ⟨heq, _⟩ => heq.symm⟩
  · rw [u32TryFrom, if_neg h]
    exact ⟨fun hnone => (nomatch hnone), fun ⟨_, hlt⟩ => absurd hlt h⟩

/-! ## Fixed-width integers -/

/-- The `w` little-endian bytes of `n` (its low `8 * w` bits). -/
def leBytes : Nat → Nat → List UInt8
  | 0, _ => []
  | w + 1, n => UInt8.ofNat n :: leBytes w (n / 256)

/-- The number whose little-endian bytes are the list. -/
def leToNat : List UInt8 → Nat
  | [] => 0
  | b :: rest => b.toNat + 256 * leToNat rest

/-- The `w` big-endian bytes of `n`. -/
def beBytes (w n : Nat) : List UInt8 := (leBytes w n).reverse

/-- The number whose big-endian bytes are the list. -/
def beToNat (bs : List UInt8) : Nat := leToNat bs.reverse

@[simp] theorem leBytes_length (w n : Nat) : (leBytes w n).length = w := by
  induction w generalizing n with
  | zero => rfl
  | succ w ih => simp [leBytes, ih]

@[simp] theorem beBytes_length (w n : Nat) : (beBytes w n).length = w := by
  simp [beBytes]

/-- A number below `256 ^ w` survives its `w` little-endian bytes. -/
theorem leToNat_leBytes {w n : Nat} (h : n < 256 ^ w) : leToNat (leBytes w n) = n := by
  induction w generalizing n with
  | zero => simp only [Nat.pow_zero] at h; simp only [leBytes, leToNat]; omega
  | succ w ih =>
      have hdiv : n / 256 < 256 ^ w := by
        rw [Nat.pow_succ] at h
        exact Nat.div_lt_of_lt_mul (by omega)
      simp only [leBytes, leToNat, ih hdiv, UInt8.toNat_ofNat']
      omega

theorem beToNat_beBytes {w n : Nat} (h : n < 256 ^ w) : beToNat (beBytes w n) = n := by
  simp only [beToNat, beBytes, List.reverse_reverse]
  exact leToNat_leBytes h

theorem leToNat_lt (bs : List UInt8) : leToNat bs < 256 ^ bs.length := by
  induction bs with
  | nil => simp [leToNat]
  | cons b rest ih =>
      have hb : b.toNat < 256 := b.toNat_lt
      simp only [leToNat, List.length_cons, Nat.pow_succ]
      omega

theorem beToNat_lt (bs : List UInt8) : beToNat bs < 256 ^ bs.length := by
  have h := leToNat_lt bs.reverse
  rwa [List.length_reverse] at h

/-! ## Slices -/

/-- The checked slice `bs.get(s..e)`. -/
def getRange (bs : List UInt8) (s e : Nat) : Option (List UInt8) :=
  if s ≤ e ∧ e ≤ bs.length then some ((bs.drop s).take (e - s)) else none

/-- The checked slice `bs.get(s..)`. -/
def getFrom (bs : List UInt8) (s : Nat) : Option (List UInt8) :=
  if s ≤ bs.length then some (bs.drop s) else none

/-- The slice `bs[..e]`, which panics when it is out of range. -/
def indexTo {ε : Type} (bs : List UInt8) (e : Nat) : Outcome ε (List UInt8) :=
  if e ≤ bs.length then .ok (bs.take e) else .panic

/-- The slice `bs[s..e]`, which panics when it is out of range. -/
def indexRange {ε : Type} (bs : List UInt8) (s e : Nat) : Outcome ε (List UInt8) :=
  .orPanic (getRange bs s e)

theorem getRange_eq_some {bs r : List UInt8} {s e : Nat} :
    getRange bs s e = some r ↔
      (s ≤ e ∧ e ≤ bs.length) ∧ r = (bs.drop s).take (e - s) := by
  unfold getRange
  split
  · simp [*, eq_comm]
  · simp [*]

theorem indexTo_of_le {ε : Type} {bs : List UInt8} {e : Nat} (h : e ≤ bs.length) :
    (indexTo bs e : Outcome ε _) = .ok (bs.take e) := if_pos h

theorem getRange_length {bs r : List UInt8} {s e : Nat} (h : getRange bs s e = some r) :
    r.length = e - s := by
  obtain ⟨⟨_, _⟩, rfl⟩ := getRange_eq_some.mp h
  rw [List.length_take, List.length_drop]
  omega

theorem getFrom_eq_some {bs r : List UInt8} {s : Nat} :
    getFrom bs s = some r ↔ s ≤ bs.length ∧ r = bs.drop s := by
  unfold getFrom
  split
  · simp [*, eq_comm]
  · simp [*]

/-- The middle part of a concatenation, cut out by position. -/
theorem slice_of_eq (pre mid post : List UInt8) {bs : List UInt8} {s n : Nat}
    (h : bs = pre ++ mid ++ post)
    (hs : s = pre.length) (hn : n = mid.length) : (bs.drop s).take n = mid := by
  rw [h, hs, hn, List.append_assoc, List.drop_left, List.take_left]

/-- Read four bytes at `offset`, checking the bounds, and decode them; the error
    `()` stands for a missing value.  Each byte is indexed, which would panic on
    a slice of another length. -/
def readU32 (decode : List UInt8 → Nat) (bytes : List UInt8) (offset : Nat) :
    Outcome Unit Nat := do
  let stop ← .okOr (usizeAdd offset 4) ()
  let data ← .okOr (getRange bytes offset stop) ()
  match data with
  | [d0, d1, d2, d3] => .ok (decode [d0, d1, d2, d3])
  | _ => .panic

theorem exists_four {α : Type} {l : List α} (h : l.length = 4) :
    ∃ a b c d, l = [a, b, c, d] := by
  obtain ⟨a, l, rfl⟩ := List.exists_cons_of_length_eq_add_one h
  obtain ⟨b, l, rfl⟩ := List.exists_cons_of_length_eq_add_one (Nat.succ.inj h)
  obtain ⟨c, l, rfl⟩ := List.exists_cons_of_length_eq_add_one (Nat.succ.inj (Nat.succ.inj h))
  obtain ⟨d, rfl⟩ := List.length_eq_one_iff.mp (Nat.succ.inj (Nat.succ.inj (Nat.succ.inj h)))
  exact ⟨a, b, c, d, rfl⟩

theorem readU32_eq_ok {decode : List UInt8 → Nat} {bytes : List UInt8} {offset v : Nat} :
    readU32 decode bytes offset = .ok v ↔
      offset + 4 ≤ bytes.length ∧ offset + 4 ≤ usizeMax ∧
        v = decode ((bytes.drop offset).take 4) := by
  simp only [readU32, Outcome.bind_eq_ok, Outcome.okOr_eq_ok, usizeAdd_eq_some,
    getRange_eq_some]
  constructor
  · rintro ⟨_, ⟨rfl, hmax⟩, data, ⟨⟨_, hlen⟩, hdata⟩, hv⟩
    rw [Nat.add_sub_cancel_left] at hdata
    rw [← hdata]
    split at hv
    · exact ⟨hlen, hmax, (Except.ok.inj hv).symm⟩
    · exact absurd hv Outcome.panic_ne_ok
  · rintro ⟨hlen, hmax, rfl⟩
    refine ⟨_, ⟨rfl, hmax⟩, _, ⟨⟨by omega, hlen⟩, rfl⟩, ?_⟩
    rw [Nat.add_sub_cancel_left]
    -- the conversion to an array of four cannot fail
    have h4 : ((bytes.drop offset).take 4).length = 4 := by
      rw [List.length_take, List.length_drop]
      omega
    obtain ⟨d0, d1, d2, d3, hfour⟩ := exists_four h4
    rw [hfour]

/-- The four indexings of `readU32` are in range. -/
theorem readU32_fails (decode : List UInt8 → Nat) (bytes : List UInt8) (offset : Nat) :
    Outcome.FailsOnlyWith () (readU32 decode bytes offset) := by
  refine .bind (.okOr _) fun stop hstop => .bind (.okOr _) fun data hdata => ?_
  rw [Outcome.okOr_eq_ok, usizeAdd_eq_some] at hstop
  rw [Outcome.okOr_eq_ok] at hdata
  have h4 : data.length = 4 := by
    rw [getRange_length hdata, hstop.1]
    omega
  obtain ⟨d0, d1, d2, d3, rfl⟩ := exists_four h4
  exact .ok _

/-! ## Growable buffers -/

/-- Append a slice to a growable buffer.  A buffer cannot grow past `isizeMax`
    bytes: the reservation panics. -/
def extendFromSlice {ε : Type} (out bs : List UInt8) : Outcome ε (List UInt8) :=
  if out.length + bs.length ≤ isizeMax then .ok (out ++ bs) else .panic

theorem extendFromSlice_eq_ok {ε : Type} {out bs r : List UInt8} :
    (extendFromSlice out bs : Outcome ε _) = .ok r ↔
      r = out ++ bs ∧ out.length + bs.length ≤ isizeMax := by
  unfold extendFromSlice
  split
  · simp [*, eq_comm]
  · simp [*]

/-- `f` appends `enc` to every aligned buffer that has room for it when `fits`
    holds, and fails otherwise; `enc` keeps the buffer aligned. -/
structure Appends {ε : Type} (align : Nat) (f : List UInt8 → Outcome ε (List UInt8))
    (fits : Prop) (enc : List UInt8) : Prop where
  aligned : fits → enc.length % align = 0
  eq_ok : ∀ {out r : List UInt8}, out.length % align = 0 → out.length ≤ isizeMax →
    (f out = .ok r ↔ fits ∧ out.length + enc.length ≤ isizeMax ∧ r = out ++ enc)

namespace Appends

variable {ε : Type} {align : Nat} {f g : List UInt8 → Outcome ε (List UInt8)}
  {P Q : Prop} {enc enc' : List UInt8}

/-- Appending nothing. -/
theorem nil : Appends align (fun out => (.ok out : Outcome ε _)) True [] where
  aligned _ := by simp
  eq_ok := by
    intro out r _ hmax
    simp [hmax, eq_comm]

/-- One appender after the other. -/
theorem seq (hf : Appends align f P enc) (hg : Appends align g Q enc') :
    Appends align (fun out => f out >>= g) (P ∧ Q) (enc ++ enc') where
  aligned h := by
    rw [List.length_append, Nat.add_mod, hf.aligned h.1, hg.aligned h.2]
    simp
  eq_ok := by
    intro out r hal hmax
    have hnext : P → (out ++ enc).length % align = 0 := fun hP => by
      rw [List.length_append, Nat.add_mod, hal, hf.aligned hP]
      simp
    -- both writers append, so the second finds the output of the first aligned
    rw [Outcome.bind_eq_ok]
    constructor
    · rintro ⟨_, hfirst, hsecond⟩
      obtain ⟨hP, hroom, rfl⟩ := (hf.eq_ok hal hmax).mp hfirst
      rw [← List.length_append] at hroom
      obtain ⟨hQ, hlen, rfl⟩ := (hg.eq_ok (hnext hP) hroom).mp hsecond
      refine ⟨⟨hP, hQ⟩, ?_, List.append_assoc ..⟩
      rw [List.length_append] at hlen ⊢
      omega
    · rintro ⟨⟨hP, hQ⟩, hlen, rfl⟩
      rw [List.length_append] at hlen
      have hroom : (out ++ enc).length ≤ isizeMax := by
        rw [List.length_append]
        omega
      refine ⟨out ++ enc, (hf.eq_ok hal hmax).mpr ⟨hP, by omega, rfl⟩,
        (hg.eq_ok (hnext hP) hroom).mpr ⟨hQ, ?_, (List.append_assoc ..).symm⟩⟩
      rw [List.length_append]
      omega

/-- What it means to fit may be restated. -/
theorem congr_fits (h : Appends align f P enc) (hPQ : P ↔ Q) : Appends align f Q enc :=
  propext hPQ ▸ h

end Appends

/-! ## The terminating NUL -/

/-- The part of a byte string before its first NUL (all of it if there is none). -/
def beforeNul (bs : List UInt8) : List UInt8 := bs.takeWhile (· != 0)

theorem zero_notMem_beforeNul (bs : List UInt8) : (0 : UInt8) ∉ beforeNul bs := by
  intro h
  have hne := List.mem_takeWhile_imp (p := fun b : UInt8 => b != 0) h
  simp at hne

/-- Text without a NUL is what stands before the NUL that terminates it. -/
theorem beforeNul_append {text rest : List UInt8} (h : (0 : UInt8) ∉ text) :
    beforeNul (text ++ 0 :: rest) = text := by
  unfold beforeNul
  rw [List.takeWhile_append_of_pos]
  · simp
  · intro b hb
    have : b ≠ 0 := fun h0 => h (h0 ▸ hb)
    simpa using this

/-- Behind a NUL anything may follow. -/
theorem beforeNul_append_of_mem {bs rest : List UInt8} (h : (0 : UInt8) ∈ bs) :
    beforeNul (bs ++ rest) = beforeNul bs := by
  induction bs with
  | nil => cases h
  | cons b bs ih =>
      unfold beforeNul at ih ⊢
      by_cases hb : b = 0
      · simp [hb]
      · have hmem : (0 : UInt8) ∈ bs := (List.mem_cons.mp h).resolve_left (Ne.symm hb)
        simp [hb, ih hmem]

theorem beforeNul_length_le (bs : List UInt8) : (beforeNul bs).length ≤ bs.length :=
  (List.takeWhile_sublist _).length_le

/-- Text that is terminated is shorter than what it stands in. -/
theorem beforeNul_length_lt {bs : List UInt8} (h : (0 : UInt8) ∈ bs) :
    (beforeNul bs).length < bs.length := by
  have hsplit : beforeNul bs ++ bs.dropWhile (· != 0) = bs := List.takeWhile_append_dropWhile
  have hrest : bs.dropWhile (· != 0) ≠ [] := by
    intro hnil
    rw [hnil, List.append_nil] at hsplit
    exact zero_notMem_beforeNul bs (hsplit.symm ▸ h)
  have hpos := List.length_pos_iff.mpr hrest
  have hlen := congrArg List.length hsplit
  rw [List.length_append] at hlen
  omega

theorem take_beforeNul_length (bs : List UInt8) :
    bs.take (beforeNul bs).length = beforeNul bs := by
  have h : beforeNul bs ++ bs.dropWhile (· != 0) = bs := List.takeWhile_append_dropWhile
  calc bs.take (beforeNul bs).length
      = (beforeNul bs ++ bs.dropWhile (· != 0)).take (beforeNul bs).length := by rw [h]
    _ = beforeNul bs := List.take_left

/-- `position` of the first NUL, and the whole length without one, cut the same
    prefix as `beforeNul`. -/
theorem take_findIdx_zero (bs : List UInt8) :
    bs.take ((bs.findIdx? (· == 0)).getD bs.length) = beforeNul bs := by
  induction bs with
  | nil => rfl
  | cons b rest ih =>
      unfold beforeNul at ih ⊢
      rw [List.findIdx?_cons, List.takeWhile_cons]
      by_cases hb : b = 0
      · simp [hb]
      · simp only [beq_iff_eq, hb, if_false, bne_iff_ne, ne_eq, not_false_eq_true, if_true]
        cases hidx : rest.findIdx? (· == 0) with
        | none => simpa [hidx] using ih
        | some i => simpa [hidx] using ih

theorem findIdx_zero_le (bs : List UInt8) :
    (bs.findIdx? (· == 0)).getD bs.length ≤ bs.length := by
  cases hidx : bs.findIdx? (· == 0) with
  | none => simp
  | some i =>
      have hi := (List.findIdx?_eq_some_iff_findIdx_eq.mp hidx).1
      simp only [Option.getD_some]
      omega

/-! ## UTF-8 text -/

/-- `str::from_utf8`: the text a byte string spells, if it is valid UTF-8. -/
def fromUtf8 (bs : List UInt8) : Option String := String.fromUTF8? bs.toByteArray

/-- `str::as_bytes`. -/
def asBytes (s : String) : List UInt8 := s.toByteArray.data.toList

theorem toByteArray_asBytes (s : String) : (asBytes s).toByteArray = s.toByteArray := by
  apply ByteArray.ext
  simp [asBytes]

theorem asBytes_append (s t : String) : asBytes (s ++ t) = asBytes s ++ asBytes t := by
  rw [asBytes, String.toByteArray_append, ByteArray.toList_data_append]
  rfl

/-- The bytes of a text spell it. -/
@[simp] theorem fromUtf8_asBytes (s : String) : fromUtf8 (asBytes s) = some s := by
  unfold fromUtf8 String.fromUTF8?
  rw [toByteArray_asBytes, dif_pos s.isValidUTF8]
  rfl

/-- A byte string that spells a text is the bytes of that text. -/
theorem asBytes_of_fromUtf8 {bs : List UInt8} {s : String} (h : fromUtf8 bs = some s) :
    asBytes s = bs := by
  unfold fromUtf8 String.fromUTF8? at h
  split at h
  · obtain rfl := Option.some.inj h
    simp [asBytes, String.fromUTF8]
  · cases h

end XnuRs
