/-
  XnuRs.Xtask.PartitionIoResults

  The partition view is a faithful and confined window onto the disk.

  `Shows` relates a partition view of a device that holds an array of bytes to a
  stand-alone file, and each call keeps it (`call_matches`): the call returns what
  the same call returns on the file when its transfer is cut short, or refused,
  as the device cuts or refuses it.  Outside the window the disk keeps its bytes
  (`Confined`).  `run_window` is the statement for every sequence of calls.
-/

import XnuRs.Xtask.PartitionIo

namespace XnuRs.Xtask.PartitionIo

variable {T ε α : Type} {dev : ByteDevice T ε} {content : T → List UInt8} {cursor : T → Nat}

/-! ## The stand-alone file -/

/-- The offset a seek asks for, before it is checked. -/
def target (f : ByteFile) : SeekFrom → Int
  | .start off => off.toNat
  | .current delta => f.cursor + delta.toInt
  | .fromEnd delta => f.bytes.length + delta.toInt

/-- A call on a stand-alone file.  A transfer moves as many bytes as `answer` says, but none
    at the end of the file, and fails when `answer` is an error. -/
def fileCall (f : ByteFile) (c : Call) (answer : Except ε Nat) :
    Outcome (IoError ε) Reply × ByteFile :=
  match c with
  | .read n _ =>
      if f.cursor = f.bytes.length then
        (.ok (.bytes []), f)
      else
        match answer with
        | .error e => (.err (.inner e), f)
        | .ok k => (.ok (.bytes (f.read n k).1), (f.read n k).2)
  | .write buf _ =>
      if f.cursor = f.bytes.length then
        (.ok (.count 0), f)
      else
        match answer with
        | .error e => (.err (.inner e), f)
        | .ok k => (.ok (.count (f.write buf k).1), (f.write buf k).2)
  | .flush =>
      match answer with
      | .error e => (.err (.inner e), f)
      | .ok _ => (.ok .flushed, f)
  | .seek pos =>
      match f.seek (target f pos) with
      | none => (.err outsidePartition, f)
      | some f' => (.ok (.position f'.cursor), f')

/-- The results of a sequence of calls with their answers, and the file they leave. -/
def fileRun (f : ByteFile) : List (Call × Except ε Nat) →
    List (Outcome (IoError ε) Reply) × ByteFile
  | [] => ([], f)
  | (c, answer) :: cs =>
      let after := fileRun (fileCall f c answer).2 cs
      ((fileCall f c answer).1 :: after.1, after.2)

/-- A call on a file that returns an error leaves the file as it is, and is no panic. -/
theorem fileCall_error {f : ByteFile} {c : Call} {answer : Except ε Nat}
    {fault : Fault (IoError ε)} (h : (fileCall f c answer).1 = .error fault) :
    (fileCall f c answer).2 = f ∧ fault ≠ .panic := by
  have herr : ∀ {e : IoError ε} {r : Outcome (IoError ε) Reply}, r = .err e →
      r = .error fault → fault ≠ .panic := by
    intro e r hr hfault hpanic
    subst hr hpanic
    exact nomatch hfault
  -- a call fails in its own way or the disk's, and neither moves the file
  cases c with
  | read n _ =>
      simp only [fileCall] at h ⊢
      split at h
      · exact nomatch h
      · rename_i hend
        rw [if_neg hend]
        cases answer with
        | error e => exact ⟨rfl, herr rfl h⟩
        | ok k => exact nomatch h
  | write buf _ =>
      simp only [fileCall] at h ⊢
      split at h
      · exact nomatch h
      · rename_i hend
        rw [if_neg hend]
        cases answer with
        | error e => exact ⟨rfl, herr rfl h⟩
        | ok k => exact nomatch h
  | flush =>
      cases answer with
      | error e => exact ⟨rfl, herr rfl h⟩
      | ok k => exact nomatch h
  | seek pos =>
      simp only [fileCall] at h ⊢
      split at h
      · exact ⟨rfl, herr rfl h⟩
      · exact nomatch h

/-! ## What the disk is asked -/

/-- The bytes between the cursor and the end of the partition that a buffer of `n` bytes
    has room for. -/
def room (p : PartitionIo T) (n : Nat) : Nat := min n (p.len.toNat - p.pos.toNat)

/-- The disk's part of a transfer. -/
def ask (dev : ByteDevice T ε) (op : Nat → T → Except ε α × T) (p : PartitionIo T) (n : Nat) :
    Except ε α × T :=
  seekThen dev p.inner (p.base + p.pos) (op (p.room n))

/-- What the disk answers when the call is made: how many bytes it moves, or its error. -/
def answer (dev : ByteDevice T ε) (p : PartitionIo T) : Call → Except ε Nat
  | .read n _ => (ask dev (fun count inner => dev.read inner count) p n).1.map List.length
  | .write buf _ => (ask dev (fun count inner => dev.write inner (buf.take count)) p buf.length).1
  | .flush => (dev.flush p.inner).1.map fun _ => 0
  | .seek _ => .ok 0

/-- The calls of a run, each with the answer of the disk. -/
def answered (dev : ByteDevice T ε) (p : PartitionIo T) : List Call → List (Call × Except ε Nat)
  | [] => []
  | c :: cs => (c, p.answer dev c) :: answered dev (p.call dev c).2 cs

/-! ## The relation between the partition and the file -/

/-- The partition lies on the disk, and `f` is what it shows of it. -/
structure Shows (content : T → List UInt8) (p : PartitionIo T) (f : ByteFile) : Prop where
  fits : p.base.toNat + p.len.toNat < 2 ^ 64
  onDisk : p.base.toNat + p.len.toNat ≤ (content p.inner).length
  cursor : f.cursor = p.pos.toNat
  bytes : f.bytes = window (content p.inner) p.base.toNat p.len.toNat

/-- From `p` to `p'` no byte outside the partition has changed. -/
structure Confined (content : T → List UInt8) (p p' : PartitionIo T) : Prop where
  base : p'.base = p.base
  len : p'.len = p.len
  outside : ∀ i, i < p.base.toNat ∨ p.base.toNat + p.len.toNat ≤ i →
    (content p'.inner)[i]? = (content p.inner)[i]?

/-- The call does to the partition what it does to the file. -/
structure Matches (content : T → List UInt8) (p : PartitionIo T)
    (r : Outcome (IoError ε) Reply × PartitionIo T) (r' : Outcome (IoError ε) Reply × ByteFile) :
    Prop where
  result : r.1 = r'.1
  shows : Shows content r.2 r'.2
  confined : Confined content p r.2

variable {p p' p'' : PartitionIo T} {f : ByteFile} {inner : T} {n : Nat}

namespace Confined

theorem refl (p : PartitionIo T) : Confined content p p := ⟨rfl, rfl, fun _ _ => rfl⟩

theorem trans (h : Confined content p p') (h' : Confined content p' p'') :
    Confined content p p'' := by
  refine ⟨h'.base.trans h.base, h'.len.trans h.len, fun i hi => ?_⟩
  rw [h'.outside i (by rwa [h.base, h.len]), h.outside i hi]

theorem of_keeps (hkeeps : content inner = content p.inner) (pos : UInt64) :
    Confined content p { p with inner, pos } :=
  ⟨rfl, rfl, fun i _ => by rw [hkeeps]⟩

end Confined

namespace Shows

theorem length (h : Shows content p f) : f.bytes.length = p.len.toNat := by
  rw [h.bytes, length_window h.onDisk]

theorem pos_le (h : Shows content p f) : p.pos.toNat ≤ p.len.toNat := by
  rw [← h.cursor, ← h.length]
  exact f.inside

/-- The cursor stands at the end of the partition exactly when it does in the file. -/
theorem atEnd_iff (h : Shows content p f) : p.pos ≥ p.len ↔ f.cursor = f.bytes.length := by
  have hle := h.pos_le
  rw [ge_iff_le, UInt64.le_iff_toNat_le, h.cursor, h.length]
  omega

/-- A call that keeps the bytes of the disk may move the cursor. -/
theorem of_keeps (h : Shows content p f) (hkeeps : content inner = content p.inner)
    {pos : UInt64} {c : Nat} (hpos : c = pos.toNat) (hc : c ≤ f.bytes.length) :
    Shows content { p with inner, pos } ⟨f.bytes, c, hc⟩ where
  fits := h.fits
  onDisk := by
    rw [hkeeps]
    exact h.onDisk
  cursor := hpos
  bytes := by
    rw [hkeeps]
    exact h.bytes

theorem same (h : Shows content p f) (hkeeps : content inner = content p.inner) :
    Shows content { p with inner } f :=
  h.of_keeps hkeeps h.cursor f.inside

/-- The offset of the cursor on the disk. -/
theorem base_add_pos (h : Shows content p f) :
    (p.base + p.pos).toNat = p.base.toNat + f.cursor := by
  have hle := h.pos_le
  have hfits := h.fits
  rw [toNat_add_of_lt (by omega), h.cursor]

theorem moved_eq (h : Shows content p f) (n k : Nat) : f.moved n k = min (p.room n) k := by
  rw [ByteFile.moved, room, h.cursor, h.length]

theorem pos_add (h : Shows content p f) {k : Nat} (hk : k ≤ p.room n) :
    p.pos.toNat + k ≤ p.len.toNat ∧ (p.pos + .ofNat k).toNat = p.pos.toNat + k := by
  have hle := h.pos_le
  have hfits := h.fits
  rw [room] at hk
  have hkNat : (UInt64.ofNat k).toNat = k := toNat_ofNat_of_le (by rw [usizeMax]; omega)
  exact ⟨by omega, by rw [toNat_add_of_lt (by omega), hkNat]⟩

/-- What is written at the cursor stays on the disk. -/
theorem write_fits (h : Shows content p f) {buf : List UInt8} {k : Nat}
    (hk : k ≤ p.room buf.length) :
    (buf.take k).length = k ∧ f.cursor + k ≤ p.len.toNat := by
  rw [List.length_take, h.cursor]
  exact ⟨Nat.min_eq_left (Nat.le_trans hk (Nat.min_le_left ..)), (h.pos_add hk).1⟩

/-- A write on the disk, at the cursor, shows as the same write on the file. -/
theorem wrote (h : Shows content p f) {buf : List UInt8} {k : Nat} (hk : k ≤ p.room buf.length)
    (hcontent : content inner =
      splice (content p.inner) (p.base.toNat + f.cursor) (buf.take k)) :
    Shows content { p with inner, pos := p.pos + .ofNat k } (f.write buf k).2 := by
  obtain ⟨htake, hin⟩ := h.write_fits hk
  have hdisk := h.onDisk
  have hmoved : f.moved buf.length k = k := by
    rw [h.moved_eq, Nat.min_eq_right hk]
  refine ⟨h.fits, ?_, ?_, ?_⟩
  · rw [hcontent, length_splice (by omega)]
    exact hdisk
  · show f.cursor + f.moved buf.length k = (p.pos + .ofNat k).toNat
    rw [hmoved, (h.pos_add hk).2, h.cursor]
  · show splice f.bytes f.cursor (buf.take (f.moved buf.length k)) = _
    rw [hcontent, hmoved, window_splice hdisk (by omega), ← h.bytes]

theorem wrote_confined (h : Shows content p f) {buf : List UInt8} {k : Nat}
    (hk : k ≤ p.room buf.length)
    (hcontent : content inner =
      splice (content p.inner) (p.base.toNat + f.cursor) (buf.take k)) (pos : UInt64) :
    Confined content p { p with inner, pos } := by
  obtain ⟨htake, hin⟩ := h.write_fits hk
  have hdisk := h.onDisk
  refine ⟨rfl, rfl, fun i hi => ?_⟩
  rw [hcontent, getElem?_splice_of_outside (by omega) (by omega)]

end Shows

/-! ## Transfers -/

theorem request_eq (h : Shows content p f) (hn : n ≤ usizeMax) (overflow : String) :
    (p.request n overflow : Outcome (IoError ε) _) = .ok (p.room n, p.base + p.pos) := by
  have hle := h.pos_le
  have hfits := h.fits
  have hsub : checkedSub p.len p.pos = some (p.len - p.pos) := by
    rw [checkedSub, if_pos (UInt64.le_iff_toNat_le.mpr hle)]
  have hmax : u64OfUsize n = some (.ofNat n) := u64OfUsize_eq_some.mpr (toNat_ofNat_of_le hn)
  have hadd : checkedAdd p.base p.pos = some (p.base + p.pos) := by
    rw [checkedAdd, if_pos (by omega)]
  have hcount : (min (p.len - p.pos) (.ofNat n)).toNat = p.room n := by
    rw [toNat_min, UInt64.toNat_sub_of_le _ _ (UInt64.le_iff_toNat_le.mpr hle),
      toNat_ofNat_of_le hn, room, Nat.min_comm]
  rw [request, hsub, hmax, hadd]
  simp only [Outcome.orPanic_some, Outcome.okOr_some, Outcome.ok_bind, usizeOfU64_eq, hcount,
    Outcome.pure_eq_ok]

theorem advance_eq (h : Shows content p f) {k : Nat} (hk : k ≤ p.room n) (overflow : String) :
    (p.advance k overflow : Outcome (IoError ε) _) = .ok (p.pos + .ofNat k) := by
  have hlen := p.len.toNat_lt
  obtain ⟨hle, hpos⟩ := h.pos_add hk
  have hk64 : u64OfUsize k = some (.ofNat k) :=
    u64OfUsize_eq_some.mpr (toNat_ofNat_of_le (by rw [usizeMax]; omega))
  have hkNat : (UInt64.ofNat k).toNat = k := u64OfUsize_eq_some.mp hk64
  rw [advance, hk64, Outcome.okOr_some, Outcome.ok_bind, Outcome.orPanic_eq_ok,
    checkedAdd_eq_some, hpos, hkNat]

/-- A transfer is one question to the disk, unless the cursor stands at the end. -/
theorem transfer_eq (h : Shows content p f) (hn : n ≤ usizeMax) {overflow : String} {nothing : α}
    (moved : α → Nat) {op : Nat → T → Except ε α × T}
    (hmoved : ∀ a, (ask dev op p n).1 = .ok a → moved a ≤ p.room n) :
    transfer dev overflow nothing moved op p n =
      if f.cursor = f.bytes.length then (.ok nothing, p)
      else
        match ask dev op p n with
        | (.error e, inner) => (.err (.inner e), { p with inner })
        | (.ok a, inner) => (.ok a, { p with inner, pos := p.pos + .ofNat (moved a) }) := by
  have hask : seekThen dev p.inner (p.base + p.pos) (op (p.room n)) = ask dev op p n := rfl
  simp only [transfer, request_eq h hn, hask, h.atEnd_iff]
  split
  · rfl
  · rcases hask : ask dev op p n with ⟨_ | a, s⟩
    · rfl
    · have hle : moved a ≤ p.room n := hmoved a (by rw [hask])
      simp only [advance_eq h hle]

/-! ## What the disk does -/

/-- The seek of a transfer puts the disk's cursor where the file has its own. -/
theorem seekThen_cases (hdev : IsByteArray dev content cursor) (h : Shows content p f)
    (op : T → Except ε α × T) :
    (∃ e, (seekThen dev p.inner (p.base + p.pos) op).1 = .error e ∧
      content (seekThen dev p.inner (p.base + p.pos) op).2 = content p.inner) ∨
    ∃ s, content s = content p.inner ∧ cursor s = p.base.toNat + f.cursor ∧
      seekThen dev p.inner (p.base + p.pos) op = op s := by
  have hkeeps := hdev.seek_keeps p.inner (.start (p.base + p.pos))
  have hok := hdev.seek_ok p.inner (p.base + p.pos)
  rcases hseek : dev.seek p.inner (.start (p.base + p.pos)) with ⟨e | r, s⟩
  · rw [hseek] at hkeeps
    exact .inl ⟨e, by simp only [seekThen, hseek], by simpa only [seekThen, hseek] using hkeeps⟩
  · rw [hseek] at hkeeps hok
    refine .inr ⟨s, hkeeps, ?_, by simp only [seekThen, hseek]⟩
    rw [← h.base_add_pos]
    exact hok r rfl

theorem ask_read (hdev : IsByteArray dev content cursor) (h : Shows content p f) (n : Nat) :
    content (ask dev (fun count inner => dev.read inner count) p n).2 = content p.inner ∧
    ∀ bs, (ask dev (fun count inner => dev.read inner count) p n).1 = .ok bs →
      bs.length ≤ p.room n ∧ bs = window f.bytes f.cursor bs.length := by
  rcases seekThen_cases hdev h (fun inner => dev.read inner (p.room n)) with
    ⟨e, herror, hkeeps⟩ | ⟨s, hkeeps, hcursor, hop⟩
  · refine ⟨hkeeps, fun bs hbs => ?_⟩
    rw [ask, herror] at hbs
    exact nomatch hbs
  · rw [ask, hop]
    refine ⟨(hdev.read_keeps s _).trans hkeeps, fun bs hbs => ?_⟩
    obtain ⟨hle, hwindow⟩ := hdev.read_ok s _ bs hbs
    have hpos := (h.pos_add hle).1
    refine ⟨hle, ?_⟩
    rw [h.bytes, window_window (by rw [h.cursor]; exact hpos), ← hcursor, ← hkeeps]
    exact hwindow

theorem ask_write (hdev : IsByteArray dev content cursor) (h : Shows content p f)
    (buf : List UInt8) :
    let r := ask dev (fun count inner => dev.write inner (buf.take count)) p buf.length
    (∀ e, r.1 = .error e → content r.2 = content p.inner) ∧
    ∀ k, r.1 = .ok k → k ≤ p.room buf.length ∧
      content r.2 = splice (content p.inner) (p.base.toNat + f.cursor) (buf.take k) := by
  -- the disk gets as much of the buffer as the partition has room for
  have hroom : (buf.take (p.room buf.length)).length = p.room buf.length := by
    rw [List.length_take, room]
    omega
  rcases seekThen_cases hdev h (fun inner => dev.write inner (buf.take (p.room buf.length))) with
    ⟨e, herror, hkeeps⟩ | ⟨s, hkeeps, hcursor, hop⟩
  · refine ⟨fun _ _ => hkeeps, fun k hk => ?_⟩
    rw [ask, herror] at hk
    exact nomatch hk
  · simp only [ask, hop]
    refine ⟨fun e he => (hdev.write_error s _ e he).trans hkeeps, fun k hk => ?_⟩
    have hpos := (h.pos_add (Nat.le_refl (p.room buf.length))).1
    have hdisk := h.onDisk
    have hfile := h.cursor
    obtain ⟨hle, hwrite⟩ := hdev.write_ok s _ k (by rw [hkeeps, hcursor, hroom]; omega) hk
    rw [hroom] at hle
    rw [List.take_take, Nat.min_eq_left hle] at hwrite
    exact ⟨hle, by rw [hwrite, hkeeps, hcursor]⟩

/-! ## One call -/

theorem read_matches (hdev : IsByteArray dev content cursor) (h : Shows content p f) {n : Nat}
    (hn : n ≤ usizeMax) :
    Matches content p (p.call dev (.read n hn))
      (fileCall f (.read n hn) (p.answer dev (.read n hn))) := by
  obtain ⟨hkeeps, hok⟩ := ask_read hdev h n
  rw [call, read, transfer_eq h hn List.length fun bs hbs => (hok bs hbs).1]
  simp only [fileCall, answer]
  split
  · exact ⟨rfl, h, .refl p⟩
  · rcases hask : ask dev (fun count inner => dev.read inner count) p n with ⟨e | bs, s⟩
    · rw [hask] at hkeeps
      exact ⟨rfl, h.same hkeeps, .of_keeps hkeeps p.pos⟩
    · rw [hask] at hkeeps hok
      obtain ⟨hle, hbs⟩ := hok bs rfl
      have hmoved : f.moved n bs.length = bs.length := by
        rw [h.moved_eq, Nat.min_eq_right hle]
      refine ⟨?_, ?_, .of_keeps hkeeps _⟩
      · show Except.ok (Reply.bytes bs) = .ok (.bytes (window f.bytes f.cursor _))
        rw [hmoved, ← hbs]
      · refine h.of_keeps hkeeps ?_ _
        rw [hmoved, (h.pos_add hle).2, h.cursor]

theorem write_matches (hdev : IsByteArray dev content cursor) (h : Shows content p f)
    {buf : List UInt8} (hbuf : buf.length ≤ usizeMax) :
    Matches content p (p.call dev (.write buf hbuf))
      (fileCall f (.write buf hbuf) (p.answer dev (.write buf hbuf))) := by
  obtain ⟨herror, hok⟩ := ask_write hdev h buf
  rw [call, write, transfer_eq h hbuf id fun k hk => (hok k hk).1]
  simp only [fileCall, answer]
  split
  · exact ⟨rfl, h, .refl p⟩
  · rcases hask : ask dev (fun count inner => dev.write inner (buf.take count)) p buf.length with
      ⟨e | k, s⟩
    · rw [hask] at herror
      have hkeeps := herror e rfl
      exact ⟨rfl, h.same hkeeps, .of_keeps hkeeps p.pos⟩
    · rw [hask] at hok
      obtain ⟨hle, hcontent⟩ := hok k rfl
      have hmoved : f.moved buf.length k = k := by
        rw [h.moved_eq, Nat.min_eq_right hle]
      exact ⟨congrArg (Except.ok ∘ Reply.count) hmoved.symm, h.wrote hle hcontent,
        h.wrote_confined hle hcontent _⟩

theorem flush_matches (hdev : IsByteArray dev content cursor) (h : Shows content p f) :
    Matches content p (p.call dev .flush) (fileCall f .flush (p.answer dev .flush)) := by
  have hkeeps := hdev.flush_keeps p.inner
  simp only [call, flush, fileCall, answer]
  rcases hflush : dev.flush p.inner with ⟨e | u, s⟩
  · rw [hflush] at hkeeps
    exact ⟨rfl, h.same hkeeps, .of_keeps hkeeps p.pos⟩
  · rw [hflush] at hkeeps
    exact ⟨rfl, h.same hkeeps, .of_keeps hkeeps p.pos⟩

/-! ## Seeks -/

theorem displace_eq_ok {origin next : UInt64} {delta : Int64} :
    (displace origin delta : Outcome (IoError ε) _) = .ok next ↔
      (next.toNat : Int) = origin.toNat + delta.toInt := by
  unfold displace
  split
  · rename_i hnonneg
    rw [ge_iff_le, int64_nonneg_iff] at hnonneg
    simp only [Outcome.bind_eq_ok, Outcome.okOr_eq_ok, u64OfI64_eq_some, checkedAdd_eq_some]
    constructor
    · rintro ⟨forward, hforward, hnext⟩
      omega
    · intro hnext
      have hsmall := delta.toInt_lt
      have hforward : (UInt64.ofNat delta.toInt.toNat).toNat = delta.toInt.toNat :=
        toNat_ofNat_of_le (by rw [usizeMax]; omega)
      exact ⟨.ofNat delta.toInt.toNat, by omega, by omega⟩
  · rename_i hneg
    rw [ge_iff_le, int64_nonneg_iff] at hneg
    rw [Outcome.okOr_eq_ok, checkedSub_eq_some, unsignedAbs_toNat]
    omega

theorem displace_fails (origin : UInt64) (delta : Int64) :
    Outcome.FailsOnlyWith (outsidePartition : IoError ε) (displace origin delta) := by
  unfold displace
  refine .ite (fun hnonneg => ?_) fun _ => .okOr _
  rw [ge_iff_le, int64_nonneg_iff] at hnonneg
  have hsmall := delta.toInt_lt
  have hforward : u64OfI64 delta = some (.ofNat delta.toInt.toNat) := by
    rw [u64OfI64_eq_some, toNat_ofNat_of_le (by rw [usizeMax]; omega)]
    omega
  rw [hforward, Outcome.okOr_some, Outcome.ok_bind]
  exact .okOr _

/-- The offset a seek computes is the one it asks for; there is none when that is negative
    or does not fit a word. -/
theorem next_cases (h : Shows content p f) (pos : SeekFrom) :
    (∃ next : UInt64, (p.next pos : Outcome (IoError ε) _) = .ok next ∧
      (next.toNat : Int) = target f pos) ∨
    (p.next pos : Outcome (IoError ε) _) = .err outsidePartition ∧
      ∀ next : UInt64, (next.toNat : Int) ≠ target f pos := by
  -- a signed distance from the cursor, or from the end
  have hdisplace : ∀ (origin : UInt64) (delta : Int64),
      (∃ next : UInt64, (displace origin delta : Outcome (IoError ε) _) = .ok next ∧
        (next.toNat : Int) = origin.toNat + delta.toInt) ∨
      (displace origin delta : Outcome (IoError ε) _) = .err outsidePartition ∧
        ∀ next : UInt64, (next.toNat : Int) ≠ origin.toNat + delta.toInt := by
    intro origin delta
    rcases (displace_fails (ε := ε) origin delta).cases with ⟨next, hnext⟩ | hnone
    · exact .inl ⟨next, hnext, displace_eq_ok.mp hnext⟩
    · refine .inr ⟨hnone, fun next hnext => ?_⟩
      rw [displace_eq_ok.mpr hnext] at hnone
      exact nomatch hnone
  cases pos with
  | start off => exact .inl ⟨off, rfl, rfl⟩
  | current delta =>
      rw [target, h.cursor]
      exact hdisplace p.pos delta
  | fromEnd delta =>
      rw [target, h.length]
      exact hdisplace p.len delta

theorem seek_matches (h : Shows content p f) (pos : SeekFrom) (answer : Except ε Nat) :
    Matches content p (p.call dev (.seek pos)) (fileCall f (.seek pos) answer) := by
  have hlen := h.length
  simp only [call, seek, fileCall, ByteFile.seek]
  rcases next_cases (ε := ε) h pos with ⟨next, hnext, htarget⟩ | ⟨hnone, hno⟩
  · rw [hnext]
    -- the target is a word: it is inside the partition, or behind it
    by_cases hin : next > p.len
    · have hbeyond : ¬ (0 ≤ target f pos ∧ target f pos ≤ f.bytes.length) := by
        rw [gt_iff_lt, UInt64.lt_iff_toNat_lt] at hin
        omega
      rw [dif_neg hbeyond]
      simp only [if_pos hin]
      exact ⟨rfl, h, .refl p⟩
    · have hinside : 0 ≤ target f pos ∧ target f pos ≤ f.bytes.length := by
        rw [gt_iff_lt, UInt64.lt_iff_toNat_lt] at hin
        omega
      have hcursor : (target f pos).toNat = next.toNat := by omega
      rw [dif_pos hinside]
      simp only [if_neg hin]
      refine ⟨?_, ?_, .of_keeps rfl next⟩
      · exact congrArg (Except.ok ∘ Reply.position) hcursor.symm
      · exact h.of_keeps rfl hcursor _
  · have hbeyond : ¬ (0 ≤ target f pos ∧ target f pos ≤ f.bytes.length) := by
      rintro ⟨hlow, hhigh⟩
      have hlt := p.len.toNat_lt
      apply hno (.ofNat (target f pos).toNat)
      rw [toNat_ofNat_of_le (by rw [usizeMax]; omega)]
      omega
    rw [hnone, dif_neg hbeyond]
    exact ⟨rfl, h, .refl p⟩

/-- Each call does to the partition what it does to the file. -/
theorem call_matches (hdev : IsByteArray dev content cursor) (h : Shows content p f) (c : Call) :
    Matches content p (p.call dev c) (fileCall f c (p.answer dev c)) := by
  cases c with
  | read n fits => exact read_matches hdev h fits
  | write buf fits => exact write_matches hdev h fits
  | flush => exact flush_matches hdev h
  | seek pos => exact seek_matches h pos _

/-! ## Runs of calls -/

theorem run_matches (hdev : IsByteArray dev content cursor) (calls : List Call) :
    ∀ {p : PartitionIo T} {f : ByteFile}, Shows content p f →
      (p.run dev calls).1 = (fileRun f (p.answered dev calls)).1 ∧
      Shows content (p.run dev calls).2 (fileRun f (p.answered dev calls)).2 ∧
      Confined content p (p.run dev calls).2 := by
  induction calls with
  | nil =>
      intro p f h
      exact ⟨rfl, h, .refl p⟩
  | cons c cs ih =>
      intro p f h
      have hcall := call_matches hdev h c
      obtain ⟨hresults, hshows, hconfined⟩ := ih hcall.shows
      refine ⟨?_, hshows, hcall.confined.trans hconfined⟩
      show _ :: _ = _ :: _
      rw [hcall.result, hresults]

/-- A view of the partition from its start, on a disk that holds it. -/
theorem new_shows {base len : UInt64} (hfits : base.toNat + len.toNat < 2 ^ 64)
    (hdisk : base.toNat + len.toNat ≤ (content inner).length) :
    Shows content (new inner base len)
      ⟨window (content inner) base.toNat len.toNat, 0, Nat.zero_le _⟩ :=
  ⟨hfits, hdisk, rfl, rfl⟩

/-- After every sequence of calls the partition has returned what a stand-alone file of its
    bytes returns when the transfers are cut short or refused in the same way, and shows the
    same bytes at the same cursor, which never passes its end.  The disk outside the partition
    is untouched, and a call that returns an error changes neither the cursor nor the bytes. -/
theorem run_window (hdev : IsByteArray dev content cursor) (inner : T) (base len : UInt64)
    (hfits : base.toNat + len.toNat < 2 ^ 64)
    (hdisk : base.toNat + len.toNat ≤ (content inner).length) (calls : List Call) :
    let p := new inner base len
    let after := (p.run dev calls).2
    let file := fileRun ⟨window (content inner) base.toNat len.toNat, 0, Nat.zero_le _⟩
      (p.answered dev calls)
    (p.run dev calls).1 = file.1 ∧
    after.pos ≤ len ∧ after.pos.toNat = file.2.cursor ∧
    window (content after.inner) base.toNat len.toNat = file.2.bytes ∧
    (∀ i, i < base.toNat ∨ base.toNat + len.toNat ≤ i →
      (content after.inner)[i]? = (content inner)[i]?) ∧
    ∀ c fault, (after.call dev c).1 = .error fault →
      fault ≠ .panic ∧ (after.call dev c).2.pos = after.pos ∧
      window (content (after.call dev c).2.inner) base.toNat len.toNat =
        window (content after.inner) base.toNat len.toNat := by
  intro p after file
  -- the run shows the file after it, and stays inside the partition
  obtain ⟨hresults, hshows, hconfined⟩ := run_matches hdev calls (new_shows hfits hdisk)
  have hbase : after.base = base := hconfined.base
  have hlen : after.len = len := hconfined.len
  have hbytes := hshows.bytes
  rw [show (p.run dev calls).2 = after from rfl, hbase, hlen] at hbytes
  refine ⟨hresults, ?_, hshows.cursor.symm, hbytes.symm, hconfined.outside,
    fun c fault hfault => ?_⟩
  · rw [UInt64.le_iff_toNat_le, ← hlen]
    exact hshows.pos_le
  · have hcall := call_matches hdev hshows c
    rw [show (p.run dev calls).2 = after from rfl] at hcall
    rw [hcall.result] at hfault
    obtain ⟨hsame, hpanic⟩ := fileCall_error hfault
    have hnext := hcall.shows
    rw [hsame] at hnext
    have hbase' := hcall.confined.base.trans hbase
    have hlen' := hcall.confined.len.trans hlen
    refine ⟨hpanic, ?_, ?_⟩
    · rw [← UInt64.toNat_inj, ← hnext.cursor]
      exact hshows.cursor
    · have hbytes' := hnext.bytes
      rw [hbase', hlen'] at hbytes'
      exact hbytes'.symm.trans hbytes

/-! ## A disk that moves two bytes at a time -/

/-- A disk in memory with its cursor.  It moves at most two bytes in a call, and refuses to
    be flushed. -/
def shortDisk : ByteDevice (List UInt8 × Nat) Unit where
  read := fun (bytes, at') n => (.ok (window bytes at' (min n 2)), bytes, at' + min n 2)
  write := fun (bytes, at') data =>
    (.ok (min data.length 2), splice bytes at' (data.take (min data.length 2)),
      at' + min data.length 2)
  flush := fun s => (.error (), s)
  seek := fun (bytes, at') pos =>
    match pos with
    | .start offset => (.ok offset, bytes, offset.toNat)
    | .current _ | .fromEnd _ => (.error (), bytes, at')

theorem shortDisk_isByteArray : IsByteArray shortDisk Prod.fst Prod.snd where
  read_keeps _ _ := rfl
  read_ok := by
    rintro ⟨bytes, at'⟩ n bs hbs
    obtain rfl := Except.ok.inj hbs
    refine ⟨?_, ?_⟩
    · rw [window, List.length_take]
      omega
    · simp only [window]
      rw [List.length_take, ← List.take_eq_take_min]
  write_error _ _ _ h := nomatch h
  write_ok := by
    rintro ⟨bytes, at'⟩ data k _ hk
    obtain rfl := Except.ok.inj hk
    exact ⟨Nat.min_le_left .., rfl⟩
  flush_keeps _ := rfl
  seek_keeps := by
    rintro ⟨bytes, at'⟩ pos
    cases pos with
    | start | current | fromEnd => rfl
  seek_ok _ _ _ _ := rfl

/-- Transfers cut short by the disk and by the end of the partition, seeks on both sides of
    its bounds, and a failing flush. -/
def someCalls : List Call :=
  [.write [1, 2, 3] (by decide), .seek (.fromEnd (-1)), .read 5 (by decide), .read 5 (by decide),
    .seek (.current Int64.minValue), .seek (.start 5), .flush, .seek (.current (-4)),
    .read 5 (by decide)]

theorem run_window_shortDisk :
    let p := new ([10, 11, 12, 13, 14, 15, 16, 17, 18, 19], 0) 3 4
    let after := (p.run shortDisk someCalls).2
    (p.run shortDisk someCalls).1 =
      [.ok (.count 2), .ok (.position 3), .ok (.bytes [16]), .ok (.bytes []),
        .err outsidePartition, .err outsidePartition, .err (.inner ()), .ok (.position 0),
        .ok (.bytes [1, 2])] ∧
    after.inner.1 = [10, 11, 12, 1, 2, 15, 16, 17, 18, 19] ∧ after.pos ≤ 4 :=
  have h := run_window shortDisk_isByteArray ([10, 11, 12, 13, 14, 15, 16, 17, 18, 19], 0) 3 4
    (by decide) (by decide) someCalls
  ⟨by decide +kernel, by decide +kernel, h.2.1⟩

end XnuRs.Xtask.PartitionIo
