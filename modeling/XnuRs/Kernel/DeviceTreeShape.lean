/-
  XnuRs.Kernel.DeviceTreeShape

  How a node of the Apple device tree lies in the slice it is read from.

  `child_at` and `total_len` walk the same offsets: `childOffset i` is where
  child `i` starts, and one behind the last child the node ends.  With it the
  two functions get one spec each (`childAt_eq_ok`, `totalLen_eq_ok`), which
  need no more than the total lengths of the children.  A node ends inside its
  slice (`totalLen_inside`).
-/

import XnuRs.Kernel.DeviceTreeFacts
import Mathlib.Algebra.BigOperators.Group.List.Basic
import Mathlib.Algebra.GroupWithZero.Nat

namespace XnuRs.Kernel.Node

variable {node child : Node} {i n count offset : Nat}

/-! ## Where the children start -/

/-- Where child `i` starts: behind the properties and the children before it. -/
def childOffset (node : Node) : Nat → Outcome Unit Nat
  | 0 => node.propertiesEnd
  | i + 1 => do
    let offset ← node.childOffset i
    let bytes ← .okOr (getFrom node.bytes offset) ()
    let childLen ← totalLen ⟨bytes⟩
    .okOr (usizeAdd offset childLen) ()

theorem childOffset_succ_eq_ok {stop : Nat} :
    node.childOffset (i + 1) = .ok stop ↔
      ∃ offset childLen, node.childOffset i = .ok offset ∧ offset ≤ node.bytes.length ∧
        totalLen ⟨node.bytes.drop offset⟩ = .ok childLen ∧ stop = offset + childLen ∧
        offset + childLen ≤ usizeMax := by
  simp only [childOffset, Outcome.bind_eq_ok, Outcome.okOr_eq_ok, getFrom_eq_some,
    usizeAdd_eq_some]
  constructor
  · rintro ⟨offset, hoffset, _, ⟨hle, rfl⟩, childLen, hlen, rfl, hmax⟩
    exact ⟨offset, childLen, hoffset, hle, hlen, rfl, hmax⟩
  · rintro ⟨offset, childLen, hoffset, hle, hlen, rfl, hmax⟩
    exact ⟨offset, hoffset, _, ⟨hle, rfl⟩, childLen, hlen, rfl, hmax⟩

/-- A child that has a place comes behind children that have one. -/
theorem childOffset_of_le {j stop : Nat} (hij : i ≤ j) (h : node.childOffset j = .ok stop) :
    ∃ offset, node.childOffset i = .ok offset := by
  induction j generalizing stop with
  | zero =>
      obtain rfl := Nat.le_zero.mp hij
      exact ⟨stop, h⟩
  | succ j ih =>
      rcases Nat.lt_or_eq_of_le hij with hlt | rfl
      · obtain ⟨_, _, hprev, _⟩ := childOffset_succ_eq_ok.mp h
        exact ih (Nat.le_of_lt_succ hlt) hprev
      · exact ⟨stop, h⟩

theorem childOffset_mono {j start stop : Nat} (hij : i ≤ j) (hi : node.childOffset i = .ok start)
    (hj : node.childOffset j = .ok stop) : start ≤ stop := by
  induction j generalizing stop with
  | zero =>
      obtain rfl := Nat.le_zero.mp hij
      exact Nat.le_of_eq (Except.ok.inj (hi.symm.trans hj))
  | succ j ih =>
      rcases Nat.lt_or_eq_of_le hij with hlt | rfl
      · obtain ⟨offset, _, hprev, _, _, rfl, _⟩ := childOffset_succ_eq_ok.mp hj
        exact (ih (Nat.le_of_lt_succ hlt) hprev).trans (Nat.le_add_right ..)
      · exact Nat.le_of_eq (Except.ok.inj (hi.symm.trans hj))

/-! ## The two functions -/

/-- The loop of `child_at` finds the wanted child at its offset, once it has measured it. -/
theorem childAtLoop_eq_ok {wanted remaining index : Nat} (hwanted : index ≤ wanted)
    (hindex : node.childOffset index = .ok offset) :
    childAtLoop totalLen node wanted remaining index offset = .ok child ↔
      wanted < index + remaining ∧ ∃ start, node.childOffset wanted = .ok start ∧
        start ≤ node.bytes.length ∧ child = ⟨node.bytes.drop start⟩ ∧
        ∃ childLen, totalLen child = .ok childLen := by
  induction remaining generalizing index offset with
  | zero =>
      simp only [childAtLoop, Outcome.err_ne_ok, false_iff]
      rintro ⟨hlt, _⟩
      omega
  | succ remaining ih =>
      simp only [childAtLoop, Outcome.bind_eq_ok, Outcome.okOr_eq_ok, getFrom_eq_some]
      by_cases heq : index = wanted
      · subst heq
        simp only [if_true, Except.ok.injEq, hindex, exists_eq_left']
        constructor
        · rintro ⟨_, ⟨hle, rfl⟩, childLen, hlen, rfl⟩
          exact ⟨by omega, hle, rfl, childLen, hlen⟩
        · rintro ⟨_, hle, rfl, childLen, hlen⟩
          exact ⟨_, ⟨hle, rfl⟩, childLen, hlen, rfl⟩
      · simp only [if_neg heq, Outcome.bind_eq_ok, Outcome.okOr_eq_ok, usizeAdd_eq_some]
        constructor
        · rintro ⟨_, ⟨hle, rfl⟩, childLen, hlen, _, ⟨rfl, hmax⟩, hrest⟩
          have hnext := childOffset_succ_eq_ok.mpr ⟨_, _, hindex, hle, hlen, rfl, hmax⟩
          obtain ⟨hlt, hfound⟩ := (ih (by omega) hnext).mp hrest
          exact ⟨by omega, hfound⟩
        · rintro ⟨hlt, start, hstart, hfound⟩
          -- the next child has a place because the wanted one has
          obtain ⟨stop, hstop⟩ := childOffset_of_le (i := index + 1) (by omega) hstart
          obtain ⟨_, childLen, hindex', hle, hlen, rfl, hmax⟩ := childOffset_succ_eq_ok.mp hstop
          obtain rfl := Except.ok.inj (hindex.symm.trans hindex')
          exact ⟨_, ⟨hle, rfl⟩, childLen, hlen, _, ⟨rfl, hmax⟩,
            (ih (by omega) hstop).mpr ⟨by omega, start, hstart, hfound⟩⟩

/-- Everything `child_at` returns: a child below the count, at its offset. -/
theorem childAt_eq_ok :
    node.childAt i = .ok child ↔
      ∃ count start childLen, node.childCount = .ok count ∧ i < count ∧
        node.childOffset i = .ok start ∧ start ≤ node.bytes.length ∧
        child = ⟨node.bytes.drop start⟩ ∧ totalLen child = .ok childLen := by
  constructor
  · intro h
    obtain ⟨offset, hend, h⟩ := Outcome.bind_eq_ok.mp h
    obtain ⟨count, hcount, h⟩ := Outcome.bind_eq_ok.mp h
    obtain ⟨hlt, start, hstart, hle, hchild, childLen, hlen⟩ :=
      (childAtLoop_eq_ok (Nat.zero_le i) hend).mp h
    exact ⟨count, start, childLen, hcount, by omega, hstart, hle, hchild, hlen⟩
  · rintro ⟨count, start, childLen, hcount, hlt, hstart, hle, hchild, hlen⟩
    obtain ⟨offset, hend⟩ := childOffset_of_le (Nat.zero_le i) hstart
    refine Outcome.bind_eq_ok.mpr ⟨offset, hend, Outcome.bind_eq_ok.mpr ⟨count, hcount, ?_⟩⟩
    exact (childAtLoop_eq_ok (Nat.zero_le i) hend).mpr
      ⟨by omega, start, hstart, hle, hchild, childLen, hlen⟩

theorem totalLenLoop_eq_ok {remaining index : Nat} (hcount : node.childCount = .ok count)
    (hle : index + remaining ≤ count) (hindex : node.childOffset index = .ok offset) :
    totalLenLoop totalLen node remaining index offset = .ok n ↔
      node.childOffset (index + remaining) = .ok n := by
  induction remaining generalizing index offset with
  | zero => rw [totalLenLoop, Nat.add_zero, hindex]
  | succ remaining ih =>
      -- a round measures the child at `index`, which ends where the next one starts
      have hshift : index + (remaining + 1) = index + 1 + remaining := by omega
      rw [hshift]
      constructor
      · intro h
        obtain ⟨child, hchild, h⟩ := Outcome.bind_eq_ok.mp h
        obtain ⟨childLen, hlen, h⟩ := Outcome.bind_eq_ok.mp h
        obtain ⟨stop, hstop, hrest⟩ := Outcome.bind_eq_ok.mp h
        rw [Outcome.okOr_eq_ok, usizeAdd_eq_some] at hstop
        obtain ⟨_, start, _, _, _, hstart, hstartLe, rfl, _⟩ := childAt_eq_ok.mp hchild
        obtain rfl := Except.ok.inj (hindex.symm.trans hstart)
        have hnext := childOffset_succ_eq_ok.mpr ⟨_, _, hindex, hstartLe, hlen, hstop⟩
        exact (ih (by omega) hnext).mp hrest
      · intro h
        obtain ⟨stop, hstop⟩ := childOffset_of_le (i := index + 1) (by omega) h
        obtain ⟨_, childLen, hindex', hstartLe, hlen, hsum⟩ := childOffset_succ_eq_ok.mp hstop
        obtain rfl := Except.ok.inj (hindex.symm.trans hindex')
        have hchild : node.childAtWith totalLen index = .ok ⟨node.bytes.drop offset⟩ :=
          childAt_eq_ok.mpr
            ⟨count, offset, childLen, hcount, by omega, hindex, hstartLe, rfl, hlen⟩
        refine Outcome.bind_eq_ok.mpr ⟨_, hchild, Outcome.bind_eq_ok.mpr ⟨childLen, hlen, ?_⟩⟩
        refine Outcome.bind_eq_ok.mpr ⟨stop, ?_, (ih (by omega) hstop).mpr h⟩
        rw [Outcome.okOr_eq_ok, usizeAdd_eq_some]
        exact hsum

/-- Everything `total_len` returns: the place behind the last child. -/
theorem totalLen_eq_ok :
    node.totalLen = .ok n ↔
      ∃ count, node.childCount = .ok count ∧ node.childOffset count = .ok n := by
  rw [totalLen_eq]
  constructor
  · intro h
    obtain ⟨offset, hend, h⟩ := Outcome.bind_eq_ok.mp h
    obtain ⟨count, hcount, h⟩ := Outcome.bind_eq_ok.mp h
    have hfirst : node.childOffset 0 = _ := hend
    have hlast := (totalLenLoop_eq_ok hcount (by omega) hfirst).mp h
    rw [Nat.zero_add] at hlast
    exact ⟨count, hcount, hlast⟩
  · rintro ⟨count, hcount, hlast⟩
    obtain ⟨offset, hend⟩ := childOffset_of_le (Nat.zero_le count) hlast
    refine Outcome.bind_eq_ok.mpr ⟨offset, hend, Outcome.bind_eq_ok.mpr ⟨count, hcount, ?_⟩⟩
    refine (totalLenLoop_eq_ok hcount (by omega) hend).mpr ?_
    rw [Nat.zero_add]
    exact hlast

/-- Past the last child `child_at` finds nothing, once all children are measured. -/
theorem childAtLoop_past {wanted remaining index : Nat} (hwanted : index + remaining ≤ wanted)
    (hindex : node.childOffset index = .ok offset)
    (hlast : node.childOffset (index + remaining) = .ok n) :
    childAtLoop totalLen node wanted remaining index offset = .err () := by
  induction remaining generalizing index offset with
  | zero => rfl
  | succ remaining ih =>
      have hshift : index + (remaining + 1) = index + 1 + remaining := by omega
      rw [hshift] at hlast
      obtain ⟨stop, hstop⟩ := childOffset_of_le (i := index + 1) (by omega) hlast
      obtain ⟨_, childLen, hindex', hle, hlen, hsum⟩ := childOffset_succ_eq_ok.mp hstop
      obtain rfl := Except.ok.inj (hindex.symm.trans hindex')
      rw [childAtLoop, getFrom_eq_some.mpr ⟨hle, rfl⟩, Outcome.okOr_some, Outcome.ok_bind, hlen,
        Outcome.ok_bind, if_neg (by omega), usizeAdd_eq_some.mpr hsum, Outcome.okOr_some,
        Outcome.ok_bind, ih (by omega) hstop hlast]

theorem childAt_past (h : node.totalLen = .ok n) (hcount : node.childCount = .ok count)
    (hi : count ≤ i) : node.childAt i = .err () := by
  obtain ⟨count', hcount', hlast⟩ := totalLen_eq_ok.mp h
  obtain rfl := Except.ok.inj (hcount.symm.trans hcount')
  obtain ⟨offset, hend⟩ := childOffset_of_le (Nat.zero_le count) hlast
  have hend' : node.propertiesEnd = .ok offset := hend
  rw [childAt, childAtWith, hend', Outcome.ok_bind, hcount, Outcome.ok_bind]
  exact childAtLoop_past (by omega) hend (by rw [Nat.zero_add]; exact hlast)

/-- The total lengths of the children before `i` say where child `i` starts. -/
theorem childOffset_lengths {pend stop : Nat} (hend : node.propertiesEnd = .ok pend)
    (h : node.childOffset count = .ok stop) :
    ∃ lens : List Nat, lens.length = count ∧
      (∀ i, i ≤ lens.length → node.childOffset i = .ok (pend + (lens.take i).sum)) ∧
      ∀ i (hi : i < lens.length),
        totalLen ⟨node.bytes.drop (pend + (lens.take i).sum)⟩ = .ok lens[i] := by
  induction count generalizing stop with
  | zero =>
      refine ⟨[], rfl, fun i hi => ?_, fun i hi => absurd hi (Nat.not_lt_zero i)⟩
      obtain rfl := Nat.le_zero.mp hi
      exact hend
  | succ k ih =>
      obtain ⟨offset, childLen, hprev, hle, hlen, rfl, hmax⟩ := childOffset_succ_eq_ok.mp h
      obtain ⟨lens, rfl, hoffsets, hlens⟩ := ih hprev
      have hlast := hoffsets lens.length (Nat.le_refl _)
      rw [List.take_length] at hlast
      obtain rfl := Except.ok.inj (hprev.symm.trans hlast)
      -- the last child ends at `stop`; the others keep their places
      refine ⟨lens ++ [childLen], by simp, fun i hi => ?_, fun i hi => ?_⟩
      · rw [List.length_append, List.length_singleton] at hi
        rcases Nat.lt_or_eq_of_le hi with hlt | rfl
        · rw [List.take_append_of_le_length (Nat.le_of_lt_succ hlt)]
          exact hoffsets i (Nat.le_of_lt_succ hlt)
        · rw [List.take_of_length_le (by simp), List.sum_append, List.sum_singleton,
            ← Nat.add_assoc]
          exact h
      · rw [List.length_append, List.length_singleton] at hi
        rw [List.take_append_of_le_length (Nat.le_of_lt_succ hi)]
        rcases Nat.lt_or_eq_of_le (Nat.le_of_lt_succ hi) with hlt | rfl
        · rw [List.getElem_append_left hlt]
          exact hlens i hlt
        · rw [List.take_length, List.getElem_concat_length rfl]
          exact hlen

/-! ## Sizes -/

/-- A place inside a slice, at a multiple of 4 behind the counts. -/
def Inside (b : List UInt8) (offset : Nat) : Prop :=
  8 ≤ offset ∧ offset ≤ b.length ∧ offset % 4 = 0

theorem propertiesEndLoop_inside {b : List UInt8} {remaining stop : Nat} (hoffset : Inside b offset)
    (h : propertiesEndLoop b remaining offset = .ok stop) :
    Inside b stop ∧ offset + 36 * remaining ≤ stop := by
  refine ⟨?_, propertiesEndLoop_ge h⟩
  induction remaining generalizing offset with
  | zero => exact Except.ok.inj h ▸ hoffset
  | succ remaining ih =>
      obtain ⟨p, hp, hrest⟩ := Outcome.bind_eq_ok.mp h
      obtain ⟨hge, hle, hmod⟩ := Property.parse_bounds hp
      have h8 := hoffset.1
      exact ih ⟨by omega, hle, hmod⟩ hrest

/-- The children start inside the slice, behind the counts and the properties. -/
theorem propertiesEnd_inside {stop props : Nat} (hprops : node.propertyCount = .ok props)
    (hcount : node.childCount = .ok count) (h : node.propertiesEnd = .ok stop) :
    Inside node.bytes stop ∧ 8 + 36 * props ≤ stop := by
  rw [propertiesEnd, hprops, Outcome.ok_bind] at h
  have hlong := (readLeU32_eq_ok.mp hcount).1
  exact propertiesEndLoop_inside ⟨Nat.le_refl _, hlong, rfl⟩ h

/-- The end of a node is inside its slice: by induction over the length of the slice,
    and for one slice over its children. -/
theorem totalLen_inside (h : node.totalLen = .ok n) : Inside node.bytes n := by
  -- by the length of the bytes: every child has fewer
  induction hlen : node.bytes.length using Nat.strong_induction_on generalizing node n with
  | _ len ih =>
      obtain ⟨count, hcount, hlast⟩ := totalLen_eq_ok.mp h
      -- an offset is in the node because each child before it is in its own bytes
      have hoffsets : ∀ i stop, node.childOffset i = .ok stop → Inside node.bytes stop := by
        intro i
        induction i with
        | zero =>
            intro stop hstop
            have hend : node.propertiesEnd = _ := hstop
            obtain ⟨props, hprops, _⟩ := Outcome.bind_eq_ok.mp hend
            exact (propertiesEnd_inside hprops hcount hstop).1
        | succ i ihi =>
            intro stop hstop
            obtain ⟨offset, childLen, hoffset, hle, hchild, rfl, _⟩ :=
              childOffset_succ_eq_ok.mp hstop
            obtain ⟨h8, _, hmod⟩ := ihi offset hoffset
            have hdrop : (node.bytes.drop offset).length = node.bytes.length - offset :=
              List.length_drop
            obtain ⟨hchild8, hchildLe, hchildMod⟩ := ih _ (by omega) hchild hdrop
            dsimp only at hchildLe
            exact ⟨by omega, by omega, by omega⟩
      exact hoffsets count n hlast

/-- Each child that has a place adds 8 bytes at least. -/
theorem childOffset_inside {stop props : Nat} (hprops : node.propertyCount = .ok props)
    (hcount : node.childCount = .ok count) (h : node.childOffset i = .ok stop) :
    Inside node.bytes stop ∧ 8 + 36 * props + 8 * i ≤ stop := by
  induction i generalizing stop with
  | zero => exact propertiesEnd_inside hprops hcount h
  | succ i ih =>
      obtain ⟨offset, childLen, hoffset, hle, hchild, rfl, _⟩ := childOffset_succ_eq_ok.mp h
      obtain ⟨⟨h8, _, hmod⟩, hge⟩ := ih hoffset
      obtain ⟨hchild8, hchildLe, hchildMod⟩ := totalLen_inside hchild
      have hdrop : (node.bytes.drop offset).length = node.bytes.length - offset := List.length_drop
      dsimp only at hchildLe
      exact ⟨⟨by omega, by omega, by omega⟩, by omega⟩

/-! ## The children tile the node -/

/-- The node at the start of `b` takes `n` bytes: its properties end at `pend`, and its
    children, of the given lengths, follow without a gap. -/
structure Tiled (b : List UInt8) (n props pend : Nat) (lens : List Nat) : Prop where
  propertyCount : Node.propertyCount ⟨b⟩ = .ok props
  childCount : Node.childCount ⟨b⟩ = .ok lens.length
  propertiesEnd : Node.propertiesEnd ⟨b⟩ = .ok pend
  offset : ∀ i, i ≤ lens.length → Node.childOffset ⟨b⟩ i = .ok (pend + (lens.take i).sum)
  measured : ∀ i (hi : i < lens.length),
    totalLen ⟨b.drop (pend + (lens.take i).sum)⟩ = .ok lens[i]
  total : pend + lens.sum = n

variable {b : List UInt8} {props pend : Nat} {lens : List Nat}

/-- A node that measures is tiled. -/
theorem exists_tiled (h : totalLen ⟨b⟩ = .ok n) : ∃ props pend lens, Tiled b n props pend lens := by
  obtain ⟨count, hcount, hlast⟩ := totalLen_eq_ok.mp h
  obtain ⟨pend, hend⟩ := childOffset_of_le (Nat.zero_le count) hlast
  obtain ⟨props, hprops, _⟩ := Outcome.bind_eq_ok.mp (show Node.propertiesEnd ⟨b⟩ = _ from hend)
  obtain ⟨lens, rfl, hoffsets, hlens⟩ := childOffset_lengths hend hlast
  have htotal := hoffsets lens.length (Nat.le_refl _)
  rw [List.take_length] at htotal
  exact ⟨props, pend, lens, hprops, hcount, hend, hoffsets, hlens,
    (Except.ok.inj (hlast.symm.trans htotal)).symm⟩

/-- A tiled node measures. -/
theorem Tiled.totalLen_eq (h : Tiled b n props pend lens) : totalLen ⟨b⟩ = .ok n := by
  have hlast := h.offset lens.length (Nat.le_refl _)
  rw [List.take_length, h.total] at hlast
  exact totalLen_eq_ok.mpr ⟨_, h.childCount, hlast⟩

/-- A child ends at or before the end of the node. -/
theorem Tiled.child_le (h : Tiled b n props pend lens) {i : Nat} (hi : i < lens.length) :
    pend + (lens.take i).sum + lens[i] ≤ n := by
  have hsucc := List.sum_take_succ lens i hi
  have hsplit := List.sum_take_add_sum_drop lens (i + 1)
  have htotal := h.total
  omega

/-- The properties end inside the node. -/
theorem Tiled.pend_inside (h : Tiled b n props pend lens) :
    Inside b pend ∧ 8 + 36 * props ≤ pend :=
  propertiesEnd_inside h.propertyCount h.childCount h.propertiesEnd

/-- `child_at` finds the children at their places. -/
theorem Tiled.childAt (h : Tiled b n props pend lens) {i : Nat} (hi : i < lens.length) :
    Node.childAt ⟨b⟩ i = .ok ⟨b.drop (pend + (lens.take i).sum)⟩ := by
  have hle := h.child_le hi
  have hinside := (totalLen_inside h.totalLen_eq).2.1
  exact childAt_eq_ok.mpr ⟨_, _, lens[i], h.childCount, hi, h.offset i (Nat.le_of_lt hi),
    by dsimp only at hinside ⊢; omega, rfl, h.measured i hi⟩

end XnuRs.Kernel.Node
