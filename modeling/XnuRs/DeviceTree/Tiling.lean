/-
  XnuRs.DeviceTree.Tiling

  The nodes of an Apple device tree are self-delimiting.

  The kernel hands each child the rest of the whole buffer, so nothing in the
  types keeps a child from looking at its siblings.  `AgreesTo n` relates two
  slices that begin with the same `n` bytes: a node of total length `n` measures
  and reads the same over both (`totalLen_of_agrees`, `exists_readsBack`), by
  strong induction over the slice, since every child is a shorter one.
-/

import XnuRs.DeviceTree.RoundTrip
import XnuRs.Kernel.DeviceTreeShape
import Mathlib.Tactic.Choose

namespace XnuRs.DeviceTree

open XnuRs.Loader XnuRs.Kernel XnuRs.Kernel.Node

variable {b c : List UInt8} {n : Nat}

/-! ## Slices that begin alike -/

/-- The first `n` bytes of `b` are the first `n` bytes of `c`. -/
structure AgreesTo (n : Nat) (b c : List UInt8) : Prop where
  left : n ≤ b.length
  right : n ≤ c.length
  same : c.take n = b.take n

theorem AgreesTo.refl (h : n ≤ b.length) : AgreesTo n b b := ⟨h, h, rfl⟩

/-- Cutting a slice behind `n` and putting anything there. -/
theorem agreesTo_take_append (h : n ≤ b.length) (s : List UInt8) :
    AgreesTo n b (b.take n ++ s) where
  left := h
  right := by
    rw [List.length_append, List.length_take]
    omega
  same := by
    rw [List.take_append_of_le_length (by rw [List.length_take]; omega), List.take_take,
      Nat.min_self]

/-- The part from `offset` on agrees as far as the whole does. -/
theorem AgreesTo.drop (h : AgreesTo n b c) {offset k : Nat} (hk : offset + k ≤ n) :
    AgreesTo k (b.drop offset) (c.drop offset) where
  left := by
    have hle := h.left
    rw [List.length_drop]
    omega
  right := by
    have hle := h.right
    rw [List.length_drop]
    omega
  same := by
    have hcut : ∀ l : List UInt8, (l.drop offset).take k = ((l.take n).drop offset).take k := by
      intro l
      rw [List.drop_take, List.take_take, Nat.min_eq_left (by omega)]
    rw [hcut c, hcut b, h.same]

theorem AgreesTo.slice (h : AgreesTo n b c) {offset k : Nat} (hk : offset + k ≤ n) :
    (c.drop offset).take k = (b.drop offset).take k := (h.drop hk).same

/-! ## Reading from slices that begin alike -/

theorem readLeU32_of_agrees (h : AgreesTo n b c) {offset v : Nat} (hle : offset + 4 ≤ n)
    (hread : readLeU32 b offset = .ok v) : readLeU32 c offset = .ok v := by
  obtain ⟨_, hmax, hv⟩ := readLeU32_eq_ok.mp hread
  have hright := h.right
  exact readLeU32_eq_ok.mpr ⟨by omega, hmax, by rw [h.slice hle, hv]⟩

theorem parse_of_agrees (h : AgreesTo n b c) {offset : Nat} {p : Property} (hstop : p.stop ≤ n)
    (hparse : Property.parse b offset = .ok p) : Property.parse c offset = .ok p := by
  obtain ⟨hname, hvalue, hend, _, hmax⟩ := Property.parse_eq_ok.mp hparse
  have hright := h.right
  have hdeclared : declaredLen c offset = declaredLen b offset := by
    rw [declaredLen, h.slice (by omega), declaredLen]
  refine Property.parse_eq_ok.mpr ?_
  rw [hdeclared, h.slice (show offset + 32 ≤ n by omega),
    h.slice (show offset + 36 + declaredLen b offset ≤ n by omega)]
  exact ⟨hname, hvalue, hend, by omega, hmax⟩

/-- The properties of a node, walked over both slices. -/
theorem walkProperties_of_agrees (h : AgreesTo n b c) {remaining offset stop : Nat}
    (hstop : stop ≤ n) (hend : propertiesEndLoop b remaining offset = .ok stop) :
    propertiesEndLoop c remaining offset = .ok stop ∧
      ∃ ps, ps.length = remaining ∧ walkProperties b remaining offset = .ok ps ∧
        walkProperties c remaining offset = .ok ps := by
  induction remaining generalizing offset with
  | zero => exact ⟨hend, [], rfl, rfl, rfl⟩
  | succ remaining ih =>
      obtain ⟨p, hp, hrest⟩ := Outcome.bind_eq_ok.mp hend
      have hge := propertiesEndLoop_ge hrest
      have hp' := parse_of_agrees h (by omega) hp
      obtain ⟨hend', ps, hlen, hwalk, hwalk'⟩ := ih hrest
      refine ⟨?_, p :: ps, by rw [List.length_cons, hlen], ?_, ?_⟩
      · rw [propertiesEndLoop, hp', Outcome.ok_bind, hend']
      · rw [walkProperties, hp, Outcome.ok_bind, hwalk]
        rfl
      · rw [walkProperties, hp', Outcome.ok_bind, hwalk']
        rfl

/-- The counts of a node and the end of its properties. -/
theorem header_of_agrees (h : AgreesTo n b c) {props count pend : Nat} (hn : 8 ≤ n)
    (hpend : pend ≤ n)
    (hprops : Node.propertyCount ⟨b⟩ = .ok props) (hcount : Node.childCount ⟨b⟩ = .ok count)
    (hend : Node.propertiesEnd ⟨b⟩ = .ok pend) :
    Node.propertyCount ⟨c⟩ = .ok props ∧ Node.childCount ⟨c⟩ = .ok count ∧
      Node.propertiesEnd ⟨c⟩ = .ok pend := by
  have hprops' : Node.propertyCount ⟨c⟩ = .ok props := readLeU32_of_agrees h (by omega) hprops
  rw [propertiesEnd, hprops, Outcome.ok_bind] at hend
  refine ⟨hprops', readLeU32_of_agrees h (by omega) hcount, ?_⟩
  rw [propertiesEnd, hprops', Outcome.ok_bind]
  exact (walkProperties_of_agrees h hpend hend).1

/-- The places of the children are the same, given that the children measure the same. -/
theorem childOffset_of_agrees (h : AgreesTo n b c) {pend : Nat}
    (hend : Node.propertiesEnd ⟨c⟩ = .ok pend) (hend' : Node.propertiesEnd ⟨b⟩ = .ok pend)
    (hchildren : ∀ offset childLen, 8 ≤ offset → totalLen ⟨b.drop offset⟩ = .ok childLen →
      offset + childLen ≤ n → totalLen ⟨c.drop offset⟩ = .ok childLen)
    {i stop : Nat} (hstop : stop ≤ n) (hoffset : childOffset ⟨b⟩ i = .ok stop) :
    childOffset ⟨c⟩ i = .ok stop := by
  induction i generalizing stop with
  | zero =>
      obtain rfl := Except.ok.inj (hend'.symm.trans hoffset)
      exact hend
  | succ i ih =>
      obtain ⟨offset, childLen, hprev, hle, hlen, rfl, hmax⟩ := childOffset_succ_eq_ok.mp hoffset
      have h8 : 8 ≤ offset := by
        obtain ⟨start, hstart⟩ := childOffset_of_le (Nat.zero_le i) hprev
        have hge := propertiesEnd_ge (show Node.propertiesEnd ⟨b⟩ = .ok start from hstart)
        exact hge.trans (childOffset_mono (Nat.zero_le i) hstart hprev)
      have hright := h.right
      exact childOffset_succ_eq_ok.mpr ⟨offset, childLen, ih (by omega) hprev,
        by dsimp only; omega, hchildren offset childLen h8 hlen hstop, rfl, hmax⟩

/-- **A node looks at nothing behind its end**: its total length is the same over any
    slice that begins with its bytes. -/
theorem totalLen_of_agrees (h : AgreesTo n b c) (hlen : totalLen ⟨b⟩ = .ok n) :
    totalLen ⟨c⟩ = .ok n := by
  induction hsize : b.length using Nat.strong_induction_on generalizing b c n with
  | _ size ih =>
      obtain ⟨count, hcount, hlast⟩ := totalLen_eq_ok.mp hlen
      obtain ⟨pend, hend⟩ := childOffset_of_le (Nat.zero_le count) hlast
      obtain ⟨props, hprops, _⟩ := Outcome.bind_eq_ok.mp (show Node.propertiesEnd ⟨b⟩ = _ from hend)
      have hpend := childOffset_mono (Nat.zero_le count) hend hlast
      have h8 := (totalLen_inside hlen).1
      obtain ⟨_, hcount', hend'⟩ := header_of_agrees h h8 hpend hprops hcount hend
      refine totalLen_eq_ok.mpr ⟨count, hcount', ?_⟩
      refine childOffset_of_agrees h hend' hend (fun offset childLen h8 hchild hle => ?_)
        (Nat.le_refl n) hlast
      have hdrop : (b.drop offset).length = b.length - offset := List.length_drop
      have hbound := h.left
      exact ih _ (by omega) (h.drop hle) hchild hdrop

/-! ## The decoded tree -/

/-- A slice that begins with the bytes of a tiled node is tiled the same way. -/
theorem tiled_of_agrees {props pend : Nat} {lens : List Nat} (h : AgreesTo n b c)
    (htiled : Tiled b n props pend lens) : Tiled c n props pend lens := by
  have h8 := (totalLen_inside htiled.totalLen_eq).1
  have htotal := htiled.total
  obtain ⟨hprops, hcount, hend⟩ := header_of_agrees h h8 (by omega) htiled.propertyCount
    htiled.childCount htiled.propertiesEnd
  refine ⟨hprops, hcount, hend, fun i hi => ?_, fun i hi => ?_, htotal⟩
  · have hle := childOffset_mono hi (htiled.offset i hi) (htiled.offset _ (Nat.le_refl _))
    rw [List.take_length, htotal] at hle
    exact childOffset_of_agrees h hend htiled.propertiesEnd
      (fun offset childLen _ hchild hfit => totalLen_of_agrees (h.drop hfit) hchild) hle
      (htiled.offset i hi)
  · exact totalLen_of_agrees (h.drop (htiled.child_le hi)) (htiled.measured i hi)

/-- A node that measures decodes to a tree, over any slice that begins with its bytes. -/
theorem exists_readsBack (hlen : totalLen ⟨b⟩ = .ok n) :
    ∃ t : AdtNode, ∀ c, AgreesTo n b c → ReadsBack ⟨c⟩ t := by
  induction hsize : b.length using Nat.strong_induction_on generalizing b n with
  | _ size ih =>
      obtain ⟨props, pend, lens, htiled⟩ := exists_tiled hlen
      obtain ⟨_, hle, _⟩ := totalLen_inside hlen
      obtain ⟨⟨h8, _⟩, _⟩ := htiled.pend_inside
      have htotal := htiled.total
      -- the trees of the children, one for each of them
      have hchildren : ∀ i, ∃ t : AdtNode, ∀ hi : i < lens.length, ∀ c,
          AgreesTo lens[i] (b.drop (pend + (lens.take i).sum)) c → ReadsBack ⟨c⟩ t := by
        intro i
        by_cases hi : i < lens.length
        · have hdrop : (b.drop (pend + (lens.take i).sum)).length =
              b.length - (pend + (lens.take i).sum) := List.length_drop
          dsimp only at hle
          obtain ⟨t, ht⟩ := ih _ (by omega) (htiled.measured i hi) hdrop
          exact ⟨t, fun _ => ht⟩
        · exact ⟨⟨[], []⟩, fun hi' => absurd hi' hi⟩
      choose trees htrees using hchildren
      have hloop := htiled.propertiesEnd
      rw [propertiesEnd, htiled.propertyCount, Outcome.ok_bind] at hloop
      obtain ⟨_, ps, rfl, hps, _⟩ := walkProperties_of_agrees (.refl hle) (by omega) hloop
      refine ⟨⟨ps.map toAdtProp, (List.range lens.length).map trees⟩, fun c hagrees => ?_⟩
      have htiled' := tiled_of_agrees hagrees htiled
      obtain ⟨_, ps', _, hwalk, hwalk'⟩ := walkProperties_of_agrees hagrees (by omega) hloop
      obtain rfl := Except.ok.inj (hps.symm.trans hwalk)
      rw [ReadsBack]
      refine ⟨?_, ?_, ⟨ps, ?_, rfl⟩, fun i hi => ?_, fun i hi => ?_⟩
      · rw [List.length_map]
        exact htiled'.propertyCount
      · rw [List.length_map, List.length_range]
        exact htiled'.childCount
      · rw [List.length_map]
        exact hwalk'
      · rw [List.length_map, List.length_range] at hi
        refine ⟨_, htiled'.childAt hi, ?_⟩
        rw [List.getElem_map, List.getElem_range]
        exact htrees i hi _ (hagrees.drop (htiled.child_le hi))
      · rw [List.length_map, List.length_range] at hi
        exact childAt_past htiled'.totalLen_eq htiled'.childCount hi

/-- **Nodes are self-delimiting and their children tile them.** -/
theorem totalLen_selfDelimiting (hlen : totalLen ⟨b⟩ = .ok n) :
    8 ≤ n ∧ n ≤ b.length ∧ n % 4 = 0 ∧
      ∃ (props pend : Nat) (lens : List Nat) (tree : AdtNode),
        Node.propertyCount ⟨b⟩ = .ok props ∧ Node.childCount ⟨b⟩ = .ok lens.length ∧
        8 + 36 * props + 8 * lens.length ≤ n ∧
        Node.propertiesEnd ⟨b⟩ = .ok pend ∧ pend + lens.sum = n ∧
        (∀ i (hi : i < lens.length),
          Node.childAt ⟨b⟩ i = .ok ⟨b.drop (pend + (lens.take i).sum)⟩ ∧
            totalLen ⟨b.drop (pend + (lens.take i).sum)⟩ = .ok lens[i]) ∧
        ReadsBack ⟨b⟩ tree ∧
        ∀ s, totalLen ⟨b.take n ++ s⟩ = .ok n ∧ ReadsBack ⟨b.take n ++ s⟩ tree := by
  obtain ⟨h8, hle, hmod⟩ := totalLen_inside hlen
  obtain ⟨props, pend, lens, htiled⟩ := exists_tiled hlen
  obtain ⟨tree, htree⟩ := exists_readsBack hlen
  have hcounts := (childOffset_inside htiled.propertyCount htiled.childCount
    (htiled.offset lens.length (Nat.le_refl _))).2
  rw [List.take_length, htiled.total] at hcounts
  refine ⟨h8, hle, hmod, props, pend, lens, tree, htiled.propertyCount, htiled.childCount, hcounts,
    htiled.propertiesEnd, htiled.total, fun i hi => ⟨htiled.childAt hi, htiled.measured i hi⟩,
    htree b (.refl hle), fun s => ?_⟩
  -- two blobs that agree up to `n` are measured and read alike
  have hagrees := agreesTo_take_append hle s
  exact ⟨totalLen_of_agrees hagrees hlen, htree _ hagrees⟩

/-- A node with one empty child, and two bytes behind it. -/
def oneChild : List UInt8 := [0, 0, 0, 0, 1, 0, 0, 0, 0, 0, 0, 0, 0, 0, 0, 0, 255, 7]

theorem oneChild_totalLen : totalLen ⟨oneChild⟩ = .ok 16 := by decide +kernel

theorem totalLen_selfDelimiting_oneChild :
    ∃ tree, ReadsBack ⟨oneChild⟩ tree ∧
      ∀ s, totalLen ⟨oneChild.take 16 ++ s⟩ = .ok 16 ∧ ReadsBack ⟨oneChild.take 16 ++ s⟩ tree := by
  obtain ⟨-, -, -, _, _, _, tree, -, -, -, -, -, -, hback, hcut⟩ :=
    totalLen_selfDelimiting oneChild_totalLen
  exact ⟨tree, hback, hcut⟩

end XnuRs.DeviceTree
