/-
  XnuRs.DeviceTree.Total

  The kernel's walk over an Apple device tree ends on every slice.

  Whatever counts and lengths the slice declares, every index of the walk is in
  range and every sum it forms fits a `usize`, so a call returns a value or its
  own error.  The recursion goes down by 8 bytes at each child: a node of `n`
  bytes is done with after `n / 8 + 1` levels.
-/

import XnuRs.DeviceTree.Dump
import XnuRs.DeviceTree.Tiling

namespace XnuRs.DeviceTree

open XnuRs.Kernel XnuRs.Kernel.Node
open Outcome (FailsOnlyWith)

variable {node : Node}

/-! ## No panic -/

theorem readLeU32_fails (bytes : List UInt8) (offset : Nat) :
    FailsOnlyWith () (readLeU32 bytes offset) := readU32_fails leToNat bytes offset

/-- The name is cut out of its field in range. -/
theorem parse_fails (bytes : List UInt8) (offset : Nat) :
    FailsOnlyWith () (Property.parse bytes offset) := by
  refine .bind (.okOr _) fun nameStop hstop => .bind (.okOr _) fun nameBytes hname => ?_
  rw [Outcome.okOr_eq_ok, usizeAdd_eq_some] at hstop
  rw [Outcome.okOr_eq_ok] at hname
  have h32 : nameBytes.length = propertyNameLen := by
    rw [getRange_length hname, hstop.1]
    omega
  have hle := findIdx_zero_le nameBytes
  rw [h32] at hle
  dsimp only
  rw [indexTo_of_le (h32.symm ▸ hle), Outcome.ok_bind]
  refine .bind (.okOr _) fun name _ => .bind (.okOr _) fun lenOffset _ => ?_
  refine .bind (readLeU32_fails _ _) fun len _ => .bind (.okOr _) fun valueStart _ => ?_
  refine .bind (.okOr _) fun valueEnd _ => .bind (.okOr _) fun value _ => ?_
  exact .bind (.okOr _) fun stop _ => .ite (fun _ => .err) fun _ => .ok _

theorem propertiesEndLoop_fails (bytes : List UInt8) (remaining offset : Nat) :
    FailsOnlyWith () (propertiesEndLoop bytes remaining offset) := by
  induction remaining generalizing offset with
  | zero => exact .ok _
  | succ remaining ih => exact .bind (parse_fails _ _) fun p _ => ih _

theorem propertiesEnd_fails (node : Node) : FailsOnlyWith () node.propertiesEnd :=
  .bind (readLeU32_fails _ _) fun _ _ => propertiesEndLoop_fails _ _ _

/-- `child_at` panics only where `total_len` does, below the node. -/
theorem childAtWith_fails {f : Node → Outcome Unit Nat}
    (hf : ∀ below, node.Below below → FailsOnlyWith () (f below)) (wanted : Nat) :
    FailsOnlyWith () (node.childAtWith f wanted) := by
  -- `f` is only called on bytes at least 8 further on
  have hloop : ∀ remaining index offset, 8 ≤ offset →
      FailsOnlyWith () (childAtLoop f node wanted remaining index offset) := by
    intro remaining
    induction remaining with
    | zero => exact fun _ _ _ => .err
    | succ remaining ih =>
        intro index offset hoff
        refine .bind (.okOr _) fun bytes hbytes => ?_
        rw [Outcome.okOr_eq_ok, getFrom_eq_some] at hbytes
        obtain ⟨hle, rfl⟩ := hbytes
        have hbelow : node.Below ⟨node.bytes.drop offset⟩ := by
          show (node.bytes.drop offset).length + 8 ≤ _
          rw [List.length_drop]
          omega
        refine .bind (hf _ hbelow) fun childLen _ => .ite (fun _ => .ok _) fun _ => ?_
        refine .bind (.okOr _) fun next hnext => ?_
        rw [Outcome.okOr_eq_ok, usizeAdd_eq_some] at hnext
        exact ih _ _ (by omega)
  refine .bind (propertiesEnd_fails node) fun stop hstop => ?_
  exact .bind (readLeU32_fails _ _) fun count _ => hloop _ _ _ (propertiesEnd_ge hstop)

theorem totalLenWith_fails {f : Node → Outcome Unit Nat}
    (hf : ∀ below, node.Below below → FailsOnlyWith () (f below)) :
    FailsOnlyWith () (node.totalLenWith f) := by
  have hloop : ∀ remaining index offset,
      FailsOnlyWith () (totalLenLoop f node remaining index offset) := by
    intro remaining
    induction remaining with
    | zero => exact fun _ _ => .ok _
    | succ remaining ih =>
        intro index offset
        refine .bind (childAtWith_fails hf index) fun child hchild => ?_
        exact .bind (hf _ (childAtWith_shorter hchild)) fun _ _ => .bind (.okOr _) fun _ _ => ih _ _
  refine .bind (propertiesEnd_fails node) fun _ _ => ?_
  exact .bind (readLeU32_fails _ _) fun _ _ => hloop _ _ _

theorem totalLen_fails (node : Node) : FailsOnlyWith () node.totalLen := by
  -- by induction over the length of the slice, which every child shortens
  induction hlen : node.bytes.length using Nat.strong_induction_on generalizing node with
  | _ len ih =>
      rw [totalLen_eq]
      refine totalLenWith_fails fun below hbelow => ih _ ?_ below rfl
      have hshort : below.bytes.length + 8 ≤ node.bytes.length := hbelow
      omega

theorem childAt_fails (node : Node) (wanted : Nat) : FailsOnlyWith () (node.childAt wanted) :=
  childAtWith_fails (fun below _ => totalLen_fails below) wanted

/-! ## The dump -/

theorem dumpProperties_fails {depth : Nat} (hdepth : depth + node.bytes.length / 8 ≤ usizeMax)
    (remaining offset : Nat) :
    FailsOnlyWith () (dumpProperties node depth remaining offset).result := by
  induction remaining generalizing offset with
  | zero => exact .ok _
  | succ remaining ih =>
      simp only [dumpProperties, Traced.bind_result, Traced.lift_result]
      refine .bind (parse_fails _ _) fun p hp => ?_
      have hbounds := Property.parse_bounds hp
      rw [usizeAdd_of_le (by omega), Outcome.orPanic_some, Outcome.ok_bind, dumpProperty_eq]
      exact ih _

/-- A level of the dump takes one from the depths left, and 8 bytes from the slice. -/
theorem dumpChildren_fails {f : Node → Nat → Printing Unit} {depth : Nat}
    (hdepth : depth + node.bytes.length / 8 ≤ usizeMax)
    (hf : ∀ below inner, node.Below below → inner + below.bytes.length / 8 ≤ usizeMax →
      FailsOnlyWith () (f below inner).result) (remaining index : Nat) :
    FailsOnlyWith () (dumpChildren f node depth remaining index).result := by
  induction remaining generalizing index with
  | zero => exact .ok _
  | succ remaining ih =>
      simp only [dumpChildren, Traced.bind_result, Traced.lift_result]
      refine .bind (childAt_fails _ _) fun child hchild => ?_
      have hshort : child.bytes.length + 8 ≤ node.bytes.length := childAt_shorter hchild
      rw [usizeAdd_of_le (by omega), Outcome.orPanic_some, Outcome.ok_bind]
      exact .bind (hf child _ (childAt_shorter hchild) (by omega)) fun _ _ => ih _

theorem dumpNode_fails {depth : Nat} (hdepth : depth + node.bytes.length / 8 ≤ usizeMax) :
    FailsOnlyWith () (dumpNode node depth).result := by
  induction hlen : node.bytes.length using Nat.strong_induction_on generalizing node depth with
  | _ len ih =>
      rw [dumpNode_eq, dumpNodeWith, writeIndent_eq]
      simp only [Traced.bind_result, Traced.lift_result, writeStr, writeHexU64,
        Traced.emit_result, Outcome.ok_bind]
      refine .bind (readLeU32_fails _ _) fun _ _ => .bind (readLeU32_fails _ _) fun _ _ => ?_
      refine .bind (readLeU32_fails _ _) fun _ _ => ?_
      refine .bind (dumpProperties_fails hdepth _ _) fun _ _ => ?_
      refine .bind (readLeU32_fails _ _) fun _ _ => dumpChildren_fails hdepth ?_ _ _
      intro below inner hbelow hinner
      have hshort : below.bytes.length + 8 ≤ node.bytes.length := hbelow
      exact ih _ (by omega) hinner rfl

/-- The dump of a slice completes: what stops the walk is reported. -/
theorem dump_completes {b : List UInt8} (hb : b.length ≤ isizeMax) :
    (dump b).result = .ok () := by
  have hmax : isizeMax ≤ usizeMax := by decide
  rw [dump, AppleDeviceTree.new]
  split
  · rename_i tree hnew
    have htree : tree.root.bytes.length ≤ isizeMax := by
      split at hnew
      · exact absurd hnew Outcome.err_ne_ok
      · obtain rfl := Except.ok.inj hnew
        exact hb
    rw [Traced.bind_result, writeStr, Traced.emit_result, Outcome.ok_bind, Traced.bind_result,
      Traced.attempt]
    have hfails : FailsOnlyWith () (dumpNode tree.root 0).result := dumpNode_fails (by omega)
    rcases hfails.cases with ⟨_, h⟩ | h
    · rw [h]
      rfl
    · rw [h]
      rfl
  · rfl

/-! ## The places looked at -/

/-- Behind one property at least, the place is inside the slice. -/
theorem propertiesEndLoop_le {b : List UInt8} {remaining start stop : Nat}
    (h : propertiesEndLoop b (remaining + 1) start = .ok stop) : stop ≤ b.length := by
  induction remaining generalizing start with
  | zero =>
      obtain ⟨p, hp, hrest⟩ := Outcome.bind_eq_ok.mp h
      obtain rfl := Except.ok.inj hrest
      exact (Property.parse_bounds hp).2.1
  | succ remaining ih =>
      obtain ⟨_, _, hrest⟩ := Outcome.bind_eq_ok.mp h
      exact ih hrest

/-- Where property `i` starts, and the sums formed to read it. -/
theorem propertyOffset_bounds {b : List UInt8} {i offset : Nat} (hb : b.length ≤ isizeMax)
    (h : propertiesEndLoop b i 8 = .ok offset) :
    8 ≤ offset ∧ offset ≤ max 8 b.length ∧ offset + 36 + declaredLen b offset + 3 ≤ usizeMax := by
  have hroom : isizeMax + 8 + 36 + 2 ^ 32 + 3 ≤ usizeMax := by decide
  have hlen : declaredLen b offset < 2 ^ 32 := by
    have hlt := leToNat_lt ((b.drop (offset + 32)).take 4)
    have h4 : ((b.drop (offset + 32)).take 4).length ≤ 4 := List.length_take_le ..
    exact hlt.trans_le (Nat.pow_le_pow_right (by decide) h4)
  have hge := propertiesEndLoop_ge h
  have hle : offset ≤ max 8 b.length := by
    cases i with
    | zero =>
        obtain rfl := Except.ok.inj h
        exact Nat.le_max_left ..
    | succ i => exact (propertiesEndLoop_le h).trans (Nat.le_max_right ..)
  omega

/-- Where child `i` starts, and the sum that leads to the next child. -/
theorem childOffset_bounds {count i offset : Nat} (hcount : node.childCount = .ok count)
    (h : node.childOffset i = .ok offset) :
    8 ≤ offset ∧ offset ≤ node.bytes.length ∧ ∀ childLen,
      totalLen ⟨node.bytes.drop offset⟩ = .ok childLen →
        offset + childLen ≤ node.bytes.length := by
  obtain ⟨pend, hend⟩ := childOffset_of_le (Nat.zero_le i) h
  obtain ⟨props, hprops, _⟩ := Outcome.bind_eq_ok.mp (show node.propertiesEnd = _ from hend)
  obtain ⟨⟨h8, hle, _⟩, _⟩ := childOffset_inside hprops hcount h
  refine ⟨h8, hle, fun childLen hlen => ?_⟩
  have hinside := (totalLen_inside hlen).2.1
  rw [List.length_drop] at hinside
  omega

/-! ## The walk is total -/

/-- **The walk over a device tree ends on every slice.**  `properties_end`, `child_at`,
    `total_len` and `dump_node` return a value or their own error.  Each calls itself on
    slices at least 8 bytes shorter only, so that `n / 8 + 1` levels are enough; every
    place it looks at is behind the counts and inside the slice, and no sum overflows. -/
theorem walk_total (node : Node) (hb : node.bytes.length ≤ isizeMax) :
    (FailsOnlyWith () node.propertiesEnd ∧
      (∀ wanted, FailsOnlyWith () (node.childAt wanted)) ∧
      FailsOnlyWith () node.totalLen ∧
      (∀ depth, depth + node.bytes.length / 8 ≤ usizeMax →
        FailsOnlyWith () (dumpNode node depth).result) ∧
      (dump node.bytes).result = .ok ()) ∧
    ((∀ f, (∀ below, node.Below below → f below = below.totalLen) →
        node.totalLen = node.totalLenWith f ∧
        ∀ wanted, node.childAt wanted = node.childAtWith f wanted) ∧
      ∀ f, (∀ below depth, node.Below below → f below depth = dumpNode below depth) →
        ∀ depth, dumpNode node depth = dumpNodeWith f node depth) ∧
    (node.totalLen = totalLenFuel (node.bytes.length / 8 + 1) node ∧
      ∀ depth, dumpNode node depth = dumpNodeFuel (node.bytes.length / 8 + 1) node depth) ∧
    (∀ i offset, propertiesEndLoop node.bytes i 8 = .ok offset →
      8 ≤ offset ∧ offset ≤ max 8 node.bytes.length ∧
        offset + 36 + declaredLen node.bytes offset + 3 ≤ usizeMax) ∧
    ∀ count i offset, node.childCount = .ok count → node.childOffset i = .ok offset →
      8 ≤ offset ∧ offset ≤ node.bytes.length ∧ ∀ childLen,
        totalLen ⟨node.bytes.drop offset⟩ = .ok childLen →
          offset + childLen ≤ node.bytes.length := by
  refine ⟨⟨propertiesEnd_fails node, childAt_fails node, totalLen_fails node,
    fun _ hdepth => dumpNode_fails hdepth, dump_completes hb⟩, ⟨fun f hf => ⟨?_, fun wanted => ?_⟩,
    fun f hf depth => ?_⟩, ⟨totalLenFuel_eq (by omega) (by omega),
    fun depth => dumpNodeFuel_eq (by omega) (by omega) depth⟩,
    fun i offset h => propertyOffset_bounds hb h,
    fun count i offset hcount h => childOffset_bounds hcount h⟩
  · rw [totalLen_eq]
    exact totalLenWith_congr fun below hbelow => (hf below hbelow).symm
  · exact childAtWith_congr (fun below hbelow => (hf below hbelow).symm) wanted
  · rw [dumpNode_eq]
    exact dumpNodeWith_congr (fun below depth hbelow => (hf below depth hbelow).symm) depth

/-- A node that claims 2 ^ 32 - 1 properties and as many children, and holds none. -/
def hostileCounts : List UInt8 := List.replicate 8 255

theorem walk_total_hostileCounts :
    FailsOnlyWith () (totalLen ⟨hostileCounts⟩) ∧ (dump hostileCounts).result = .ok () ∧
      totalLen ⟨hostileCounts⟩ = totalLenFuel 2 ⟨hostileCounts⟩ := by
  obtain ⟨⟨-, -, htotal, -, hdump⟩, -, ⟨hlevels, -⟩, -⟩ := walk_total ⟨hostileCounts⟩ (by decide)
  exact ⟨htotal, hdump, hlevels⟩

end XnuRs.DeviceTree
