/-
  XnuRs.DeviceTree.DumpComplete

  The walk that dumps a device tree and the walk that measures it accept the
  same trees.

  `dump_node` parses the properties itself and finds every child anew with
  `child_at`, which measures the child before it returns it.  So a dump that
  completes has measured the whole node (`totalLen_of_dumpNode`), and a node
  that measures has a tree, which is dumped line by line.  What can still stop
  the dump of a well-formed tree is the depth, a `usize` that each level adds
  one to.
-/

import XnuRs.DeviceTree.Dump
import XnuRs.DeviceTree.Tiling

namespace XnuRs.DeviceTree

open XnuRs.Loader XnuRs.Kernel XnuRs.Kernel.Node

/-! ## The lines of a tree -/

/-- A line of the dump. -/
inductive DumpLine where
  | node (depth props children : Nat)
  | prop (depth : Nat) (p : AdtProp)
deriving DecidableEq, Repr

/-- What is printed for a line. -/
def DumpLine.text : DumpLine → List UartOp
  | node depth props children =>
      indentLog depth ++ [.str "node props=", .hexU64 props, .str " children=", .hexU64 children,
        .str "\n"]
  | prop depth p => propLog depth p

mutual

/-- The tree in pre-order: a node, its properties, its children, each of the latter one
    level deeper. -/
def preorder (depth : Nat) : AdtNode → List DumpLine
  | ⟨props, children⟩ =>
      .node depth props.length children.length ::
        (props.map (DumpLine.prop (depth + 1)) ++ preorderChildren (depth + 1) children)

/-- A list of trees in pre-order. -/
def preorderChildren (depth : Nat) : List AdtNode → List DumpLine
  | [] => []
  | child :: rest => preorder depth child ++ preorderChildren depth rest

end

/-- The text of a tree is that of its lines. -/
theorem nodeLog_eq (depth : Nat) (t : AdtNode) :
    nodeLog depth t = (preorder depth t).flatMap DumpLine.text := by
  induction t using AdtNode.induction generalizing depth with
  | node props children ih =>
      have hchildren : childrenLog (depth + 1) children =
          (preorderChildren (depth + 1) children).flatMap DumpLine.text := by
        induction children with
        | nil => rfl
        | cons c rest ihrest =>
            obtain ⟨hc, hrest⟩ := List.forall_mem_cons.mp ih
            rw [childrenLog, preorderChildren, List.flatMap_append, hc, ihrest hrest]
      rw [nodeLog, preorder, List.flatMap_cons, List.flatMap_append, List.flatMap_map, hchildren]
      simp only [DumpLine.text, List.append_assoc]

/-! ## What a dump that completes has seen -/

variable {node : Node} {depth : Nat}

theorem dumpProperties_ok {remaining offset : Nat}
    (h : (dumpProperties node depth remaining offset).result = .ok ()) :
    (∃ stop, propertiesEndLoop node.bytes remaining offset = .ok stop) ∧
      (remaining ≠ 0 → depth + 1 ≤ usizeMax) := by
  induction remaining generalizing offset with
  | zero => exact ⟨⟨offset, rfl⟩, fun h => absurd rfl h⟩
  | succ remaining ih =>
      simp only [dumpProperties, Traced.bind_result, Traced.lift_result, Outcome.bind_eq_ok,
        Outcome.orPanic_eq_ok, usizeAdd_eq_some] at h
      obtain ⟨p, hp, _, ⟨_, hinner⟩, _, _, hrest⟩ := h
      obtain ⟨stop, hstop⟩ := (ih hrest).1
      exact ⟨⟨stop, by rw [propertiesEndLoop, hp, Outcome.ok_bind, hstop]⟩, fun _ => hinner⟩

/-- Every child from `index` on was found and dumped one level deeper. -/
theorem dumpChildren_ok {f : Node → Nat → Printing Unit} {remaining index : Nat}
    (h : (dumpChildren f node depth remaining index).result = .ok ()) {i : Nat}
    (hi : i < remaining) :
    depth + 1 ≤ usizeMax ∧ ∃ child, node.childAt (index + i) = .ok child ∧
      (f child (depth + 1)).result = .ok () := by
  induction remaining generalizing index i with
  | zero => exact absurd hi (Nat.not_lt_zero i)
  | succ remaining ih =>
      simp only [dumpChildren, Traced.bind_result, Traced.lift_result, Outcome.bind_eq_ok,
        Outcome.orPanic_eq_ok, usizeAdd_eq_some] at h
      obtain ⟨child, hchild, _, ⟨rfl, hinner⟩, _, hdump, hrest⟩ := h
      cases i with
      | zero => exact ⟨hinner, child, hchild, hdump⟩
      | succ i =>
          have hlater := ih hrest (Nat.lt_of_succ_lt_succ hi)
          rwa [Nat.add_assoc, Nat.add_comm 1 i] at hlater

/-- The parts of a dump that completes. -/
theorem dumpNode_ok (h : (dumpNode node depth).result = .ok ()) :
    ∃ props count, node.propertyCount = .ok props ∧ node.childCount = .ok count ∧
      (dumpProperties node depth props 8).result = .ok () ∧
      (dumpChildren dumpNode node depth count 0).result = .ok () := by
  rw [dumpNode_eq, dumpNodeWith] at h
  simp only [Traced.bind_result, Traced.lift_result, Outcome.bind_eq_ok] at h
  obtain ⟨_, -, _, -, props, hprops, _, -, _, -, count, hcount, _, -, _, -, props', hprops', _,
    hlines, count', hcount', hchildren⟩ := h
  obtain rfl := Except.ok.inj (hprops.symm.trans hprops')
  obtain rfl := Except.ok.inj (hcount.symm.trans hcount')
  exact ⟨props, count, hprops, hcount, hlines, hchildren⟩

/-- A dump that completes has measured the node: the properties end, and the last child
    was measured on the way to it. -/
theorem totalLen_of_dumpNode (hb : node.bytes.length ≤ usizeMax)
    (h : (dumpNode node depth).result = .ok ()) : ∃ n, node.totalLen = .ok n := by
  obtain ⟨props, count, hprops, hcount, hlines, hchildren⟩ := dumpNode_ok h
  obtain ⟨⟨pend, hloop⟩, -⟩ := dumpProperties_ok hlines
  have hend : node.childOffset 0 = .ok pend := by
    rw [childOffset, propertiesEnd, hprops, Outcome.ok_bind, hloop]
  cases count with
  | zero => exact ⟨pend, totalLen_eq_ok.mpr ⟨0, hcount, hend⟩⟩
  | succ k =>
      obtain ⟨-, child, hchild, -⟩ := dumpChildren_ok hchildren (Nat.lt_succ_self k)
      rw [Nat.zero_add] at hchild
      obtain ⟨_, start, childLen, _, _, hstart, hle, rfl, hlen⟩ := childAt_eq_ok.mp hchild
      have hinside := (totalLen_inside hlen).2.1
      rw [List.length_drop] at hinside
      exact ⟨_, totalLen_eq_ok.mpr ⟨k + 1, hcount, childOffset_succ_eq_ok.mpr
        ⟨start, childLen, hstart, hle, hlen, rfl, by omega⟩⟩⟩

/-- A dump that completes had room for the levels of the tree. -/
theorem levels_of_dumpNode {t : AdtNode} (hback : ReadsBack node t) (hdepth : depth ≤ usizeMax)
    (h : (dumpNode node depth).result = .ok ()) : depth + levels t ≤ usizeMax := by
  induction t using AdtNode.induction generalizing node depth with
  | node props children ih =>
      rw [ReadsBack] at hback
      obtain ⟨hprops, hcount, -, hchild, -⟩ := hback
      obtain ⟨_, _, hprops', hcount', hlines, hchildren⟩ := dumpNode_ok h
      obtain rfl := Except.ok.inj (hprops.symm.trans hprops')
      obtain rfl := Except.ok.inj (hcount.symm.trans hcount')
      refine add_levels_le.mpr ⟨hdepth, fun hne => ?_, fun c hc => ?_⟩
      · exact (dumpProperties_ok hlines).2 (mt List.length_eq_zero_iff.mp hne)
      · obtain ⟨i, hi, rfl⟩ := List.getElem_of_mem hc
        obtain ⟨hinner, child, hat, hdump⟩ := dumpChildren_ok hchildren hi
        obtain ⟨child', hat', hback'⟩ := hchild i hi
        rw [Nat.zero_add] at hat
        obtain rfl := Except.ok.inj (hat.symm.trans hat')
        exact ih _ hc hback' hinner hdump

/-! ## The two walks -/

/-- **The dump and the measure accept the same trees, and the dump is complete.**  A slice
    that is dumped measures; a slice that measures has a tree, it is dumped exactly when
    the depths of the tree fit a `usize`, and what is printed are the tree's lines in
    pre-order. -/
theorem dumpNode_iff_totalLen {b : List UInt8} (hb : b.length ≤ isizeMax)
    (hdepth : depth ≤ usizeMax) :
    ((dumpNode ⟨b⟩ depth).result = .ok () → ∃ n, totalLen ⟨b⟩ = .ok n) ∧
      ∀ n, totalLen ⟨b⟩ = .ok n → ∃ t, ReadsBack ⟨b⟩ t ∧ 8 * levels t ≤ b.length ∧
        ((dumpNode ⟨b⟩ depth).result = .ok () ↔ depth + levels t ≤ usizeMax) ∧
        ((dumpNode ⟨b⟩ depth).result = .ok () →
          (dumpNode ⟨b⟩ depth).log = (preorder depth t).flatMap DumpLine.text) := by
  have hmax : isizeMax ≤ usizeMax := by decide
  refine ⟨totalLen_of_dumpNode (hb.trans hmax), fun n hlen => ?_⟩
  obtain ⟨t, ht⟩ := exists_readsBack hlen
  have hback := ht b (.refl (totalLen_inside hlen).2.1)
  have hroom : (dumpNode ⟨b⟩ depth).result = .ok () ↔ depth + levels t ≤ usizeMax := by
    constructor
    · exact levels_of_dumpNode hback hdepth
    · intro hle
      rw [dumpNode_of_readsBack hback hle]
  refine ⟨t, hback, levels_le_of_readsBack hback, hroom, fun h => ?_⟩
  rw [dumpNode_of_readsBack hback (hroom.mp h), nodeLog_eq]

theorem dumpNode_iff_totalLen_oneChild :
    ∃ t, ReadsBack ⟨oneChild⟩ t ∧ 8 * levels t ≤ oneChild.length ∧
      ((dumpNode ⟨oneChild⟩ 3).result = .ok () ↔ 3 + levels t ≤ usizeMax) ∧
      ((dumpNode ⟨oneChild⟩ 3).result = .ok () →
        (dumpNode ⟨oneChild⟩ 3).log = (preorder 3 t).flatMap DumpLine.text) :=
  (dumpNode_iff_totalLen (by decide) (by decide)).2 16 oneChild_totalLen

/-- At the largest depth there is no room for a child: the node measures, but its dump
    overflows. -/
theorem oneChild_depth_overflows :
    ¬ ∀ b depth, b.length ≤ isizeMax → depth ≤ usizeMax →
      ((dumpNode ⟨b⟩ depth).result = .ok () ↔ ∃ n, totalLen ⟨b⟩ = .ok n) := by
  intro hclaim
  have hdump := (hclaim oneChild usizeMax (by decide) (Nat.le_refl _)).mpr ⟨16, oneChild_totalLen⟩
  obtain ⟨_, count, _, hcount, _, hchildren⟩ := dumpNode_ok hdump
  have hone : Node.childCount ⟨oneChild⟩ = .ok 1 := by decide +kernel
  obtain rfl := Except.ok.inj (hone.symm.trans hcount)
  have hinner := (dumpChildren_ok hchildren (Nat.zero_lt_one)).1
  omega

end XnuRs.DeviceTree
