/-
  XnuRs.DeviceTree.Dump

  Whatever flattened device tree the loader accepts, the kernel can read and
  dump.

  `nodeLog` is the text of a tree.  A node that reads back as a tree is dumped
  as that text (`dumpNode_of_readsBack`), by induction over the tree; from depth 0
  the depth cannot overflow because each level of nesting takes at least 8 bytes.
-/

import XnuRs.DeviceTree.RoundTrip
import XnuRs.DeviceTree.Flatten
import XnuRs.Loader.FdtParserSound

namespace XnuRs.DeviceTree

open XnuRs.Loader XnuRs.Kernel

/-! ## The text of a tree -/

/-- The indentation at a depth. -/
def indentLog (depth : Nat) : List UartOp := List.replicate depth (.str "  ")

/-- The bytes of a printable value other than NUL, each as a text of its own. -/
def asciiLog (value : List UInt8) : List UartOp :=
  (value.filter (· != 0)).filterMap fun byte => (fromUtf8 [byte]).map UartOp.str

/-- The line of a property. -/
def propLog (depth : Nat) (p : AdtProp) : List UartOp :=
  indentLog depth ++ [.str p.name, .str " len=", .hexU64 p.value.length] ++
    (if isPrintable p.value then [.str " value=\""] ++ asciiLog p.value ++ [.str "\""] else []) ++
    [.str "\n"]

mutual

/-- The lines of a node: its counts, its properties, its children. -/
def nodeLog (depth : Nat) : AdtNode → List UartOp
  | ⟨props, children⟩ =>
      indentLog depth ++ [.str "node props=", .hexU64 props.length, .str " children=",
        .hexU64 children.length, .str "\n"] ++
        props.flatMap (propLog (depth + 1)) ++ childrenLog (depth + 1) children

/-- The lines of a list of nodes. -/
def childrenLog (depth : Nat) : List AdtNode → List UartOp
  | [] => []
  | child :: rest => nodeLog depth child ++ childrenLog depth rest

end

/-! ## How deep a tree is dumped -/

mutual

/-- How many levels below a node the dump prints: one for the properties, and one more
    than the deepest child. -/
def levels : AdtNode → Nat
  | ⟨props, children⟩ => if props = [] ∧ children = [] then 0 else levelsBelow children + 1

/-- The levels of the deepest of a list of nodes. -/
def levelsBelow : List AdtNode → Nat
  | [] => 0
  | child :: rest => max (levels child) (levelsBelow rest)

end

theorem levelsBelow_le {children : List AdtNode} {m : Nat} :
    levelsBelow children ≤ m ↔ ∀ c ∈ children, levels c ≤ m := by
  induction children with
  | nil => simp [levelsBelow]
  | cons c rest ih => rw [levelsBelow, Nat.max_le, ih, List.forall_mem_cons]

/-- A node without properties and children is dumped on one line, any other one needs the
    depth of its children. -/
theorem add_levels_le {props : List AdtProp} {children : List AdtNode} {depth m : Nat} :
    depth + levels ⟨props, children⟩ ≤ m ↔
      depth ≤ m ∧ (props ≠ [] → depth + 1 ≤ m) ∧
        ∀ c ∈ children, depth + 1 + levels c ≤ m := by
  have hbelow : ∀ k, levelsBelow children ≤ k ↔ ∀ c ∈ children, levels c ≤ k := fun k =>
    levelsBelow_le
  rw [levels]
  split
  · rename_i hnone
    simp [hnone.1, hnone.2]
  · rename_i hsome
    constructor
    · intro h
      have hall := (hbelow _).mp (Nat.le_refl (levelsBelow children))
      refine ⟨by omega, fun _ => by omega, fun c hc => ?_⟩
      have hc' := hall c hc
      omega
    · rintro ⟨hdepth, hprops, hchildren⟩
      -- one level for the lines of the properties, or for those of a child
      have hone : depth + 1 ≤ m := by
        rcases children with - | ⟨c, rest⟩
        · exact hprops fun hnil => hsome ⟨hnil, rfl⟩
        · have hc := hchildren c (List.mem_cons_self ..)
          omega
      have hle := (hbelow (m - (depth + 1))).mpr fun c hc => by
        have hc' := hchildren c hc
        omega
      omega

/-- Each level takes at least 8 bytes. -/
theorem levels_le_of_readsBack {t : AdtNode} {node : Node} (h : ReadsBack node t) :
    8 * levels t ≤ node.bytes.length := by
  induction t using AdtNode.induction generalizing node with
  | node props children ih =>
      rw [ReadsBack] at h
      obtain ⟨hprops, hcount, -, hchild, -⟩ := h
      have hlong := (readLeU32_eq_ok.mp hcount).1
      have hle : 0 + levels ⟨props, children⟩ ≤ node.bytes.length / 8 := by
        refine add_levels_le.mpr ⟨Nat.zero_le _, fun _ => by omega, fun c hc => ?_⟩
        obtain ⟨i, hi, rfl⟩ := List.getElem_of_mem hc
        obtain ⟨child, hat, hback⟩ := hchild i hi
        have hbelow : child.bytes.length + 8 ≤ node.bytes.length := Node.childAt_shorter hat
        have hchildLe := ih _ (List.getElem_mem hi) hback
        omega
      omega

/-! ## What the dump prints -/

theorem writeIndent_eq (depth : Nat) : writeIndent depth = ⟨indentLog depth, .ok ()⟩ := by
  induction depth with
  | zero => rfl
  | succ depth ih =>
      rw [writeIndent, ih]
      rfl

theorem writeAscii_eq (value : List UInt8) : writeAscii value = ⟨asciiLog value, .ok ()⟩ := by
  unfold writeAscii asciiLog
  induction value.filter (· != 0) with
  | nil => rfl
  | cons byte rest ih =>
      rw [List.foldr_cons, List.filterMap_cons, ih]
      cases fromUtf8 [byte] <;> rfl

theorem dumpProperty_eq (p : Property) (depth : Nat) :
    dumpProperty p depth = ⟨propLog depth (toAdtProp p), .ok ()⟩ := by
  unfold dumpProperty propLog
  rw [writeIndent_eq, writeAscii_eq]
  by_cases hprint : isPrintable p.value = true
  · simp [hprint, toAdtProp, writeStr, writeHexU64, Traced.emit]
  · simp [hprint, toAdtProp, writeStr, writeHexU64, Traced.emit]

/-- The property loop prints the properties that walking the node finds. -/
theorem dumpProperties_of_walk {node : Node} {depth remaining offset : Nat} {ps : List Property}
    (hdepth : ps ≠ [] → depth + 1 ≤ usizeMax)
    (h : walkProperties node.bytes remaining offset = .ok ps) :
    dumpProperties node depth remaining offset =
      ⟨(ps.map toAdtProp).flatMap (propLog (depth + 1)), .ok ()⟩ := by
  induction remaining generalizing offset ps with
  | zero =>
      cases h
      rfl
  | succ remaining ih =>
      obtain ⟨p, hp, h⟩ := Outcome.bind_eq_ok.mp h
      obtain ⟨rest, hrest, h⟩ := Outcome.bind_eq_ok.mp h
      obtain rfl := Except.ok.inj h
      have hinner := hdepth (List.cons_ne_nil _ _)
      rw [dumpProperties, hp, Traced.lift_ok_bind, usizeAdd_of_le hinner, Outcome.orPanic_some,
        Traced.lift_ok_bind, dumpProperty_eq, Traced.mk_ok_bind, ih (fun _ => hinner) hrest]
      rfl

/-- The child loop prints the children from `index` on, given that each of them is
    dumped as its text. -/
theorem dumpChildren_of_dumps {f : Node → Nat → Printing Unit} {node : Node} {depth : Nat}
    {rest : List AdtNode} (hdepth : rest ≠ [] → depth + 1 ≤ usizeMax) {index : Nat}
    (h : ∀ i (hi : i < rest.length), ∃ child, node.childAt (index + i) = .ok child ∧
      f child (depth + 1) = ⟨nodeLog (depth + 1) rest[i], .ok ()⟩) :
    dumpChildren f node depth rest.length index = ⟨childrenLog (depth + 1) rest, .ok ()⟩ := by
  induction rest generalizing index with
  | nil =>
      rw [childrenLog]
      rfl
  | cons c cs ih =>
      obtain ⟨child, hchild, hdump⟩ := h 0 (Nat.zero_lt_succ _)
      -- the children behind the first have their numbers shifted by one
      have hlater : ∀ i (hi : i < cs.length), ∃ child, node.childAt (index + 1 + i) = .ok child ∧
          f child (depth + 1) = ⟨nodeLog (depth + 1) cs[i], .ok ()⟩ := by
        intro i hi
        obtain ⟨next, hnext, hlog⟩ := h (i + 1) (Nat.succ_lt_succ hi)
        exact ⟨next, by rw [Nat.add_assoc, Nat.add_comm 1 i, hnext], hlog⟩
      have hinner := hdepth (List.cons_ne_nil _ _)
      have hrest := ih (fun _ => hinner) hlater
      rw [List.length_cons, dumpChildren, show index = index + 0 from rfl, hchild,
        Traced.lift_ok_bind, usizeAdd_of_le hinner, Outcome.orPanic_some, Traced.lift_ok_bind,
        hdump, Traced.mk_ok_bind, Nat.add_zero, hrest, childrenLog]
      rfl

/-- A node that reads back as a tree is dumped as the text of the tree, wherever the
    levels of the tree leave room for the depth. -/
theorem dumpNode_of_readsBack {t : AdtNode} {node : Node} {depth : Nat} (h : ReadsBack node t)
    (hdepth : depth + levels t ≤ usizeMax) :
    dumpNode node depth = ⟨nodeLog depth t, .ok ()⟩ := by
  -- the children are dumped one level deeper, from their own bytes
  induction t using AdtNode.induction generalizing node depth with
  | node props children ih =>
      rw [ReadsBack] at h
      obtain ⟨hprops, hchildren, ⟨ps, hwalk, rfl⟩, hchild, _⟩ := h
      obtain ⟨_, hinnerProps, hinner⟩ := add_levels_le.mp hdepth
      dsimp only at hprops hchildren hwalk hchild
      have hdumps : ∀ i (hi : i < children.length), ∃ child, node.childAt (0 + i) = .ok child ∧
          dumpNode child (depth + 1) = ⟨nodeLog (depth + 1) children[i], .ok ()⟩ := by
        intro i hi
        obtain ⟨child, hat, hback⟩ := hchild i hi
        refine ⟨child, by rw [Nat.zero_add]; exact hat, ?_⟩
        exact ih _ (List.getElem_mem hi) hback (hinner _ (List.getElem_mem hi))
      have hinnerChildren : children ≠ [] → depth + 1 ≤ usizeMax := by
        intro hne
        obtain ⟨c, hc⟩ := List.exists_mem_of_ne_nil _ hne
        exact (Nat.le_add_right ..).trans (hinner c hc)
      have hlines := dumpProperties_of_walk
        (fun hne => hinnerProps (mt List.map_eq_nil_iff.mp hne)) hwalk
      rw [dumpNode_eq, dumpNodeWith, writeIndent_eq, nodeLog]
      simp only [hprops, hchildren, Traced.lift_ok_bind, hlines,
        dumpChildren_of_dumps hinnerChildren hdumps, Traced.mk_ok_bind, writeStr, writeHexU64,
        Traced.emit]
      simp

/-! ## From the blob to the dump -/

/-- **Whatever flattened device tree the loader accepts, the kernel can read.**
    The names are free of NULs and short, every node has a `name`, the
    serializer cannot fail, and the kernel reads and dumps exactly the tree. -/
theorem dump_parsed {b : List UInt8} {p : FdtParser} {root : AdtNode}
    (hnew : FdtParser.new b = .ok p) (hparse : p.parse = .ok root) :
    root.Everywhere (fun t =>
        (∀ prop ∈ t.props, (0 : UInt8) ∉ asBytes prop.name ∧ (asBytes prop.name).length < 32) ∧
        ∃ prop ∈ t.props, prop.name = "name") ∧
      ∃ out, writeAdtNode root [] = .ok out ∧
        (out.length < 2 ^ 32 →
          ∃ tree, AppleDeviceTree.new out = .ok tree ∧
            dumpNode tree.root 0 = ⟨nodeLog 0 root, .ok ()⟩ ∧
            dump out = ⟨.str "xnu-rs: Apple device tree\n" :: nodeLog 0 root, .ok ()⟩ ∧
            ReadsBack tree.root root) := by
  obtain ⟨haccepted, hlen⟩ := FdtParser.parse_accepted hnew hparse
  have hfits := haccepted.fits (by omega)
  have hmax : root.encode.length ≤ isizeMax := by
    have h : 12 * (2 ^ 32 + 3) ≤ isizeMax := by decide
    omega
  refine ⟨haccepted.mono fun t ht => ⟨fun prop hprop => ⟨(ht.1 prop hprop).1,
    (ht.1 prop hprop).2.1⟩, ht.2⟩, root.encode, writeAdtNode_nil_eq_ok.mpr ⟨hfits, hmax, rfl⟩,
    fun _ => ?_⟩
  -- accepted names have no NUL, which is what the walk needs to find them again
  have hreadable : root.Everywhere Readable :=
    hfits.and (haccepted.mono fun t ht prop hprop => (ht.1 prop hprop).1)
  have hback : ReadsBack ⟨root.encode⟩ root := by
    have h := readsBack_encode hreadable hmax []
    rwa [List.append_nil] at h
  have hlong : 44 ≤ root.encode.length := haccepted.here.encode_length_ge
  have hnewTree : AppleDeviceTree.new root.encode = .ok ⟨root.encode⟩ := if_neg (by omega)
  have hdump : dumpNode ⟨root.encode⟩ 0 = ⟨nodeLog 0 root, .ok ()⟩ := by
    refine dumpNode_of_readsBack hback ?_
    have h : isizeMax ≤ usizeMax := by decide
    have hlevels := levels_le_of_readsBack hback
    dsimp only at hlevels
    omega
  refine ⟨⟨root.encode⟩, hnewTree, hdump, ?_, hback⟩
  rw [dump, hnewTree]
  simp [AppleDeviceTree.root, hdump, writeStr, Traced.emit, Traced.attempt]

theorem dump_parsed_root :
    ∃ out, writeAdtNode rootTree.toAdt [] = .ok out ∧
      (out.length < 2 ^ 32 →
        ∃ tree, AppleDeviceTree.new out = .ok tree ∧
          dumpNode tree.root 0 = ⟨nodeLog 0 rootTree.toAdt, .ok ()⟩ ∧
          dump out = ⟨.str "xnu-rs: Apple device tree\n" :: nodeLog 0 rootTree.toAdt, .ok ()⟩ ∧
          ReadsBack tree.root rootTree.toAdt) :=
  (dump_parsed (new_of_flattens rootTree_flattens) (parse_of_flattens rootTree_flattens)).2

end XnuRs.DeviceTree
