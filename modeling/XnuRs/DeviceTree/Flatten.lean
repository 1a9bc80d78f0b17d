/-
  XnuRs.DeviceTree.Flatten

  The flattened form of a device tree, and that the loader's parser recovers
  every tree from it.

  `FlatNode` relates a tree to all of its flattenings: NOPs may stand anywhere
  inside a node, properties and children interleave, padding bytes are
  arbitrary, and a property name is any NUL-terminated string of the strings
  block.  `parser_runs` runs the parser over a flattening, by induction on the
  counter of its recursion: `nodeRuns_succ` for a node, `itemsRun_succ` for what
  it holds.
-/

import XnuRs.Loader.FdtParserFacts

namespace XnuRs.DeviceTree

open XnuRs.Loader

/-! ## Trees and their flattenings -/

/-- A node of a device tree, with its own name. -/
structure DtNode where
  name : String
  props : List AdtProp
  children : List DtNode

mutual

/-- The Apple device tree that stands for a device tree. -/
def DtNode.toAdt : DtNode → AdtNode
  | ⟨name, props, children⟩ => ⟨withName name props, toAdtChildren children⟩

/-- The Apple device trees that stand for a list of device trees. -/
def toAdtChildren : List DtNode → List AdtNode
  | [] => []
  | child :: rest => child.toAdt :: toAdtChildren rest

end

/-- `pad` brings `n` bytes to the next multiple of 4. -/
def Pads (n : Nat) (pad : List UInt8) : Prop := pad.length = (4 - n % 4) % 4

mutual

/-- `flat` is a flattening of the node, where `stringAt` says which name a
    property's name offset stands for. -/
inductive FlatNode (stringAt : Nat → String → Prop) : DtNode → List UInt8 → Prop where
  | node {name : String} {props : List AdtProp} {children : List DtNode}
      {pad items : List UInt8} (hnul : (0 : UInt8) ∉ asBytes name)
      (hpad : Pads ((asBytes name).length + 1) pad)
      (hitems : FlatItems stringAt props children items) :
      FlatNode stringAt ⟨name, props, children⟩
        (beBytes 4 fdtBeginNode ++ (asBytes name ++ (0 :: (pad ++
          (items ++ beBytes 4 fdtEndNode)))))

/-- `flat` is what stands between the head and the end of a node. -/
inductive FlatItems (stringAt : Nat → String → Prop) :
    List AdtProp → List DtNode → List UInt8 → Prop where
  | nil : FlatItems stringAt [] [] []
  | nop {props : List AdtProp} {children : List DtNode} {items : List UInt8}
      (hitems : FlatItems stringAt props children items) :
      FlatItems stringAt props children (beBytes 4 fdtNop ++ items)
  | prop {prop : AdtProp} {props : List AdtProp} {children : List DtNode} {nameoff : Nat}
      {pad items : List UInt8} (hname : stringAt nameoff prop.name)
      (hshort : (asBytes prop.name).length < 32) (hoff : nameoff < 2 ^ 32)
      (hlen : prop.value.length < 2 ^ 32) (hpad : Pads prop.value.length pad)
      (hitems : FlatItems stringAt props children items) :
      FlatItems stringAt (prop :: props) children
        (beBytes 4 fdtProp ++ (beBytes 4 prop.value.length ++ (beBytes 4 nameoff ++
          (prop.value ++ (pad ++ items)))))
  | child {child : DtNode} {props : List AdtProp} {children : List DtNode}
      {flat items : List UInt8} (hchild : FlatNode stringAt child flat)
      (hitems : FlatItems stringAt props children items) :
      FlatItems stringAt props (child :: children) (flat ++ items)

end

/-- `name` is the NUL-terminated string at `offset` of the strings block. -/
def NamesAt (bytes : List UInt8) (stringsOffset offset : Nat) (name : String) : Prop :=
  (0 : UInt8) ∉ asBytes name ∧
    ∃ rest, bytes.drop (stringsOffset + offset) = asBytes name ++ 0 :: rest

/-- `blob` is a flattened device tree of `t`: the header, and, at the offsets it
    gives, the structure block and the strings. -/
structure Flattens (t : DtNode) (blob : List UInt8) (totalsize offStruct offStrings : Nat) :
    Prop where
  header : ∃ rest, blob = beBytes 4 fdtMagic ++ (beBytes 4 totalsize ++ (beBytes 4 offStruct ++
    (beBytes 4 offStrings ++ rest)))
  totalsize_lt : totalsize < 2 ^ 32
  totalsize_le : totalsize ≤ blob.length
  struct_lt : offStruct < totalsize
  strings_lt : offStrings < totalsize
  struct_aligned : offStruct % 4 = 0
  structBlock : ∃ flat rest,
    FlatNode (NamesAt (blob.take totalsize) offStrings) t flat ∧
      (blob.take totalsize).drop offStruct = flat ++ (beBytes 4 fdtEnd ++ rest)

/-! ## Reading at a position whose bytes are known -/

section Cursor

variable {p : FdtParser} {text rest : List UInt8} {v : Nat}

/-- Behind a known piece of the blob. -/
theorem drop_of_drop_eq {bytes : List UInt8} {pos : Nat} (h : bytes.drop pos = text ++ rest) :
    bytes.drop (pos + text.length) = rest := by
  rw [← List.drop_drop, h, List.drop_left]

theorem drop_word {bytes : List UInt8} {pos : Nat} (h : bytes.drop pos = beBytes 4 v ++ rest) :
    bytes.drop (pos + 4) = rest := by
  have hdrop := drop_of_drop_eq h
  rwa [beBytes_length] at hdrop

theorem length_of_drop_eq {bytes : List UInt8} {pos : Nat}
    (h : bytes.drop pos = text ++ rest) :
    bytes.length - pos = text.length + rest.length := by
  have hlen := congrArg List.length h
  rwa [List.length_drop, List.length_append] at hlen

theorem wordAt_of_drop {bytes : List UInt8} {pos : Nat}
    (h : bytes.drop pos = beBytes 4 v ++ rest) (hv : v < 2 ^ 32) :
    pos + 4 ≤ bytes.length ∧ FdtParser.wordAt bytes pos = v := by
  have hlen := length_of_drop_eq h
  rw [beBytes_length] at hlen
  refine ⟨by omega, ?_⟩
  rw [FdtParser.wordAt, h, List.take_left' (beBytes_length 4 v)]
  exact beToNat_beBytes hv

theorem peekToken_of_drop (hb : p.bytes.length < 2 ^ 32)
    (h : p.bytes.drop p.pos = beBytes 4 v ++ rest) (hv : v < 2 ^ 32) :
    p.peekToken = .ok v := by
  obtain ⟨hlen, hword⟩ := wordAt_of_drop h hv
  exact (FdtParser.peekToken_eq_ok hb).mpr ⟨hlen, hword.symm⟩

theorem readToken_of_drop (hb : p.bytes.length < 2 ^ 32)
    (h : p.bytes.drop p.pos = beBytes 4 v ++ rest) (hv : v < 2 ^ 32) :
    p.readToken = .ok (v, { p with pos := p.pos + 4 }) := by
  obtain ⟨hlen, hword⟩ := wordAt_of_drop h hv
  exact (FdtParser.readToken_eq_ok hb).mpr ⟨hlen, hword.symm, rfl⟩

theorem expectToken_of_drop (hb : p.bytes.length < 2 ^ 32)
    (h : p.bytes.drop p.pos = beBytes 4 v ++ rest) (hv : v < 2 ^ 32) :
    p.expectToken v = .ok { p with pos := p.pos + 4 } := by
  obtain ⟨hlen, hword⟩ := wordAt_of_drop h hv
  exact (FdtParser.expectToken_eq_ok hb).mpr ⟨hlen, hword, rfl⟩

theorem readCstr_of_drop {name : String} (hb : p.bytes.length < 2 ^ 32)
    (hnul : (0 : UInt8) ∉ asBytes name)
    (h : p.bytes.drop p.pos = asBytes name ++ 0 :: rest) :
    p.readCstr = .ok (name, { p with pos := p.pos + (asBytes name).length + 1 }) := by
  have hlen := length_of_drop_eq h
  rw [List.length_cons] at hlen
  refine (FdtParser.readCstr_eq_ok hb (by omega)).mpr ?_
  rw [h, beforeNul_append hnul]
  exact ⟨by simp, fromUtf8_asBytes name, rfl⟩

/-- A property token with its words, its value and its padding. -/
theorem parseProp_of_drop {prop : AdtProp} {nameoff : Nat} {pad : List UInt8}
    (hb : p.bytes.length < 2 ^ 32) (hs : p.stringsOffset < 2 ^ 32) (halign : p.pos % 4 = 0)
    (hname : NamesAt p.bytes p.stringsOffset nameoff prop.name)
    (hshort : (asBytes prop.name).length < 32) (hoff : nameoff < 2 ^ 32)
    (hlen : prop.value.length < 2 ^ 32) (hpad : Pads prop.value.length pad)
    (h : p.bytes.drop p.pos = beBytes 4 fdtProp ++ (beBytes 4 prop.value.length ++
      (beBytes 4 nameoff ++ (prop.value ++ (pad ++ rest))))) :
    p.parseProp = .ok (prop, { p with pos := p.pos + 12 + prop.value.length + pad.length }) := by
  obtain ⟨hnul, tail, htail⟩ := hname
  -- the words of the property one after another, then the name in the strings block
  obtain ⟨_, htoken⟩ := wordAt_of_drop h (by decide)
  have h4 := drop_word h
  obtain ⟨_, hvlen⟩ := wordAt_of_drop h4 hlen
  have h8 := drop_word h4
  obtain ⟨_, hnoff⟩ := wordAt_of_drop h8 hoff
  have h12 := drop_word h8
  have hroom := length_of_drop_eq h12
  refine (FdtParser.parseProp_eq_ok hb hs).mpr ?_
  rw [hvlen, hnoff, htail, beforeNul_append hnul]
  refine ⟨by omega, htoken, by simp, fromUtf8_asBytes _, hshort, ?_, ?_⟩
  · rw [show p.pos + 12 = p.pos + 4 + 4 + 4 by omega, h12, List.take_left]
  · rw [Pads] at hpad
    congr 1
    omega

end Cursor

/-! ## Running the parser over a flattening -/

/-- With `fuel` rounds left, `parse_node` reads every flattened node that fits
    the blob, and leaves the cursor behind it. -/
def NodeRuns (fuel : Nat) : Prop :=
  ∀ {t : DtNode} {flat rest : List UInt8} {p : FdtParser},
    FlatNode (NamesAt p.bytes p.stringsOffset) t flat →
    p.bytes.length < 2 ^ 32 → p.stringsOffset < 2 ^ 32 → p.pos % 4 = 0 →
    p.bytes.length < fuel + p.pos → p.bytes.drop p.pos = flat ++ rest →
    FdtParser.parseNode fuel p = .ok (t.toAdt, { p with pos := p.pos + flat.length }) ∧
      flat.length % 4 = 0

/-- With `fuel` rounds left, the loop of `parse_node` reads all items of a node
    up to and including its end token. -/
def ItemsRun (fuel : Nat) : Prop :=
  ∀ {props : List AdtProp} {children : List DtNode} {items rest : List UInt8} {p : FdtParser},
    FlatItems (NamesAt p.bytes p.stringsOffset) props children items →
    p.bytes.length < 2 ^ 32 → p.stringsOffset < 2 ^ 32 → p.pos % 4 = 0 →
    p.bytes.length + 1 < fuel + p.pos →
    p.bytes.drop p.pos = items ++ (beBytes 4 fdtEndNode ++ rest) →
    ∀ (accProps : List AdtProp) (accChildren : List AdtNode),
      FdtParser.parseItems fuel p accProps accChildren =
          .ok (accProps ++ props, accChildren ++ toAdtChildren children,
            { p with pos := p.pos + items.length + 4 }) ∧
        items.length % 4 = 0

theorem nodeRuns_succ {fuel : Nat} (hitemsRun : ItemsRun fuel) : NodeRuns (fuel + 1) := by
  intro t flat rest p hflat hb hs halign hfuel h
  cases hflat with
  | @node name props children pad items hnul hpad hitems =>
      rw [Pads] at hpad
      simp only [List.append_assoc, List.cons_append] at h
      have h4 := drop_word h
      have hname := drop_of_drop_eq h4
      -- behind the NUL of the name
      have hpadding : p.bytes.drop (p.pos + 4 + (asBytes name).length + 1) =
          pad ++ (items ++ (beBytes 4 fdtEndNode ++ rest)) := by
        rw [← List.drop_drop, hname, List.drop_succ_cons, List.drop_zero]
      have hitem := drop_of_drop_eq hpadding
      have hroom := length_of_drop_eq h4
      rw [List.length_cons] at hroom
      have hbegin : p.expectToken fdtBeginNode = .ok { p with pos := p.pos + 4 } :=
        expectToken_of_drop hb h (by decide)
      have hcstr : FdtParser.readCstr { p with pos := p.pos + 4 } =
          .ok (name, { p with pos := p.pos + 4 + (asBytes name).length + 1 }) :=
        readCstr_of_drop (p := { p with pos := p.pos + 4 }) hb hnul h4
      have hskip : FdtParser.alignPos { p with pos := p.pos + 4 + (asBytes name).length + 1 } =
          .ok { p with pos := p.pos + 4 + (asBytes name).length + 1 + pad.length } := by
        refine (FdtParser.alignPos_eq_ok (by dsimp only; omega)).mpr ?_
        congr 1
        dsimp only
        omega
      obtain ⟨hrun, hmod⟩ := hitemsRun
        (p := { p with pos := p.pos + 4 + (asBytes name).length + 1 + pad.length })
        hitems hb hs (by dsimp only; omega) (by dsimp only; omega) hitem [] []
      refine ⟨?_, ?_⟩
      · simp only [FdtParser.parseNode, hbegin, hcstr, hskip, hrun, FdtParser.insertName_eq,
          Outcome.ok_bind, List.nil_append, DtNode.toAdt, List.length_append, List.length_cons,
          beBytes_length, Except.ok.injEq, Prod.mk.injEq, FdtParser.mk.injEq, true_and]
        omega
      · simp only [List.length_append, List.length_cons, beBytes_length]
        omega

/-- One item: a round of the loop for a NOP and for a property, a nested node for
    a child, and the end token once nothing is left. -/
theorem itemsRun_succ {fuel : Nat} (hnodeRuns : NodeRuns fuel) (hitemsRun : ItemsRun fuel) :
    ItemsRun (fuel + 1) := by
  intro props children items rest p hitems hb hs halign hfuel h accProps accChildren
  cases hitems with
  | nil =>
      rw [List.nil_append] at h
      have hpeek := peekToken_of_drop hb h (by decide)
      have hread := readToken_of_drop hb h (by decide)
      refine ⟨?_, rfl⟩
      rw [FdtParser.parseItems_endNode hpeek hread, List.append_nil, toAdtChildren,
        List.append_nil]
      rfl
  | @nop _ _ items hitems =>
      rw [List.append_assoc] at h
      have hpeek := peekToken_of_drop hb h (by decide)
      have hread := readToken_of_drop hb h (by decide)
      have hroom := length_of_drop_eq h
      obtain ⟨hrun, hmod⟩ := hitemsRun (p := { p with pos := p.pos + 4 }) hitems hb hs
        (by dsimp only; omega) (by dsimp only; omega) (drop_word h) accProps accChildren
      have hlength : (beBytes 4 fdtNop ++ items).length = 4 + items.length := by
        rw [List.length_append, beBytes_length]
      refine ⟨?_, by omega⟩
      rw [FdtParser.parseItems_nop hpeek hread, hrun, hlength]
      simp only [Except.ok.injEq, Prod.mk.injEq, FdtParser.mk.injEq, true_and]
      omega
  | @prop prop props _ nameoff pad items hname hshort hoff hlen hpad hitems =>
      simp only [List.append_assoc] at h
      have hpeek := peekToken_of_drop hb h (by decide)
      have hparse := parseProp_of_drop hb hs halign hname hshort hoff hlen hpad h
      -- behind the three words of the property, its value and the padding
      have h12 := drop_word (drop_word (drop_word h))
      have hroom := length_of_drop_eq h12
      have hnext := drop_of_drop_eq (drop_of_drop_eq h12)
      rw [Pads] at hpad
      obtain ⟨hrun, hmod⟩ := hitemsRun
        (p := { p with pos := p.pos + 12 + prop.value.length + pad.length }) hitems hb hs
        (by dsimp only; omega) (by dsimp only; omega) hnext (accProps ++ [prop]) accChildren
      refine ⟨?_, ?_⟩
      · rw [FdtParser.parseItems_prop hpeek hparse, hrun]
        simp only [List.length_append, beBytes_length, List.append_assoc, List.singleton_append,
          Except.ok.injEq, Prod.mk.injEq, FdtParser.mk.injEq, true_and]
        omega
      · simp only [List.length_append, beBytes_length]
        omega
  | @child child _ children flat items hchild hitems =>
      rw [List.append_assoc] at h
      obtain ⟨hnode, hmod⟩ := hnodeRuns hchild hb hs halign (by omega) h
      have hpeek : p.peekToken = .ok fdtBeginNode := by
        cases hchild with
        | node =>
            simp only [List.append_assoc] at h
            exact peekToken_of_drop hb h (by decide)
      -- a node is longer than its token, so the counter is still large enough
      have hlong : 4 ≤ flat.length := by
        cases hchild with
        | node =>
            rw [List.length_append, beBytes_length]
            omega
      have hroom := length_of_drop_eq h
      obtain ⟨hrun, hmod'⟩ := hitemsRun (p := { p with pos := p.pos + flat.length }) hitems hb hs
        (by dsimp only; omega) (by dsimp only; omega) (drop_of_drop_eq h) accProps
        (accChildren ++ [child.toAdt])
      refine ⟨?_, ?_⟩
      · rw [FdtParser.parseItems_child hpeek hnode, hrun, toAdtChildren]
        simp only [List.length_append, List.append_assoc, List.singleton_append, Except.ok.injEq,
          Prod.mk.injEq, FdtParser.mk.injEq, true_and]
        omega
      · rw [List.length_append]
        omega

theorem parser_runs (fuel : Nat) : NodeRuns fuel ∧ ItemsRun fuel := by
  -- without a counter left the cursor would be past the blob
  induction fuel with
  | zero =>
      refine ⟨?_, ?_⟩
      · intro t flat rest p hflat hb hs halign hfuel h
        have hroom := length_of_drop_eq h
        cases hflat with
        | node =>
            rw [List.length_append, beBytes_length] at hroom
            omega
      · intro props children items rest p hitems hb hs halign hfuel h
        have hroom := length_of_drop_eq h
        rw [List.length_append, beBytes_length] at hroom
        omega
  | succ fuel ih => exact ⟨nodeRuns_succ ih.2, itemsRun_succ ih.1 ih.2⟩

/-! ## The header -/

theorem new_of_flattens {t : DtNode} {blob : List UInt8} {totalsize offStruct offStrings : Nat}
    (h : Flattens t blob totalsize offStruct offStrings) :
    FdtParser.new blob = .ok ⟨blob.take totalsize, offStrings, offStruct⟩ := by
  obtain ⟨rest, hheader⟩ := h.header
  have htotal := h.totalsize_lt
  have hstruct := h.struct_lt
  have hstrings := h.strings_lt
  have hdrop : blob.drop 0 = beBytes 4 fdtMagic ++ _ := hheader
  obtain ⟨_, hmagic⟩ := wordAt_of_drop hdrop (by decide)
  obtain ⟨_, hword4⟩ := wordAt_of_drop (drop_word hdrop) htotal
  obtain ⟨_, hword8⟩ := wordAt_of_drop (drop_word (drop_word hdrop)) (by omega)
  obtain ⟨hlen, hword12⟩ := wordAt_of_drop (drop_word (drop_word (drop_word hdrop))) (by omega)
  rw [FdtParser.new_eq_ok, hmagic, hword4, hword8, hword12]
  exact ⟨hlen, rfl, h.totalsize_le, hstruct, hstrings, rfl⟩

theorem parse_of_flattens {t : DtNode} {blob : List UInt8} {totalsize offStruct offStrings : Nat}
    (h : Flattens t blob totalsize offStruct offStrings) :
    FdtParser.parse ⟨blob.take totalsize, offStrings, offStruct⟩ = .ok t.toAdt := by
  obtain ⟨flat, rest, hflat, hblock⟩ := h.structBlock
  have htotal := h.totalsize_lt
  have hstrings := h.strings_lt
  have hlen : (blob.take totalsize).length ≤ totalsize := List.length_take_le ..
  obtain ⟨hrun, _⟩ := (parser_runs ((blob.take totalsize).length + 1)).1
    (p := ⟨blob.take totalsize, offStrings, offStruct⟩) hflat (by dsimp only; omega)
    (by dsimp only; omega) h.struct_aligned (by dsimp only; omega) hblock
  rw [FdtParser.parse, hrun]
  rfl

/-- **The parser recovers every tree from every flattening of it.** -/
theorem parse_flattened {t : DtNode} {blob : List UInt8} {totalsize offStruct offStrings : Nat}
    (h : Flattens t blob totalsize offStruct offStrings) :
    ∃ parser, FdtParser.new blob = .ok parser ∧ parser.parse = .ok t.toAdt :=
  ⟨_, new_of_flattens h, parse_of_flattens h⟩

/-! ## A flattened tree -/

/-- A root without a name, with the property `reg` and the child `cpu`. -/
def rootTree : DtNode := ⟨"", [⟨"reg", [5]⟩], [⟨"cpu", [], []⟩]⟩

/-- The flattened child `cpu`. -/
def cpuNode : List UInt8 :=
  beBytes 4 fdtBeginNode ++ (asBytes "cpu" ++ (0 :: ([] ++ ([] ++ beBytes 4 fdtEndNode))))

/-- A property with odd padding, a NOP and the child. -/
def rootItems : List UInt8 :=
  beBytes 4 fdtProp ++ (beBytes 4 1 ++ (beBytes 4 2 ++ ([5] ++ ([0, 1, 0] ++
    (beBytes 4 fdtNop ++ (cpuNode ++ []))))))

/-- The structure block of a root without a name. -/
def rootStruct : List UInt8 :=
  beBytes 4 fdtBeginNode ++ (asBytes "" ++ (0 :: ([7, 8, 9] ++
    (rootItems ++ beBytes 4 fdtEndNode))))

/-- The strings block: `reg` is the suffix of a longer string. -/
def rootStrings : List UInt8 := asBytes "a-reg" ++ [0]

/-- The blob of the root with the two blocks, and a byte behind it. -/
def rootBlob : List UInt8 :=
  beBytes 4 fdtMagic ++ (beBytes 4 70 ++ (beBytes 4 16 ++ (beBytes 4 64 ++
    (rootStruct ++ (beBytes 4 fdtEnd ++ (rootStrings ++ [1]))))))

theorem rootTree_flattens : Flattens rootTree rootBlob 70 16 64 where
  header := ⟨rootStruct ++ (beBytes 4 fdtEnd ++ (rootStrings ++ [1])), rfl⟩
  totalsize_lt := by decide
  totalsize_le := by decide
  struct_lt := by decide
  strings_lt := by decide
  struct_aligned := by decide
  structBlock := ⟨rootStruct, rootStrings,
    .node (by decide) rfl
      (.prop ⟨by decide, [], by decide⟩ (by decide) (by decide) (by decide) rfl
        (.nop (.child (.node (by decide) rfl .nil) .nil))),
    by decide⟩

theorem parse_flattened_root :
    ∃ parser, FdtParser.new rootBlob = .ok parser ∧ parser.parse = .ok rootTree.toAdt :=
  parse_flattened rootTree_flattens

end XnuRs.DeviceTree
