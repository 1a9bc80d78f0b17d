/-
  XnuRs.DeviceTree.RoundTrip

  What the loader serializes, the kernel reads back.

  The serializer and the reader live in different crates and count alignment
  from different places: the writer pads the whole buffer, the reader rounds an
  offset into the current node's slice.  Every node's bytes are a multiple of 4
  long, so both agree.  The slice of a node runs to the end of the buffer, which
  is why each lemma here holds for any bytes `s` behind the node.

  `childAtWith_encode` and `totalLen_encode` are the two halves of the mutual
  recursion; `readsBack_encode` assembles them over the tree.
-/

import XnuRs.Loader.Adt
import XnuRs.Kernel.DeviceTreeFacts

namespace XnuRs.DeviceTree

open XnuRs.Loader XnuRs.Kernel

/-! ## What it means to read a tree back -/

/-- The properties that walking `Property::parse` from `offset` finds. -/
def walkProperties (bytes : List UInt8) : Nat → Nat → Outcome Unit (List Property)
  | 0, _ => .ok []
  | remaining + 1, offset => do
    let property ← Property.parse bytes offset
    let rest ← walkProperties bytes remaining property.stop
    .ok (property :: rest)

/-- The name and the value of a property the kernel found. -/
def toAdtProp (p : Property) : AdtProp := ⟨p.name, p.value⟩

/-- The kernel's accessors over `node` give exactly the tree `t`. -/
def ReadsBack (node : Node) (t : AdtNode) : Prop :=
  node.propertyCount = .ok t.props.length ∧
  node.childCount = .ok t.children.length ∧
  (∃ ps, walkProperties node.bytes t.props.length 8 = .ok ps ∧ ps.map toAdtProp = t.props) ∧
  (∀ i (h : i < t.children.length),
    ∃ child, node.childAt i = .ok child ∧ ReadsBack child t.children[i]) ∧
  (∀ i, t.children.length ≤ i → node.childAt i = .err ())
termination_by sizeOf t
decreasing_by exact AdtNode.sizeOf_child_lt (List.getElem_mem h)

/-- The names of a node's properties are free of NULs. -/
def NulFree (t : AdtNode) : Prop := ∀ p ∈ t.props, (0 : UInt8) ∉ asBytes p.name

instance (t : AdtNode) : Decidable (NulFree t) := inferInstanceAs (Decidable (∀ p ∈ t.props, _))

/-- A node the reader can give back: it fits the format and its names are free
    of NULs. -/
def Readable (t : AdtNode) : Prop := t.Fits ∧ NulFree t

/-! ## Properties -/

/-- A name in its field, up to the first NUL. -/
theorem beforeNul_nameField {p : AdtProp} (hname : (asBytes p.name).length < 32)
    (hnul : (0 : UInt8) ∉ asBytes p.name) : beforeNul p.nameField = asBytes p.name := by
  obtain ⟨k, hk⟩ : ∃ k, 32 - (asBytes p.name).length = k + 1 :=
    ⟨31 - (asBytes p.name).length, by omega⟩
  rw [AdtProp.nameField, hk, List.replicate_succ]
  exact beforeNul_append hnul

/-- `Property::parse` at an aligned offset reads what the serializer wrote there. -/
theorem parse_encode {p : AdtProp} (hp : p.Fits) (hnul : (0 : UInt8) ∉ asBytes p.name)
    (pre post : List UInt8) {bytes : List UInt8} (hbytes : bytes = pre ++ p.encode ++ post)
    (halign : pre.length % 4 = 0) (hmax : pre.length + p.encode.length ≤ isizeMax) :
    Property.parse bytes pre.length = .ok ⟨p.name, p.value, pre.length + p.encode.length⟩ := by
  have henc := AdtProp.encode_length hp
  obtain ⟨hname, hvalue⟩ := hp
  have hfield := AdtProp.nameField_length hname
  have hsplit : bytes = pre ++ p.nameField ++ leBytes 4 p.value.length ++ p.value ++
      p.padding ++ post := by
    simp only [hbytes, AdtProp.encode, AdtProp.encodeBody, List.append_assoc]
  -- the length word stands behind the 32 bytes of the name
  have hdeclared : declaredLen bytes pre.length = p.value.length := by
    rw [declaredLen, slice_of_eq (pre ++ p.nameField) (leBytes 4 p.value.length)
      (p.value ++ p.padding ++ post) (by simp only [hsplit, List.append_assoc])
      (by rw [List.length_append, hfield]) (leBytes_length ..).symm]
    exact leToNat_leBytes hvalue
  rw [Property.parse_eq_ok, hdeclared]
  refine ⟨?_, ?_, ?_, ?_, ?_⟩
  · rw [slice_of_eq pre p.nameField (leBytes 4 p.value.length ++ p.value ++ p.padding ++ post)
      (by simp only [hsplit, List.append_assoc]) rfl hfield.symm,
      beforeNul_nameField hname hnul, fromUtf8_asBytes]
  · refine (slice_of_eq (pre ++ p.nameField ++ leBytes 4 p.value.length) p.value
      (p.padding ++ post) (by simp only [hsplit, List.append_assoc]) ?_ rfl).symm
    rw [List.length_append, List.length_append, leBytes_length, hfield]
  · show pre.length + p.encode.length = _
    omega
  · show pre.length + p.encode.length ≤ _
    rw [hbytes, List.length_append, List.length_append]
    omega
  · have : isizeMax + 3 ≤ usizeMax := by decide
    omega

/-- The properties of a node, walked from the end of `pre`. -/
theorem walkProperties_encode {props : List AdtProp} (hfits : ∀ p ∈ props, p.Fits)
    (hnul : ∀ p ∈ props, (0 : UInt8) ∉ asBytes p.name) (pre post : List UInt8)
    {bytes : List UInt8}
    (hbytes : bytes = pre ++ props.flatMap AdtProp.encode ++ post)
    (halign : pre.length % 4 = 0)
    (hmax : pre.length + (props.flatMap AdtProp.encode).length ≤ isizeMax) :
    Node.propertiesEndLoop bytes props.length pre.length =
        .ok (pre.length + (props.flatMap AdtProp.encode).length) ∧
      ∃ ps, walkProperties bytes props.length pre.length = .ok ps ∧ ps.map toAdtProp = props := by
  induction props generalizing pre with
  | nil => exact ⟨rfl, [], rfl, rfl⟩
  | cons p rest ih =>
      rw [List.flatMap_cons] at hbytes hmax
      rw [List.length_append] at hmax
      have hp := hfits p (List.mem_cons_self ..)
      have hsplit : bytes = pre ++ p.encode ++ (rest.flatMap AdtProp.encode ++ post) := by
        simp only [hbytes, List.append_assoc]
      have hparse := parse_encode hp (hnul p (List.mem_cons_self ..)) pre _ hsplit halign
        (by omega)
      have hlen : (pre ++ p.encode).length = pre.length + p.encode.length := List.length_append
      -- the rest of the list, with this property among what stands before it
      have hnext := ih (fun q hq => hfits q (List.mem_cons_of_mem _ hq))
        (fun q hq => hnul q (List.mem_cons_of_mem _ hq)) (pre ++ p.encode)
        (by simp only [hbytes, List.append_assoc])
        (by rw [hlen, AdtProp.encode_length hp]; omega) (by rw [hlen]; omega)
      rw [hlen] at hnext
      obtain ⟨hend, ps, hwalk, hps⟩ := hnext
      refine ⟨?_, ⟨p.name, p.value, pre.length + p.encode.length⟩ :: ps, ?_, ?_⟩
      · rw [List.length_cons, Node.propertiesEndLoop, hparse, Outcome.ok_bind, hend,
          List.flatMap_cons, List.length_append, Nat.add_assoc]
      · rw [List.length_cons, walkProperties, hparse, Outcome.ok_bind, hwalk]
        rfl
      · rw [List.map_cons, hps]
        rfl

/-! ## Nodes -/

/-- The counts, the properties and the place of the children of a serialized
    node with any bytes `s` behind it. -/
theorem header_encode {props : List AdtProp} {children : List AdtNode} {s : List UInt8}
    (h : Readable ⟨props, children⟩)
    (hmax : (AdtNode.encode ⟨props, children⟩).length ≤ isizeMax) :
    let node : Node := ⟨AdtNode.encode ⟨props, children⟩ ++ s⟩
    node.propertyCount = .ok props.length ∧ node.childCount = .ok children.length ∧
      node.propertiesEnd = .ok (8 + (props.flatMap AdtProp.encode).length) ∧
      ∃ ps, walkProperties node.bytes props.length 8 = .ok ps ∧ ps.map toAdtProp = props := by
  obtain ⟨⟨hprops, hchildren, hfits⟩, hnul⟩ := h
  intro node
  have hbytes : node.bytes = (leBytes 4 props.length ++ leBytes 4 children.length) ++
      props.flatMap AdtProp.encode ++ (encodeChildren children ++ s) := by
    show AdtNode.encode _ ++ s = _
    rw [encode_mk]
    simp only [List.append_assoc]
  have hpre : (leBytes 4 props.length ++ leBytes 4 children.length).length = 8 := by
    rw [List.length_append, leBytes_length, leBytes_length]
  have hlen : 8 + (props.flatMap AdtProp.encode).length ≤ isizeMax := by
    rw [encode_mk, List.length_append, List.length_append, hpre] at hmax
    omega
  have hlong : 8 ≤ node.bytes.length := by
    rw [hbytes, List.length_append, List.length_append, hpre]
    omega
  have hmax8 : (8 : Nat) ≤ usizeMax := by decide
  -- the two counts are the first two words
  have hslice : (node.bytes.drop 0).take 4 = leBytes 4 props.length :=
    slice_of_eq [] _ (leBytes 4 children.length ++ props.flatMap AdtProp.encode ++
      (encodeChildren children ++ s))
      (by rw [hbytes]; simp only [List.append_assoc, List.nil_append]) rfl
      (leBytes_length ..).symm
  have hslice' : (node.bytes.drop 4).take 4 = leBytes 4 children.length :=
    slice_of_eq (leBytes 4 props.length) _ (props.flatMap AdtProp.encode ++
      (encodeChildren children ++ s))
      (by rw [hbytes]; simp only [List.append_assoc]) (leBytes_length ..).symm
      (leBytes_length ..).symm
  have hcount : node.propertyCount = .ok props.length := by
    refine readLeU32_eq_ok.mpr ⟨by omega, by omega, ?_⟩
    rw [hslice, leToNat_leBytes hprops]
  have hchild : node.childCount = .ok children.length := by
    refine readLeU32_eq_ok.mpr ⟨by omega, by omega, ?_⟩
    rw [hslice', leToNat_leBytes hchildren]
  have hwalk := walkProperties_encode hfits hnul _ _ hbytes (by rw [hpre])
    (by rw [hpre]; exact hlen)
  rw [hpre] at hwalk
  refine ⟨hcount, hchild, ?_, hwalk.2⟩
  rw [Node.propertiesEnd, hcount, Outcome.ok_bind, hwalk.1]

/-- `child_at` walks over serialized siblings: `rest` are the children from
    `index` on, which start at `offset`. -/
theorem childAtLoop_encode {f : Node → Outcome Unit Nat} {node : Node} {s : List UInt8}
    {rest : List AdtNode} (hf : ∀ c ∈ rest, ∀ s, f ⟨c.encode ++ s⟩ = .ok c.encode.length)
    {wanted index offset : Nat} (hwanted : index ≤ wanted)
    (hslice : getFrom node.bytes offset = some (encodeChildren rest ++ s))
    (hmax : offset + (encodeChildren rest).length ≤ usizeMax) :
    Node.childAtLoop f node wanted rest.length index offset =
      match rest.drop (wanted - index) with
      | [] => .err ()
      | c :: cs => .ok ⟨c.encode ++ (encodeChildren cs ++ s)⟩ := by
  induction rest generalizing index offset with
  | nil => simp [Node.childAtLoop]
  | cons c cs ih =>
      have hcons : encodeChildren (c :: cs) ++ s = c.encode ++ (encodeChildren cs ++ s) := by
        rw [encodeChildren, List.append_assoc]
      rw [hcons] at hslice
      rw [encodeChildren, List.length_append] at hmax
      rw [List.length_cons, Node.childAtLoop, hslice, Outcome.okOr_some, Outcome.ok_bind,
        hf c (List.mem_cons_self ..), Outcome.ok_bind]
      by_cases heq : index = wanted
      · rw [if_pos heq, heq, Nat.sub_self, List.drop_zero]
      · obtain ⟨hle, hdrop⟩ := getFrom_eq_some.mp hslice
        have hlen := congrArg List.length hdrop
        simp only [List.length_append, List.length_drop] at hlen
        have hnext : getFrom node.bytes (offset + c.encode.length) =
            some (encodeChildren cs ++ s) := by
          refine getFrom_eq_some.mpr ⟨by omega, ?_⟩
          rw [← List.drop_drop, ← hdrop, List.drop_left]
        -- the loop has to skip this child and `k` more
        obtain ⟨k, hk⟩ : ∃ k, wanted - index = k + 1 := ⟨wanted - index - 1, by omega⟩
        have hk' : wanted - (index + 1) = k := by omega
        rw [if_neg heq, usizeAdd_of_le (by omega), Outcome.okOr_some, Outcome.ok_bind,
          ih (fun d hd => hf d (List.mem_cons_of_mem _ hd)) (by omega) hnext (by omega), hk,
          List.drop_succ_cons, hk']

/-- The node that `child_at` finds in a serialized node with `s` behind it. -/
def nthChild (children : List AdtNode) (s : List UInt8) (i : Nat) : Outcome Unit Node :=
  match children.drop i with
  | [] => .err ()
  | c :: cs => .ok ⟨c.encode ++ (encodeChildren cs ++ s)⟩

/-- `child_at` over a serialized node, given that `total_len` measures the
    serialized children. -/
theorem childAtWith_encode {f : Node → Outcome Unit Nat} {props : List AdtProp}
    {children : List AdtNode} (h : Readable ⟨props, children⟩)
    (hmax : (AdtNode.encode ⟨props, children⟩).length ≤ isizeMax)
    (hf : ∀ c ∈ children, ∀ s, f ⟨c.encode ++ s⟩ = .ok c.encode.length) (s : List UInt8)
    (i : Nat) :
    Node.childAtWith f ⟨AdtNode.encode ⟨props, children⟩ ++ s⟩ i = nthChild children s i := by
  obtain ⟨_, hchild, hend, _⟩ := header_encode (s := s) h hmax
  have hlen := congrArg List.length (encode_mk props children)
  simp only [List.length_append, leBytes_length] at hlen
  have hslice : getFrom (AdtNode.encode ⟨props, children⟩ ++ s)
      (8 + (props.flatMap AdtProp.encode).length) = some (encodeChildren children ++ s) := by
    refine getFrom_eq_some.mpr ⟨by rw [List.length_append]; omega, ?_⟩
    rw [encode_mk, List.append_assoc, List.drop_left']
    simp only [List.length_append, leBytes_length]
  have hmax' : isizeMax ≤ usizeMax := by decide
  rw [Node.childAtWith, hend, Outcome.ok_bind, hchild, Outcome.ok_bind,
    childAtLoop_encode hf (Nat.zero_le i) hslice (by omega)]
  rfl

/-- `total_len` of a serialized node is the number of its bytes, whatever
    stands behind it. -/
theorem totalLen_encode {t : AdtNode} (h : t.Everywhere Readable)
    (hmax : t.encode.length ≤ isizeMax) (s : List UInt8) :
    Node.totalLen ⟨t.encode ++ s⟩ = .ok t.encode.length := by
  induction t using AdtNode.induction generalizing s with
  | node props children ih =>
      have hlen := congrArg List.length (encode_mk props children)
      simp only [List.length_append, leBytes_length] at hlen
      have hf : ∀ c ∈ children, ∀ s, Node.totalLen ⟨c.encode ++ s⟩ = .ok c.encode.length := by
        intro c hc s
        refine ih c hc (h.children c hc) ?_ s
        have hle := encode_length_le hc
        omega
      have hmax' : isizeMax ≤ usizeMax := by decide
      -- the loop steps over the children one by one, measuring each
      have hloop : ∀ rest index offset, children.drop index = rest →
          offset + (encodeChildren rest).length ≤ usizeMax →
          Node.totalLenLoop Node.totalLen ⟨AdtNode.encode ⟨props, children⟩ ++ s⟩ rest.length
            index offset = .ok (offset + (encodeChildren rest).length) := by
        intro rest
        induction rest with
        | nil => intro index offset _ _; rfl
        | cons c cs ihrest =>
            intro index offset hdrop hroom
            rw [encodeChildren, List.length_append] at hroom
            have hc : c ∈ children := List.mem_of_mem_drop (hdrop ▸ List.mem_cons_self ..)
            have hcs : children.drop (index + 1) = cs := by
              rw [← List.tail_drop, hdrop, List.tail_cons]
            rw [List.length_cons, Node.totalLenLoop, childAtWith_encode h.here hmax hf, nthChild,
              hdrop]
            simp only [Outcome.ok_bind, hf c hc, usizeAdd_of_le (show offset + c.encode.length ≤
              usizeMax by omega), Outcome.okOr_some]
            rw [ihrest _ _ hcs (by omega), encodeChildren, List.length_append, Nat.add_assoc]
      obtain ⟨_, hchild, hend, _⟩ := header_encode (s := s) h.here hmax
      rw [Node.totalLen_eq, Node.totalLenWith, hend, Outcome.ok_bind, hchild, Outcome.ok_bind,
        hloop children 0 _ rfl (by omega)]
      congr 1
      omega

/-- A serialized tree reads back, whatever stands behind it. -/
theorem readsBack_encode {t : AdtNode} (h : t.Everywhere Readable)
    (hmax : t.encode.length ≤ isizeMax) (s : List UInt8) :
    ReadsBack ⟨t.encode ++ s⟩ t := by
  induction t using AdtNode.induction generalizing s with
  | node props children ih =>
      -- a child is shorter than the node it is in
      have hsmall : ∀ c ∈ children, c.encode.length ≤ isizeMax := fun c hc => by
        have hle := encode_length_le hc
        have hlen := congrArg List.length (encode_mk props children)
        simp only [List.length_append, leBytes_length] at hlen
        omega
      have hchildAt : ∀ i, Node.childAt ⟨AdtNode.encode ⟨props, children⟩ ++ s⟩ i =
          nthChild children s i :=
        childAtWith_encode h.here hmax
          (fun c hc s => totalLen_encode (h.children c hc) (hsmall c hc) s) s
      obtain ⟨hcount, hchild, _, hwalk⟩ := header_encode (s := s) h.here hmax
      rw [ReadsBack]
      refine ⟨hcount, hchild, hwalk, ?_, ?_⟩
      · intro i hi
        have hdrop : children.drop i = children[i] :: children.drop (i + 1) :=
          List.drop_eq_getElem_cons hi
        refine ⟨⟨children[i].encode ++ (encodeChildren (children.drop (i + 1)) ++ s)⟩, ?_, ?_⟩
        · rw [hchildAt, nthChild, hdrop]
        · exact ih _ (List.getElem_mem hi) (h.children _ (List.getElem_mem hi))
            (hsmall _ (List.getElem_mem hi)) _
      · intro i hi
        rw [hchildAt, nthChild, List.drop_of_length_le hi]

/-- **Round trip.**  What `write_adt_node` writes into an empty buffer reads back
    as the same tree in the kernel, with any bytes behind it, and measures
    exactly the bytes written. -/
theorem writeAdtNode_readsBack {t : AdtNode} {out : List UInt8} (hnul : t.Everywhere NulFree)
    (hwrite : writeAdtNode t [] = .ok out) (s : List UInt8) :
    ReadsBack ⟨out ++ s⟩ t ∧ Node.totalLen ⟨out ++ s⟩ = .ok out.length := by
  obtain ⟨hfits, hmax, rfl⟩ := writeAdtNode_nil_eq_ok.mp hwrite
  have hreadable : t.Everywhere Readable := hfits.and hnul
  exact ⟨readsBack_encode hreadable hmax s, totalLen_encode hreadable hmax s⟩

/-- A root with one property and one empty child, with two stray bytes behind. -/
theorem writeAdtNode_readsBack_two_nodes :
    ReadsBack ⟨AdtNode.encode ⟨[⟨"name", [47, 0]⟩], [⟨[], []⟩]⟩ ++ [255, 7]⟩
        ⟨[⟨"name", [47, 0]⟩], [⟨[], []⟩]⟩ ∧
      Node.totalLen ⟨AdtNode.encode ⟨[⟨"name", [47, 0]⟩], [⟨[], []⟩]⟩ ++ [255, 7]⟩ = .ok 56 :=
  writeAdtNode_readsBack (by decide) (writeAdtNode_nil_eq_ok.mpr ⟨by decide, by decide, rfl⟩)
    [255, 7]

end XnuRs.DeviceTree
