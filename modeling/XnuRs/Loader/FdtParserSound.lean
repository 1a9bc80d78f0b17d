/-
  XnuRs.Loader.FdtParserSound

  What the FDT parser returns for any blob it accepts, well formed or not.

  A successful run over a node (`NodeRead`) or over the items of a node
  (`ItemsRead`) keeps the blob, moves the cursor on, and returns a tree whose
  names, values and counts fit the format of the serializer.  The sizes come
  from one bound: the serialized items take at most twelve bytes for each byte
  the cursor has passed, and the cursor stays below 2 ^ 32 + 3.
-/

import XnuRs.Loader.FdtParserFacts

namespace XnuRs.Loader

/-- A property the parser can return. -/
def AdtProp.Accepted (p : AdtProp) : Prop :=
  (0 : UInt8) ∉ asBytes p.name ∧ p.Fits

/-- A node the parser can return: accepted properties, one of them `name`. -/
def AdtNode.Accepted (t : AdtNode) : Prop :=
  (∀ p ∈ t.props, p.Accepted) ∧ ∃ p ∈ t.props, p.name = "name"

/-- The number of bytes that a list of properties and a list of children take. -/
def itemsLength (props : List AdtProp) (children : List AdtNode) : Nat :=
  (props.flatMap AdtProp.encode).length + (encodeChildren children).length

theorem AdtNode.encode_length_mk (props : List AdtProp) (children : List AdtNode) :
    (AdtNode.encode ⟨props, children⟩).length = 8 + itemsLength props children := by
  rw [encode_mk, itemsLength]
  simp only [List.length_append, leBytes_length]
  omega

theorem itemsLength_nil : itemsLength [] [] = 0 := by
  rw [itemsLength, encodeChildren]
  rfl

theorem itemsLength_prop (p : AdtProp) (props : List AdtProp) (children : List AdtNode) :
    itemsLength (p :: props) children = p.encode.length + itemsLength props children := by
  rw [itemsLength, List.flatMap_cons, List.length_append, itemsLength, Nat.add_assoc]

theorem itemsLength_child (props : List AdtProp) (c : AdtNode) (children : List AdtNode) :
    itemsLength props (c :: children) = c.encode.length + itemsLength props children := by
  rw [itemsLength, encodeChildren, List.length_append, itemsLength]
  omega

/-- Each property takes at least 36 bytes. -/
theorem props_length_le {props : List AdtProp} (h : ∀ p ∈ props, p.Fits) :
    36 * props.length ≤ (props.flatMap AdtProp.encode).length := by
  induction props with
  | nil => exact Nat.zero_le _
  | cons p rest ih =>
      obtain ⟨hp, hrest⟩ := List.forall_mem_cons.mp h
      have hle := ih hrest
      have henc := AdtProp.encode_length hp
      rw [List.length_cons, List.flatMap_cons, List.length_append]
      omega

/-- An accepted node has a property, and takes at least 44 bytes. -/
theorem AdtNode.Accepted.encode_length_ge {t : AdtNode} (h : t.Accepted) :
    44 ≤ t.encode.length := by
  obtain ⟨props, children⟩ := t
  obtain ⟨hprops, p, hp, _⟩ := h
  have hlen : 36 * props.length ≤ (props.flatMap AdtProp.encode).length :=
    props_length_le fun q hq => (hprops q hq).2
  have hpos : 0 < props.length := List.length_pos_of_mem hp
  rw [AdtNode.encode_length_mk, itemsLength]
  omega

theorem children_length_le {children : List AdtNode}
    (h : ∀ c ∈ children, c.Everywhere AdtNode.Accepted) :
    44 * children.length ≤ (encodeChildren children).length := by
  induction children with
  | nil => exact Nat.zero_le _
  | cons c rest ih =>
      obtain ⟨hc, hrest⟩ := List.forall_mem_cons.mp h
      have hle := ih hrest
      have henc := hc.here.encode_length_ge
      rw [List.length_cons, encodeChildren, List.length_append]
      omega

/-- An accepted tree whose bytes are few enough fits the format everywhere. -/
theorem AdtNode.Everywhere.fits {t : AdtNode} (h : t.Everywhere AdtNode.Accepted)
    (hlen : t.encode.length ≤ 36 * (2 ^ 32 - 1)) : t.Everywhere AdtNode.Fits := by
  induction t using AdtNode.induction with
  | node props children ih =>
      have hprops : 36 * props.length ≤ (props.flatMap AdtProp.encode).length :=
        props_length_le fun q hq => (h.here.1 q hq).2
      have hchildren : 44 * children.length ≤ (encodeChildren children).length :=
        children_length_le h.children
      rw [AdtNode.encode_length_mk, itemsLength] at hlen
      refine .node ⟨?_, ?_, fun q hq => (h.here.1 q hq).2⟩ fun c hc => ?_
      · show props.length < 2 ^ 32
        omega
      · show children.length < 2 ^ 32
        omega
      · have hle : c.encode.length ≤ (encodeChildren children).length := encode_length_le hc
        exact ih c hc (h.children c hc) (by omega)

namespace FdtParser

/-! ## What a successful run leaves -/

/-- `q` is the parser after it has read something at `p`. -/
structure Advances (p q : FdtParser) : Prop where
  bytes : q.bytes = p.bytes
  stringsOffset : q.stringsOffset = p.stringsOffset
  le : p.pos ≤ q.pos
  within : q.pos ≤ p.bytes.length + 3

/-- A run over a node. -/
structure NodeRead (p q : FdtParser) (t : AdtNode) : Prop where
  advances : Advances p q
  grows : p.pos + 4 < q.pos
  accepted : t.Everywhere AdtNode.Accepted
  length : t.encode.length + 12 * p.pos ≤ 12 * q.pos

/-- A run over items that were added behind `props` and `children`. -/
structure ItemsRead (p q : FdtParser) (props : List AdtProp) (children : List AdtNode)
    (props' : List AdtProp) (children' : List AdtNode) : Prop where
  advances : Advances p q
  added : ∃ newProps newChildren, props' = props ++ newProps ∧
    children' = children ++ newChildren ∧ (∀ prop ∈ newProps, prop.Accepted) ∧
    (∀ c ∈ newChildren, c.Everywhere AdtNode.Accepted) ∧
    itemsLength newProps newChildren + 12 * p.pos ≤ 12 * q.pos

/-- The blob of a parser and the place of its strings are 32-bit. -/
def Sized (p : FdtParser) : Prop := p.bytes.length < 2 ^ 32 ∧ p.stringsOffset < 2 ^ 32

theorem Advances.sized {p q : FdtParser} (h : Advances p q) (hp : p.Sized) : q.Sized := by
  rw [Sized, h.bytes, h.stringsOffset]
  exact hp

theorem Advances.trans {p q r : FdtParser} (h : Advances p q) (h' : Advances q r) :
    Advances p r where
  bytes := h'.bytes.trans h.bytes
  stringsOffset := h'.stringsOffset.trans h.stringsOffset
  le := h.le.trans h'.le
  within := h.bytes ▸ h'.within

/-- A parser accepted by `new` is 32-bit. -/
theorem new_sized {b : List UInt8} {p : FdtParser} (h : new b = .ok p) :
    p.Sized ∧ p.pos < p.bytes.length := by
  obtain ⟨_, _, htotal, hstruct, hstrings, rfl⟩ := new_eq_ok.mp h
  have hlt := wordAt_lt b 4
  have hlen : (b.take (wordAt b 4)).length = wordAt b 4 := by
    rw [List.length_take]
    omega
  refine ⟨⟨?_, ?_⟩, ?_⟩
  · show (b.take _).length < _
    omega
  · show wordAt b 12 < _
    omega
  · show wordAt b 8 < (b.take _).length
    omega

/-! ## One item -/

variable {p q : FdtParser}

theorem readToken_advances {v : Nat} (hp : p.Sized) (h : p.readToken = .ok (v, q)) :
    Advances p q ∧ q.pos = p.pos + 4 := by
  obtain ⟨hlen, _, rfl⟩ := (readToken_eq_ok hp.1).mp h
  exact ⟨⟨rfl, rfl, Nat.le_add_right .., by dsimp only; omega⟩, rfl⟩

/-- A property takes three words and its value; it is an accepted one, and its
    serialized form is at most twelve times as long. -/
theorem parseProp_advances {prop : AdtProp} (hp : p.Sized) (h : p.parseProp = .ok (prop, q)) :
    Advances p q ∧ p.pos + 4 ≤ q.pos ∧ prop.Accepted ∧
      prop.encode.length + 12 * p.pos ≤ 12 * q.pos := by
  obtain ⟨hfit, _, _, hutf8, hshort, hvalue, rfl⟩ := (parseProp_eq_ok hp.1 hp.2).mp h
  have hlen : prop.value.length = wordAt p.bytes (p.pos + 4) := by
    rw [hvalue, List.length_take, List.length_drop]
    omega
  have hnul : (0 : UInt8) ∉ asBytes prop.name := by
    rw [asBytes_of_fromUtf8 hutf8]
    exact zero_notMem_beforeNul _
  have hfits : prop.Fits := ⟨hshort, by rw [hlen]; exact wordAt_lt ..⟩
  have henc := AdtProp.encode_length hfits
  refine ⟨⟨rfl, rfl, ?_, ?_⟩, ?_, ⟨hnul, hfits⟩, ?_⟩ <;> dsimp only <;> omega

/-- The head of a node: its token, its name and the padding. -/
theorem head_advances {p₁ p₂ p₃ : FdtParser} {name : String} (hp : p.Sized)
    (h₁ : p.expectToken fdtBeginNode = .ok p₁) (h₂ : p₁.readCstr = .ok (name, p₂))
    (h₃ : p₂.alignPos = .ok p₃) :
    Advances p p₃ ∧ p.pos + 4 + (asBytes name).length < p₃.pos ∧
      (asBytes name).length < 2 ^ 32 := by
  have hb := hp.1
  obtain ⟨h4, _, rfl⟩ := (expectToken_eq_ok hb).mp h₁
  obtain ⟨hnul, hutf8, rfl⟩ := (readCstr_eq_ok (p := { p with pos := p.pos + 4 }) hb
    (by dsimp only; omega)).mp h₂
  have hname := asBytes_of_fromUtf8 hutf8
  have hlt := beforeNul_length_lt hnul
  rw [List.length_drop] at hlt
  dsimp only at hname hlt h₃
  rw [← hname] at h₃ hlt
  obtain rfl := (alignPos_eq_ok (by dsimp only; omega)).mp h₃
  exact ⟨⟨rfl, rfl, by dsimp only; omega, by dsimp only; omega⟩, by dsimp only; omega, by omega⟩

/-- The properties of a node with its name in front, if it had none. -/
theorem withName_accepted {name : String} {props : List AdtProp}
    (hname : (asBytes name).length < 2 ^ 32) (hprops : ∀ prop ∈ props, prop.Accepted)
    (children : List AdtNode) :
    AdtNode.Accepted ⟨withName name props, children⟩ ∧
      itemsLength (withName name props) children ≤
        40 + (asBytes name).length + itemsLength props children := by
  unfold withName
  split
  · rename_i hmem
    exact ⟨⟨hprops, hmem⟩, by omega⟩
  · have hslash : (asBytes "/").length = 1 := by decide
    have hshort : (asBytes "name").length < 32 := by decide
    have hnul : (0 : UInt8) ∉ asBytes "name" := by decide
    have hvalue : (if name = "" then asBytes "/" else asBytes name).length ≤
        (asBytes name).length + 1 := by
      split <;> omega
    have hfits : AdtProp.Fits
        ⟨"name", if name = "" then asBytes "/" else asBytes name⟩ := by
      refine ⟨hshort, ?_⟩
      show (if name = "" then asBytes "/" else asBytes name).length < 2 ^ 32
      split <;> omega
    have henc := AdtProp.encode_length hfits
    dsimp only at henc
    refine ⟨⟨List.forall_mem_cons.mpr ⟨⟨hnul, hfits⟩, hprops⟩, _, List.mem_cons_self .., rfl⟩,
      ?_⟩
    rw [itemsLength_prop]
    omega

/-! ## Whole runs -/

/-- What `parse_node` with `fuel` rounds left returns. -/
def NodeSound (fuel : Nat) : Prop :=
  ∀ {p q : FdtParser} {t : AdtNode}, p.Sized → parseNode fuel p = .ok (t, q) → NodeRead p q t

/-- What the loop of `parse_node` with `fuel` rounds left returns. -/
def ItemsSound (fuel : Nat) : Prop :=
  ∀ {p q : FdtParser} {props props' : List AdtProp} {children children' : List AdtNode},
    p.Sized → parseItems fuel p props children = .ok (props', children', q) →
      ItemsRead p q props children props' children'

/-- The head of a node, its items, and the name. -/
theorem nodeSound_succ {fuel : Nat} (hitems : ItemsSound fuel) : NodeSound (fuel + 1) := by
  intro p q t hp h
  obtain ⟨p₁, h₁, h⟩ := Outcome.bind_eq_ok.mp h
  obtain ⟨⟨name, p₂⟩, h₂, h⟩ := Outcome.bind_eq_ok.mp h
  obtain ⟨p₃, h₃, h⟩ := Outcome.bind_eq_ok.mp h
  obtain ⟨hskip, hpos, hshort⟩ := head_advances hp h₁ h₂ h₃
  obtain ⟨⟨props, children, p₄⟩, h₄, h⟩ := Outcome.bind_eq_ok.mp h
  dsimp only at h
  rw [insertName_eq, Outcome.ok_bind] at h
  obtain ⟨rfl, rfl⟩ := Prod.mk.inj (Except.ok.inj h)
  obtain ⟨hread, _, _, rfl, rfl, hprops, hchildren, hlen⟩ := hitems (hskip.sized hp) h₄
  obtain ⟨hhere, hinsert⟩ := withName_accepted hshort hprops children
  have hnext := hread.le
  refine ⟨hskip.trans hread, by omega, .node hhere hchildren, ?_⟩
  rw [AdtNode.encode_length_mk]
  omega

/-- One round of the loop, by the token it reads. -/
theorem itemsSound_succ {fuel : Nat} (hnode : NodeSound fuel) (hitems : ItemsSound fuel) :
    ItemsSound (fuel + 1) := by
  intro p q props props' children children' hp h
  obtain ⟨token, htoken, h⟩ := Outcome.bind_eq_ok.mp h
  -- a round that adds no item
  have hnothing : ∀ {q : FdtParser}, Advances p q →
      ItemsRead p q props children props children := by
    intro q hpq
    have hle := hpq.le
    exact ⟨hpq, [], [], (List.append_nil _).symm, (List.append_nil _).symm, by simp, by simp,
      by rw [itemsLength_nil]; omega⟩
  split at h
  · -- a property
    obtain ⟨⟨prop, p₁⟩, h₁, h⟩ := Outcome.bind_eq_ok.mp h
    obtain ⟨hstep, hpos, hprop, hcost⟩ := parseProp_advances hp h₁
    obtain ⟨hread, newProps, newChildren, rfl, rfl, hprops, hchildren, hlen⟩ :=
      hitems (hstep.sized hp) h
    refine ⟨hstep.trans hread, prop :: newProps, newChildren, by simp, rfl,
      List.forall_mem_cons.mpr ⟨hprop, hprops⟩, hchildren, ?_⟩
    rw [itemsLength_prop]
    omega
  split at h
  · -- a child
    obtain ⟨⟨child, p₁⟩, h₁, h⟩ := Outcome.bind_eq_ok.mp h
    obtain ⟨hstep, hpos, hchild, hcost⟩ := hnode hp h₁
    obtain ⟨hread, newProps, newChildren, rfl, rfl, hprops, hchildren, hlen⟩ :=
      hitems (hstep.sized hp) h
    refine ⟨hstep.trans hread, newProps, child :: newChildren, rfl, by simp, hprops,
      List.forall_mem_cons.mpr ⟨hchild, hchildren⟩, ?_⟩
    rw [itemsLength_child]
    omega
  split at h
  · -- the end of the node
    obtain ⟨⟨_, p₁⟩, h₁, h⟩ := Outcome.bind_eq_ok.mp h
    obtain ⟨hstep, _⟩ := readToken_advances hp h₁
    obtain ⟨rfl, rfl, rfl⟩ : props = props' ∧ children = children' ∧ p₁ = q := by
      simpa using Except.ok.inj h
    exact hnothing hstep
  split at h
  · -- a NOP
    obtain ⟨⟨_, p₁⟩, h₁, h⟩ := Outcome.bind_eq_ok.mp h
    obtain ⟨hstep, hpos⟩ := readToken_advances hp h₁
    obtain ⟨hread, newProps, newChildren, rfl, rfl, hprops, hchildren, hlen⟩ :=
      hitems (hstep.sized hp) h
    exact ⟨hstep.trans hread, newProps, newChildren, rfl, rfl, hprops, hchildren, by omega⟩
  split at h
  · -- the end of the structure block, which is left in place
    obtain ⟨rfl, rfl, rfl⟩ : props = props' ∧ children = children' ∧ p = q := by
      simpa using Except.ok.inj h
    obtain ⟨hlen, _⟩ := (peekToken_eq_ok hp.1).mp htoken
    exact hnothing ⟨rfl, rfl, Nat.le_refl _, by omega⟩
  · exact absurd h Outcome.err_ne_ok

theorem parser_sound (fuel : Nat) : NodeSound fuel ∧ ItemsSound fuel := by
  induction fuel with
  | zero => exact ⟨fun _ h => absurd h Outcome.fuel_ne_ok, fun _ h => absurd h Outcome.fuel_ne_ok⟩
  | succ fuel ih => exact ⟨nodeSound_succ ih.2, itemsSound_succ ih.1 ih.2⟩

/-- Whatever blob the parser accepts, its tree is an accepted one, and the
    serialized tree is at most twelve times as long as the blob (and its padding). -/
theorem parse_accepted {b : List UInt8} {p : FdtParser} {root : AdtNode}
    (hnew : new b = .ok p) (hparse : p.parse = .ok root) :
    root.Everywhere AdtNode.Accepted ∧ root.encode.length ≤ 12 * (2 ^ 32 + 3) := by
  obtain ⟨hsized, _⟩ := new_sized hnew
  obtain ⟨⟨t, q⟩, hrun, h⟩ := Outcome.bind_eq_ok.mp hparse
  obtain rfl := Except.ok.inj h
  obtain ⟨hread, _, haccepted, hlen⟩ := (parser_sound _).1 hsized hrun
  have hwithin := hread.within
  have hlt := hsized.1
  exact ⟨haccepted, by omega⟩

end FdtParser
end XnuRs.Loader
