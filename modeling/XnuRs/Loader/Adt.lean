/-
  XnuRs.Loader.Adt

  The Apple device tree as the loader builds it, and its serializer
  (loader/src/device_tree.rs: `AdtNode`, `AdtProp`, `write_adt_node`,
  `write_adt_prop`).

  `AdtNode.encode` is the format in closed form.  `writeAdtNode_appends` says the
  serializer appends exactly that, and exactly when every count, name and value
  fits its field; the readers are related to `encode` alone.
-/

import XnuRs.Lib.Bytes

namespace XnuRs.Loader

/-- The UEFI statuses the loader returns; `firmware` stands for a status that a
    boot service returned and the loader passes on. -/
inductive Status where
  | loadError
  | notFound
  | firmware (code : Nat)
deriving DecidableEq, Repr

/-- `AdtProp`. -/
structure AdtProp where
  name : String
  value : List UInt8
deriving DecidableEq, Repr

/-- `AdtNode`. -/
structure AdtNode where
  props : List AdtProp
  children : List AdtNode

/-- Induction over trees: what holds of a node as soon as it holds of the node's
    children holds of every tree. -/
@[elab_as_elim]
theorem AdtNode.induction {P : AdtNode → Prop}
    (node : ∀ props children, (∀ c ∈ children, P c) → P ⟨props, children⟩) (t : AdtNode) :
    P t :=
  @AdtNode.rec P (fun cs => ∀ c ∈ cs, P c)
    (fun props children ih => node props children ih)
    (fun _ h => absurd h List.not_mem_nil)
    (fun _ _ hc hcs => List.forall_mem_cons.mpr ⟨hc, hcs⟩)
    t

/-- `AdtProp::new_owned`: a name has to leave room for its NUL. -/
def AdtProp.newOwned (name : String) (value : List UInt8) : Outcome Status AdtProp :=
  if (asBytes name).length ≥ 32 then .err .loadError else .ok ⟨name, value⟩

/-- `AdtProp::new`. -/
def AdtProp.new (name : String) (value : List UInt8) : Outcome Status AdtProp :=
  AdtProp.newOwned name value

theorem AdtNode.sizeOf_child_lt {t c : AdtNode} (h : c ∈ t.children) : sizeOf c < sizeOf t := by
  cases t with
  | mk props children =>
      have hlt : sizeOf c < sizeOf children := List.sizeOf_lt_of_mem h
      rw [AdtNode.mk.sizeOf_spec]
      omega

/-- `P` holds at every node of the tree. -/
inductive AdtNode.Everywhere (P : AdtNode → Prop) : AdtNode → Prop where
  | node {t : AdtNode} (here : P t) (children : ∀ c ∈ t.children, Everywhere P c) :
      Everywhere P t

theorem AdtNode.Everywhere.here {P : AdtNode → Prop} {t : AdtNode} (h : t.Everywhere P) :
    P t := by
  cases h with
  | node here _ => exact here

theorem AdtNode.Everywhere.children {P : AdtNode → Prop} {t : AdtNode} (h : t.Everywhere P) :
    ∀ c ∈ t.children, c.Everywhere P := by
  cases h with
  | node _ children => exact children

theorem AdtNode.Everywhere.and {P Q : AdtNode → Prop} {t : AdtNode} (hP : t.Everywhere P)
    (hQ : t.Everywhere Q) : t.Everywhere fun n => P n ∧ Q n := by
  induction hP with
  | node here _ ih => exact .node ⟨here, hQ.here⟩ fun c hc => ih c hc (hQ.children c hc)

theorem AdtNode.Everywhere.mono {P Q : AdtNode → Prop} (hPQ : ∀ t, P t → Q t) {t : AdtNode}
    (h : t.Everywhere P) : t.Everywhere Q := by
  induction h with
  | node here _ ih => exact .node (hPQ _ here) ih

mutual

/-- Whether `P` holds at every node, for a decidable `P`. -/
def AdtNode.decideEverywhere (P : AdtNode → Prop) [DecidablePred P] :
    (t : AdtNode) → Decidable (t.Everywhere P)
  | ⟨props, children⟩ =>
    match decEq true (decide (P ⟨props, children⟩)), decideEveryChild P children with
    | isTrue h, isTrue hc => isTrue (.node (of_decide_eq_true h.symm) hc)
    | isFalse h, _ => isFalse fun he => h (decide_eq_true he.here).symm
    | isTrue _, isFalse hc => isFalse fun he => hc he.children

/-- Whether `P` holds at every node of every tree of a list. -/
def decideEveryChild (P : AdtNode → Prop) [DecidablePred P] :
    (children : List AdtNode) → Decidable (∀ c ∈ children, c.Everywhere P)
  | [] => isTrue fun _ h => absurd h List.not_mem_nil
  | child :: rest =>
    match AdtNode.decideEverywhere P child, decideEveryChild P rest with
    | isTrue h, isTrue hr => isTrue (List.forall_mem_cons.mpr ⟨h, hr⟩)
    | isFalse h, _ => isFalse fun hall => h (List.forall_mem_cons.mp hall).1
    | isTrue _, isFalse hr => isFalse fun hall => hr (List.forall_mem_cons.mp hall).2

end

instance (P : AdtNode → Prop) [DecidablePred P] (t : AdtNode) : Decidable (t.Everywhere P) :=
  t.decideEverywhere P

/-! ## The serializer -/

/-- `write_le_u32`. -/
def writeLeU32 (out : List UInt8) (value : Nat) : Outcome Status (List UInt8) :=
  extendFromSlice out (leBytes 4 value)

/-- The loop of `write_adt_prop` that pushes zeros up to a multiple of 4. -/
def padLoop (out : List UInt8) : Outcome Status (List UInt8) :=
  if out.length % 4 = 0 then .ok out
  else if out.length + 1 ≤ isizeMax then padLoop (out ++ [0])
  else .panic
termination_by (4 - out.length % 4) % 4
decreasing_by
  rw [List.length_append, List.length_singleton]
  omega

/-- `write_adt_prop`. -/
def writeAdtProp (prop : AdtProp) (out : List UInt8) : Outcome Status (List UInt8) := do
  let src := asBytes prop.name
  if src.length ≥ 32 then .err .loadError
  else
    let out ← extendFromSlice out (src ++ List.replicate (32 - src.length) 0)
    let len ← .okOr (u32TryFrom prop.value.length) .loadError
    let out ← writeLeU32 out len
    let out ← extendFromSlice out prop.value
    padLoop out

/-- The property loop of `write_adt_node`. -/
def writeAdtProps : List AdtProp → List UInt8 → Outcome Status (List UInt8)
  | [], out => .ok out
  | prop :: rest, out => do
    let out ← writeAdtProp prop out
    writeAdtProps rest out

mutual

/-- `write_adt_node`. -/
def writeAdtNode : AdtNode → List UInt8 → Outcome Status (List UInt8)
  | ⟨props, children⟩, out => do
    let propCount ← .okOr (u32TryFrom props.length) .loadError
    let out ← writeLeU32 out propCount
    let childCount ← .okOr (u32TryFrom children.length) .loadError
    let out ← writeLeU32 out childCount
    let out ← writeAdtProps props out
    writeAdtChildren children out

/-- The child loop of `write_adt_node`. -/
def writeAdtChildren : List AdtNode → List UInt8 → Outcome Status (List UInt8)
  | [], out => .ok out
  | child :: rest, out => do
    let out ← writeAdtNode child out
    writeAdtChildren rest out

end

/-! ## The format in closed form -/

/-- The 32-byte field of a property's name. -/
def AdtProp.nameField (p : AdtProp) : List UInt8 :=
  asBytes p.name ++ List.replicate (32 - (asBytes p.name).length) 0

/-- The bytes of one property up to its padding. -/
def AdtProp.encodeBody (p : AdtProp) : List UInt8 :=
  p.nameField ++ leBytes 4 p.value.length ++ p.value

/-- The zeros that pad a property to a multiple of 4. -/
def AdtProp.padding (p : AdtProp) : List UInt8 :=
  List.replicate ((4 - p.value.length % 4) % 4) 0

/-- The bytes of one property. -/
def AdtProp.encode (p : AdtProp) : List UInt8 := p.encodeBody ++ p.padding

mutual

/-- The bytes of a node: the two counts, the properties, the children. -/
def AdtNode.encode : AdtNode → List UInt8
  | ⟨props, children⟩ =>
      leBytes 4 props.length ++ leBytes 4 children.length ++
        props.flatMap AdtProp.encode ++ encodeChildren children

/-- The bytes of a list of nodes. -/
def encodeChildren : List AdtNode → List UInt8
  | [] => []
  | child :: rest => child.encode ++ encodeChildren rest

end

/-- The name and the value fit their fields. -/
def AdtProp.Fits (p : AdtProp) : Prop :=
  (asBytes p.name).length < 32 ∧ p.value.length < 2 ^ 32

/-- The counts and the properties of one node fit their fields. -/
def AdtNode.Fits (t : AdtNode) : Prop :=
  t.props.length < 2 ^ 32 ∧ t.children.length < 2 ^ 32 ∧ ∀ p ∈ t.props, p.Fits

instance (p : AdtProp) : Decidable p.Fits := inferInstanceAs (Decidable (_ ∧ _))

instance (t : AdtNode) : Decidable t.Fits := inferInstanceAs (Decidable (_ ∧ _ ∧ _))

theorem AdtProp.nameField_length {p : AdtProp} (h : (asBytes p.name).length < 32) :
    p.nameField.length = 32 := by
  rw [AdtProp.nameField, List.length_append, List.length_replicate]
  omega

theorem AdtProp.encodeBody_length {p : AdtProp} (h : (asBytes p.name).length < 32) :
    p.encodeBody.length = 36 + p.value.length := by
  simp only [AdtProp.encodeBody, List.length_append, AdtProp.nameField_length h, leBytes_length]

theorem AdtProp.encode_length {p : AdtProp} (h : p.Fits) :
    p.encode.length = 36 + (p.value.length + 3) / 4 * 4 := by
  rw [AdtProp.encode, AdtProp.padding, List.length_append, List.length_replicate,
    AdtProp.encodeBody_length h.1]
  omega

theorem encode_mk (props : List AdtProp) (children : List AdtNode) :
    AdtNode.encode ⟨props, children⟩ =
      leBytes 4 props.length ++ leBytes 4 children.length ++
        props.flatMap AdtProp.encode ++ encodeChildren children := by
  rw [AdtNode.encode]

theorem encode_length_le {children : List AdtNode} {c : AdtNode} (h : c ∈ children) :
    c.encode.length ≤ (encodeChildren children).length := by
  induction children with
  | nil => cases h
  | cons d rest ih =>
      rw [encodeChildren, List.length_append]
      rcases List.mem_cons.mp h with rfl | h
      · omega
      · have hle := ih h
        omega

/-! ## What the serializer writes -/

theorem writeLeU32_eq_ok {out r : List UInt8} {v : Nat} :
    writeLeU32 out v = .ok r ↔ r = out ++ leBytes 4 v ∧ out.length + 4 ≤ isizeMax := by
  rw [writeLeU32, extendFromSlice_eq_ok, leBytes_length]

/-- The padding loop stops after at most three rounds, at the next multiple of 4. -/
theorem padLoop_eq_ok {out r : List UInt8} (h : out.length ≤ isizeMax) :
    padLoop out = .ok r ↔
      r = out ++ List.replicate ((4 - out.length % 4) % 4) 0 ∧ r.length ≤ isizeMax := by
  fun_induction padLoop out with
  | case1 out haligned =>
      simp only [haligned, Except.ok.injEq]
      constructor
      · rintro rfl
        exact ⟨by simp, h⟩
      · rintro ⟨rfl, _⟩
        simp
  | case2 out hpad hroom ih =>
      have hlen : (out ++ [(0 : UInt8)]).length = out.length + 1 := by simp
      rw [ih (by rw [hlen]; exact hroom), hlen]
      -- one byte is padded, and one less is missing
      have hcount : (4 - out.length % 4) % 4 = (4 - (out.length + 1) % 4) % 4 + 1 := by omega
      rw [hcount, List.replicate_succ, List.append_assoc, List.singleton_append]
  | case3 out hpad hroom =>
      simp only [Outcome.panic_ne_ok, false_iff]
      rintro ⟨rfl, hr⟩
      rw [List.length_append, List.length_replicate] at hr
      omega

/-- `write_adt_prop` on an aligned buffer appends the property's bytes, exactly
    when the property fits. -/
theorem writeAdtProp_appends (p : AdtProp) :
    Appends 4 (writeAdtProp p) p.Fits p.encode where
  aligned h := by
    rw [AdtProp.encode_length h]
    omega
  eq_ok := by
    intro out r h _
    unfold writeAdtProp
    by_cases hname : (asBytes p.name).length ≥ 32
    · simp only [hname, if_true, Outcome.err_ne_ok, false_iff]
      rintro ⟨⟨hlt, _⟩, _⟩
      omega
    have hlt : (asBytes p.name).length < 32 := by omega
    have hbody := AdtProp.encodeBody_length hlt
    -- the padding, counted from the start of the buffer, is that of the value
    have hpad : (4 - (out ++ p.encodeBody).length % 4) % 4 = (4 - p.value.length % 4) % 4 := by
      rw [List.length_append, hbody]
      omega
    have hencode : out ++ p.encode =
        (out ++ p.encodeBody) ++ List.replicate ((4 - p.value.length % 4) % 4) 0 := by
      rw [AdtProp.encode, AdtProp.padding, List.append_assoc]
    have hjoin : out ++ p.nameField ++ leBytes 4 p.value.length ++ p.value =
        out ++ p.encodeBody := by
      simp only [AdtProp.encodeBody, List.append_assoc]
    have hfield := AdtProp.nameField_length hlt
    have hfold : asBytes p.name ++ List.replicate (32 - (asBytes p.name).length) 0 =
        p.nameField := rfl
    simp only [if_neg hname, hfold, Outcome.bind_eq_ok, extendFromSlice_eq_ok,
      Outcome.okOr_eq_ok, u32TryFrom_eq_some, writeLeU32_eq_ok]
    constructor
    · rintro ⟨_, ⟨rfl, _⟩, _, ⟨rfl, hvalue⟩, _, ⟨rfl, _⟩, _, ⟨rfl, hroom⟩, hloop⟩
      rw [hjoin] at hloop
      rw [← List.length_append, hjoin] at hroom
      obtain ⟨rfl, hlen⟩ := (padLoop_eq_ok hroom).mp hloop
      rw [hpad, ← hencode, List.length_append] at hlen
      rw [hpad, ← hencode]
      exact ⟨⟨hlt, hvalue⟩, hlen, rfl⟩
    · rintro ⟨⟨_, hvalue⟩, hlen, rfl⟩
      have hroom : (out ++ p.encodeBody).length ≤ isizeMax := by
        rw [← List.length_append, hencode, List.length_append] at hlen
        omega
      have hsize : out.length + (36 + p.value.length) ≤ isizeMax := by
        rw [← hbody, ← List.length_append]
        exact hroom
      refine ⟨_, ⟨rfl, ?_⟩, _, ⟨rfl, hvalue⟩, _, ⟨rfl, ?_⟩, _, ⟨rfl, ?_⟩, ?_⟩
      · omega
      · rw [List.length_append]
        omega
      · rw [List.length_append, List.length_append, leBytes_length]
        omega
      · rw [hjoin, padLoop_eq_ok hroom, hpad, ← hencode, List.length_append]
        exact ⟨rfl, hlen⟩

theorem writeAdtProps_appends (props : List AdtProp) :
    Appends 4 (writeAdtProps props) (∀ p ∈ props, p.Fits) (props.flatMap AdtProp.encode) := by
  induction props with
  | nil => exact Appends.nil.congr_fits (by simp)
  | cons p rest ih =>
      rw [List.flatMap_cons]
      exact ((writeAdtProp_appends p).seq ih).congr_fits List.forall_mem_cons.symm

/-- A count is written when it fits 32 bits. -/
theorem writeCount_appends (n : Nat) :
    Appends 4 (fun out => (Outcome.okOr (u32TryFrom n) Status.loadError) >>= writeLeU32 out)
      (n < 2 ^ 32) (leBytes 4 n) where
  aligned _ := by simp
  eq_ok := by
    intro out r _ _
    simp only [Outcome.bind_eq_ok, Outcome.okOr_eq_ok, u32TryFrom_eq_some, writeLeU32_eq_ok,
      leBytes_length]
    constructor
    · rintro ⟨_, ⟨rfl, hn⟩, rfl, hlen⟩
      exact ⟨hn, hlen, rfl⟩
    · rintro ⟨hn, hlen, rfl⟩
      exact ⟨n, ⟨rfl, hn⟩, rfl, hlen⟩

theorem writeAdtChildren_appends {children : List AdtNode}
    (ih : ∀ c ∈ children, Appends 4 (writeAdtNode c) (c.Everywhere AdtNode.Fits) c.encode) :
    Appends 4 (writeAdtChildren children) (∀ c ∈ children, c.Everywhere AdtNode.Fits)
      (encodeChildren children) := by
  induction children with
  | nil => exact Appends.nil.congr_fits (by simp)
  | cons c rest ihrest =>
      have hc := ih c (List.mem_cons_self ..)
      have hrest := ihrest fun d hd => ih d (List.mem_cons_of_mem _ hd)
      exact (hc.seq hrest).congr_fits List.forall_mem_cons.symm

/-- `write_adt_node` on an aligned buffer appends the node's bytes, exactly when
    every node of the tree fits. -/
theorem writeAdtNode_appends (t : AdtNode) :
    Appends 4 (writeAdtNode t) (t.Everywhere AdtNode.Fits) t.encode := by
  induction t using AdtNode.induction with
  | node props children ih =>
      -- the four writers of a node, one behind the other
      have hseq := (((writeCount_appends props.length).seq
        (writeCount_appends children.length)).seq
        (writeAdtProps_appends props)).seq (writeAdtChildren_appends ih)
      have hfits : ((props.length < 2 ^ 32 ∧ children.length < 2 ^ 32) ∧
          ∀ p ∈ props, p.Fits) ∧ (∀ c ∈ children, c.Everywhere AdtNode.Fits) ↔
          AdtNode.Everywhere AdtNode.Fits ⟨props, children⟩ := by
        constructor
        · rintro ⟨⟨⟨hp, hc⟩, hprops⟩, hchildren⟩
          exact .node ⟨hp, hc, hprops⟩ hchildren
        · intro h
          obtain ⟨hp, hc, hprops⟩ := h.here
          exact ⟨⟨⟨hp, hc⟩, hprops⟩, h.children⟩
      have hcode : writeAdtNode ⟨props, children⟩ = fun out =>
          (((Outcome.okOr (u32TryFrom props.length) Status.loadError >>= writeLeU32 out) >>=
            fun out => Outcome.okOr (u32TryFrom children.length) Status.loadError >>=
              writeLeU32 out) >>= writeAdtProps props) >>= writeAdtChildren children := by
        funext out
        simp only [writeAdtNode, bind_assoc]
      rw [hcode]
      exact hseq.congr_fits hfits

/-- What `write_adt_node` writes into an empty buffer. -/
theorem writeAdtNode_nil_eq_ok {t : AdtNode} {out : List UInt8} :
    writeAdtNode t [] = .ok out ↔
      t.Everywhere AdtNode.Fits ∧ t.encode.length ≤ isizeMax ∧ out = t.encode := by
  have h : writeAdtNode t [] = .ok out ↔ _ :=
    (writeAdtNode_appends t).eq_ok rfl (Nat.zero_le _)
  simpa using h

end XnuRs.Loader
