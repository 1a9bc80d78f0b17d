/-
  XnuRs.Kernel.DeviceTreeFacts

  One spec for each function of the kernel's device-tree reader, and the
  recursion equations of `total_len` and `dump_node`.

  Everything a property, a child or a total length can be is read off
  `Property.parse_eq_ok`, `Node.propertiesEnd_ge` and `Node.childAtWith_shorter`;
  the equations `Node.totalLen_eq` and `dumpNode_eq` follow because each level
  of nesting works on a slice at least 8 bytes shorter.
-/

import XnuRs.Kernel.DeviceTree

namespace XnuRs.Kernel

/-! ## Integers and properties -/

theorem readLeU32_eq_ok {bytes : List UInt8} {offset v : Nat} :
    readLeU32 bytes offset = .ok v ↔
      offset + 4 ≤ bytes.length ∧ offset + 4 ≤ usizeMax ∧
        v = leToNat ((bytes.drop offset).take 4) := readU32_eq_ok

theorem alignUp4_eq_some {a b : Nat} :
    alignUp4 a = some b ↔ b = (a + 3) / 4 * 4 ∧ a + 3 ≤ usizeMax := by
  unfold alignUp4 usizeAdd
  by_cases h : a + 3 ≤ usizeMax
  · simp [h, eq_comm]
  · simp [h]

/-- The value length that a property at `offset` declares. -/
def declaredLen (bytes : List UInt8) (offset : Nat) : Nat :=
  leToNat ((bytes.drop (offset + 32)).take 4)

/-- The name of a property is what stands before the first NUL of its field. -/
theorem indexTo_nameField {bytes : List UInt8} {offset : Nat}
    (h : offset + 32 ≤ bytes.length) :
    (indexTo ((bytes.drop offset).take 32)
      ((((bytes.drop offset).take 32).findIdx? (· == 0)).getD 32) : Outcome Unit _) =
      .ok (beforeNul ((bytes.drop offset).take 32)) := by
  have h32 : ((bytes.drop offset).take 32).length = 32 := by
    rw [List.length_take, List.length_drop]
    omega
  have hle := findIdx_zero_le ((bytes.drop offset).take 32)
  have hcut := take_findIdx_zero ((bytes.drop offset).take 32)
  rw [h32] at hle hcut
  rw [indexTo_of_le (by rw [h32]; exact hle), hcut]

/-- Everything `Property::parse` accepts. -/
theorem Property.parse_eq_ok {bytes : List UInt8} {offset : Nat} {p : Property} :
    Property.parse bytes offset = .ok p ↔
      fromUtf8 (beforeNul ((bytes.drop offset).take 32)) = some p.name ∧
      p.value = (bytes.drop (offset + 36)).take (declaredLen bytes offset) ∧
      p.stop = (offset + 36 + declaredLen bytes offset + 3) / 4 * 4 ∧
      p.stop ≤ bytes.length ∧ offset + 36 + declaredLen bytes offset + 3 ≤ usizeMax := by
  -- name field, length word, value, padding: every bound follows from the last
  simp only [Property.parse, propertyNameLen, Outcome.bind_eq_ok, Outcome.okOr_eq_ok,
    usizeAdd_eq_some, getRange_eq_some, readLeU32_eq_ok, alignUp4_eq_some]
  constructor
  · rintro ⟨_, ⟨rfl, _⟩, _, ⟨⟨_, hlen⟩, rfl⟩, text, htext, name, hutf8, _, ⟨rfl, _⟩, _,
      ⟨_, _, rfl⟩, _, ⟨rfl, _⟩, _, ⟨rfl, _⟩, _, ⟨_, rfl⟩, _, ⟨rfl, hmax⟩, hp⟩
    rw [Nat.add_sub_cancel_left, indexTo_nameField hlen] at htext
    obtain rfl := Except.ok.inj htext
    split at hp
    · exact absurd hp Outcome.err_ne_ok
    · obtain rfl := Except.ok.inj hp
      rename_i hstop
      refine ⟨hutf8, ?_, rfl, Nat.le_of_not_gt hstop, hmax⟩
      rw [Nat.add_sub_cancel_left]
      rfl
  · rintro ⟨hutf8, hvalue, hstop, hle, hmax⟩
    have hdeclared : leToNat ((bytes.drop (offset + 32)).take 4) = declaredLen bytes offset := rfl
    refine ⟨_, ⟨rfl, by omega⟩, _, ⟨⟨by omega, by omega⟩, rfl⟩,
      beforeNul ((bytes.drop offset).take 32), ?_, p.name, hutf8, _, ⟨rfl, by omega⟩, _,
      ⟨by omega, by omega, rfl⟩, _, ⟨rfl, by omega⟩, _, ⟨rfl, by omega⟩, _,
      ⟨⟨by omega, by omega⟩, rfl⟩, _, ⟨rfl, hmax⟩, ?_⟩
    · rw [Nat.add_sub_cancel_left, indexTo_nameField (by omega)]
    · rw [hdeclared, if_neg (by rw [← hstop]; omega), Nat.add_sub_cancel_left, ← hvalue,
        ← hstop]

/-- A property takes at least 36 bytes and ends inside the slice. -/
theorem Property.parse_bounds {bytes : List UInt8} {offset : Nat} {p : Property}
    (h : Property.parse bytes offset = .ok p) :
    offset + 36 ≤ p.stop ∧ p.stop ≤ bytes.length ∧ p.stop % 4 = 0 := by
  obtain ⟨_, _, hstop, hle, _⟩ := Property.parse_eq_ok.mp h
  omega

namespace Node

theorem propertiesEndLoop_ge {bytes : List UInt8} {remaining offset stop : Nat}
    (h : propertiesEndLoop bytes remaining offset = .ok stop) : offset + 36 * remaining ≤ stop := by
  induction remaining generalizing offset with
  | zero => cases h; omega
  | succ remaining ih =>
      obtain ⟨p, hp, hrest⟩ := Outcome.bind_eq_ok.mp h
      have hbounds := Property.parse_bounds hp
      have hge := ih hrest
      omega

/-- The children start behind the 8 bytes of the counts. -/
theorem propertiesEnd_ge {node : Node} {stop : Nat} (h : node.propertiesEnd = .ok stop) :
    8 ≤ stop := by
  obtain ⟨count, _, hloop⟩ := Outcome.bind_eq_ok.mp h
  have hge := propertiesEndLoop_ge hloop
  omega

/-! ## The recursion equations -/

/-- `below` is the slice of a node below `node`. -/
def Below (node below : Node) : Prop := below.bytes.length + 8 ≤ node.bytes.length

theorem childAtLoop_shorter {f : Node → Outcome Unit Nat} {node child : Node}
    {wanted remaining index offset : Nat} (hoff : 8 ≤ offset)
    (h : childAtLoop f node wanted remaining index offset = .ok child) : node.Below child := by
  induction remaining generalizing index offset with
  | zero => exact absurd h Outcome.err_ne_ok
  | succ remaining ih =>
      simp only [childAtLoop, Outcome.bind_eq_ok, Outcome.okOr_eq_ok, getFrom_eq_some] at h
      obtain ⟨_, ⟨hle, rfl⟩, childLen, _, h⟩ := h
      split at h
      · obtain rfl := Except.ok.inj h
        show (node.bytes.drop offset).length + 8 ≤ _
        rw [List.length_drop]
        omega
      · obtain ⟨next, hnext, h⟩ := Outcome.bind_eq_ok.mp h
        rw [Outcome.okOr_eq_ok, usizeAdd_eq_some] at hnext
        exact ih (by omega) h

/-- A child is a slice at least 8 bytes shorter than its parent. -/
theorem childAtWith_shorter {f : Node → Outcome Unit Nat} {node child : Node} {wanted : Nat}
    (h : node.childAtWith f wanted = .ok child) : node.Below child := by
  obtain ⟨stop, hstop, h⟩ := Outcome.bind_eq_ok.mp h
  obtain ⟨count, _, h⟩ := Outcome.bind_eq_ok.mp h
  exact childAtLoop_shorter (propertiesEnd_ge hstop) h

/-- `child_at` depends on `total_len` only below the node. -/
theorem childAtLoop_congr {f g : Node → Outcome Unit Nat} {node : Node}
    (hfg : ∀ below, node.Below below → f below = g below)
    {wanted remaining index offset : Nat} (hoff : 8 ≤ offset) :
    childAtLoop f node wanted remaining index offset =
      childAtLoop g node wanted remaining index offset := by
  induction remaining generalizing index offset with
  | zero => rfl
  | succ remaining ih =>
      refine Outcome.bind_congr_ok rfl fun bytes hbytes => ?_
      rw [Outcome.okOr_eq_ok, getFrom_eq_some] at hbytes
      obtain ⟨hle, rfl⟩ := hbytes
      have hbelow : node.Below ⟨node.bytes.drop offset⟩ := by
        show (node.bytes.drop offset).length + 8 ≤ _
        rw [List.length_drop]
        omega
      refine Outcome.bind_congr_ok (hfg _ hbelow) fun childLen _ => ?_
      split
      · rfl
      · refine Outcome.bind_congr_ok rfl fun next hnext => ?_
        rw [Outcome.okOr_eq_ok, usizeAdd_eq_some] at hnext
        exact ih (by omega)

theorem childAtWith_congr {f g : Node → Outcome Unit Nat} {node : Node}
    (hfg : ∀ below, node.Below below → f below = g below) (wanted : Nat) :
    node.childAtWith f wanted = node.childAtWith g wanted := by
  refine Outcome.bind_congr_ok rfl fun stop hstop => ?_
  refine Outcome.bind_congr_ok rfl fun count _ => ?_
  exact childAtLoop_congr hfg (propertiesEnd_ge hstop)

/-- `total_len` depends on `total_len` only below the node. -/
theorem totalLenWith_congr {f g : Node → Outcome Unit Nat} {node : Node}
    (hfg : ∀ below, node.Below below → f below = g below) :
    node.totalLenWith f = node.totalLenWith g := by
  have hloop : ∀ remaining index offset,
      totalLenLoop f node remaining index offset = totalLenLoop g node remaining index offset := by
    intro remaining
    induction remaining with
    | zero => intros; rfl
    | succ remaining ih =>
        intro index offset
        refine Outcome.bind_congr_ok (childAtWith_congr hfg index) fun child hchild => ?_
        refine Outcome.bind_congr_ok (hfg _ (childAtWith_shorter hchild)) fun childLen _ => ?_
        exact Outcome.bind_congr_ok rfl fun next _ => ih _ _
  refine Outcome.bind_congr_ok rfl fun stop _ => ?_
  exact Outcome.bind_congr_ok rfl fun count _ => hloop _ _ _

/-- One level for each 8 bytes of the slice, and one more, is as good as any other counter. -/
theorem totalLenFuel_eq {n m : Nat} {node : Node} (hn : node.bytes.length < 8 * n)
    (hm : node.bytes.length < 8 * m) : totalLenFuel n node = totalLenFuel m node := by
  induction n generalizing m node with
  | zero => omega
  | succ n ih =>
      obtain ⟨m, rfl⟩ : ∃ k, m = k + 1 := ⟨m - 1, by omega⟩
      refine totalLenWith_congr fun below hbelow => ?_
      have hlen : below.bytes.length + 8 ≤ node.bytes.length := hbelow
      exact ih (by omega) (by omega)

/-- The recursion equation of `total_len`. -/
theorem totalLen_eq (node : Node) : node.totalLen = node.totalLenWith totalLen := by
  refine totalLenWith_congr fun below hbelow => ?_
  have hlen : below.bytes.length + 8 ≤ node.bytes.length := hbelow
  exact totalLenFuel_eq (by omega) (by omega)

theorem childAt_shorter {node child : Node} {wanted : Nat}
    (h : node.childAt wanted = .ok child) : node.Below child := childAtWith_shorter h

end Node

/-! ## The recursion equation of the dump -/

theorem dumpChildren_congr {f g : Node → Nat → Printing Unit} {node : Node}
    (hfg : ∀ below depth, node.Below below → f below depth = g below depth)
    (depth remaining index : Nat) :
    dumpChildren f node depth remaining index = dumpChildren g node depth remaining index := by
  induction remaining generalizing index with
  | zero => rfl
  | succ remaining ih =>
      unfold dumpChildren
      cases hchild : node.childAt index with
      | error e => rfl
      | ok child => simp only [Traced.lift_ok_bind, hfg _ _ (Node.childAt_shorter hchild), ih]

theorem dumpNodeWith_congr {f g : Node → Nat → Printing Unit} {node : Node}
    (hfg : ∀ below depth, node.Below below → f below depth = g below depth) (depth : Nat) :
    dumpNodeWith f node depth = dumpNodeWith g node depth := by
  simp only [dumpNodeWith, dumpChildren_congr hfg]

theorem dumpNodeFuel_eq {n m : Nat} {node : Node} (hn : node.bytes.length < 8 * n)
    (hm : node.bytes.length < 8 * m) (depth : Nat) :
    dumpNodeFuel n node depth = dumpNodeFuel m node depth := by
  induction n generalizing m node depth with
  | zero => omega
  | succ n ih =>
      obtain ⟨m, rfl⟩ : ∃ k, m = k + 1 := ⟨m - 1, by omega⟩
      refine dumpNodeWith_congr (fun below depth hbelow => ?_) depth
      have hlen : below.bytes.length + 8 ≤ node.bytes.length := hbelow
      exact ih (by omega) (by omega) depth

/-- The recursion equation of `dump_node`. -/
theorem dumpNode_eq (node : Node) (depth : Nat) :
    dumpNode node depth = dumpNodeWith dumpNode node depth := by
  refine dumpNodeWith_congr (fun below depth hbelow => ?_) depth
  have hlen : below.bytes.length + 8 ≤ node.bytes.length := hbelow
  exact dumpNodeFuel_eq (by omega) (by omega) depth

end XnuRs.Kernel
