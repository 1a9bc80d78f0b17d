/-
  XnuRs.Kernel.DeviceTree

  The kernel's reader of the Apple device tree and its dump to the UART
  (kernel/src/device_tree.rs).

  `child_at` measures every earlier sibling with `total_len`, and `total_len`
  finds every child with `child_at`.  The two are written over an unknown
  `totalLen` for the nodes below (`childAtWith`, `totalLenWith`), and the knot is
  tied by a counter of nesting levels.  A child starts at least 8 bytes into
  its parent, so the length of the slice is enough of a counter
  (`Node.totalLen_eq`): `totalLen`, `childAt` and `dumpNode` satisfy the
  recursion equations of the source.
-/

import XnuRs.Lib.Bytes
import XnuRs.Lib.Traced

namespace XnuRs.Kernel

/-- `PROPERTY_NAME_LEN`. -/
def propertyNameLen : Nat := 32

/-- `read_le_u32`. -/
def readLeU32 (bytes : List UInt8) (offset : Nat) : Outcome Unit Nat :=
  readU32 leToNat bytes offset

/-- `align_up_4`; `/ 4 * 4` clears the two low bits. -/
def alignUp4 (value : Nat) : Option Nat :=
  match usizeAdd value 3 with
  | some value => some (value / 4 * 4)
  | none => none

/-- `Property`; `stop` is the field `end`. -/
structure Property where
  name : String
  value : List UInt8
  stop : Nat
deriving DecidableEq, Repr

/-- `Property::parse`. -/
def Property.parse (bytes : List UInt8) (offset : Nat) : Outcome Unit Property := do
  let nameStop ← .okOr (usizeAdd offset propertyNameLen) ()
  let nameBytes ← .okOr (getRange bytes offset nameStop) ()
  let nameLen := (nameBytes.findIdx? (· == 0)).getD propertyNameLen
  let nameText ← indexTo nameBytes nameLen
  let name ← .okOr (fromUtf8 nameText) ()
  let lenOffset ← .okOr (usizeAdd offset propertyNameLen) ()
  let len ← readLeU32 bytes lenOffset
  let valueStart ← .okOr (usizeAdd lenOffset 4) ()
  let valueEnd ← .okOr (usizeAdd valueStart len) ()
  let value ← .okOr (getRange bytes valueStart valueEnd) ()
  let stop ← .okOr (alignUp4 valueEnd) ()
  if stop > bytes.length then .err () else .ok ⟨name, value, stop⟩

/-- `Node`: a slice that starts at the node and runs to the end of the buffer. -/
structure Node where
  bytes : List UInt8
deriving DecidableEq, Repr

namespace Node

/-- `Node::property_count`. -/
def propertyCount (node : Node) : Outcome Unit Nat := readLeU32 node.bytes 0

/-- `Node::child_count`. -/
def childCount (node : Node) : Outcome Unit Nat := readLeU32 node.bytes 4

/-- The loop of `Node::properties_end`, with the number of rounds left. -/
def propertiesEndLoop (bytes : List UInt8) : Nat → Nat → Outcome Unit Nat
  | 0, offset => .ok offset
  | remaining + 1, offset => do
    let property ← Property.parse bytes offset
    propertiesEndLoop bytes remaining property.stop

/-- `Node::properties_end`. -/
def propertiesEnd (node : Node) : Outcome Unit Nat := do
  let count ← node.propertyCount
  propertiesEndLoop node.bytes count 8

/-- The loop of `Node::child_at`, with the number of rounds left. -/
def childAtLoop (totalLen : Node → Outcome Unit Nat) (node : Node) (wanted : Nat) :
    Nat → Nat → Nat → Outcome Unit Node
  | 0, _, _ => .err ()
  | remaining + 1, index, offset => do
    let bytes ← .okOr (getFrom node.bytes offset) ()
    let childLen ← totalLen ⟨bytes⟩
    if index = wanted then .ok ⟨bytes⟩
    else
      let offset ← .okOr (usizeAdd offset childLen) ()
      childAtLoop totalLen node wanted remaining (index + 1) offset

/-- `Node::child_at`, over the `total_len` of the nodes below. -/
def childAtWith (totalLen : Node → Outcome Unit Nat) (node : Node) (wanted : Nat) :
    Outcome Unit Node := do
  let offset ← node.propertiesEnd
  let count ← node.childCount
  childAtLoop totalLen node wanted count 0 offset

/-- The loop of `Node::total_len`, with the number of rounds left. -/
def totalLenLoop (totalLen : Node → Outcome Unit Nat) (node : Node) :
    Nat → Nat → Nat → Outcome Unit Nat
  | 0, _, offset => .ok offset
  | remaining + 1, index, offset => do
    let child ← node.childAtWith totalLen index
    let childLen ← totalLen child
    let offset ← .okOr (usizeAdd offset childLen) ()
    totalLenLoop totalLen node remaining (index + 1) offset

/-- `Node::total_len`, over the `total_len` of the nodes below. -/
def totalLenWith (totalLen : Node → Outcome Unit Nat) (node : Node) : Outcome Unit Nat := do
  let offset ← node.propertiesEnd
  let count ← node.childCount
  totalLenLoop totalLen node count 0 offset

/-- `Node::total_len` for at most `fuel` levels of nesting. -/
def totalLenFuel : Nat → Node → Outcome Unit Nat
  | 0, _ => .fuel
  | fuel + 1, node => node.totalLenWith (totalLenFuel fuel)

/-- `Node::total_len`. -/
def totalLen (node : Node) : Outcome Unit Nat := totalLenFuel (node.bytes.length + 1) node

/-- `Node::child_at`. -/
def childAt (node : Node) (wanted : Nat) : Outcome Unit Node := node.childAtWith totalLen wanted

end Node

/-- `AppleDeviceTree`. -/
structure AppleDeviceTree where
  bytes : List UInt8

/-- `AppleDeviceTree::new`. -/
def AppleDeviceTree.new (bytes : List UInt8) : Outcome Unit AppleDeviceTree :=
  if bytes.length < 8 then .err () else .ok ⟨bytes⟩

/-- `AppleDeviceTree::root`. -/
def AppleDeviceTree.root (tree : AppleDeviceTree) : Node := ⟨tree.bytes⟩

/-! ## The dump -/

/-- One call of the UART's `write_str`, `write_hex_u64` or `write_byte`. -/
inductive UartOp where
  | str (message : String)
  | hexU64 (value : Nat)
  | byte (value : UInt8)
deriving DecidableEq, Repr

/-- A run that prints to the UART. -/
abbrev Printing := Traced UartOp Unit

/-- `uart::write_str`. -/
def writeStr (message : String) : Printing Unit := .emit (.str message)

/-- `uart::write_hex_u64`. -/
def writeHexU64 (value : Nat) : Printing Unit := .emit (.hexU64 value)

/-- `write_indent`. -/
def writeIndent : Nat → Printing Unit
  | 0 => pure ()
  | depth + 1 => do
    writeStr "  "
    writeIndent depth

/-- `is_printable`. -/
def isPrintable (bytes : List UInt8) : Bool :=
  !bytes.isEmpty && bytes.all fun byte => (32 ≤ byte && byte ≤ 126) || byte == 0

/-- `write_ascii`. -/
def writeAscii (bytes : List UInt8) : Printing Unit :=
  (bytes.filter (· != 0)).foldr (fun byte rest =>
    match fromUtf8 [byte] with
    | some text => do
      writeStr text
      rest
    | none => rest) (pure ())

/-- The line of one property in `dump_node`. -/
def dumpProperty (property : Property) (depth : Nat) : Printing Unit := do
  writeIndent depth
  writeStr property.name
  writeStr " len="
  writeHexU64 property.value.length
  if isPrintable property.value then
    writeStr " value=\""
    writeAscii property.value
    writeStr "\""
  writeStr "\n"

/-- The property loop of `dump_node`, with the number of rounds left. -/
def dumpProperties (node : Node) (depth : Nat) : Nat → Nat → Printing Unit
  | 0, _ => pure ()
  | remaining + 1, offset => do
    let property ← .lift (Property.parse node.bytes offset)
    let inner ← .lift (.orPanic (usizeAdd depth 1))
    dumpProperty property inner
    dumpProperties node depth remaining property.stop

/-- The child loop of `dump_node`, with the number of rounds left. -/
def dumpChildren (dumpNode : Node → Nat → Printing Unit) (node : Node) (depth : Nat) :
    Nat → Nat → Printing Unit
  | 0, _ => pure ()
  | remaining + 1, index => do
    let child ← .lift (node.childAt index)
    let inner ← .lift (.orPanic (usizeAdd depth 1))
    dumpNode child inner
    dumpChildren dumpNode node depth remaining (index + 1)

/-- `dump_node`, over the `dump_node` of the nodes below. -/
def dumpNodeWith (dumpNode : Node → Nat → Printing Unit) (node : Node) (depth : Nat) :
    Printing Unit := do
  writeIndent depth
  writeStr "node props="
  writeHexU64 (← .lift node.propertyCount)
  writeStr " children="
  writeHexU64 (← .lift node.childCount)
  writeStr "\n"
  let propertyCount ← .lift node.propertyCount
  dumpProperties node depth propertyCount 8
  let childCount ← .lift node.childCount
  dumpChildren dumpNode node depth childCount 0

/-- `dump_node` for at most `fuel` levels of nesting. -/
def dumpNodeFuel : Nat → Node → Nat → Printing Unit
  | 0, _, _ => .lift .fuel
  | fuel + 1, node, depth => dumpNodeWith (dumpNodeFuel fuel) node depth

/-- `dump_node`. -/
def dumpNode (node : Node) (depth : Nat) : Printing Unit :=
  dumpNodeFuel (node.bytes.length + 1) node depth

/-- `dump`. -/
def dump (bytes : List UInt8) : Printing Unit :=
  match AppleDeviceTree.new bytes with
  | .ok tree => do
    writeStr "xnu-rs: Apple device tree\n"
    match ← (dumpNode tree.root 0).attempt with
    | .ok () => pure ()
    | .error () => writeStr "xnu-rs: Apple device tree dump truncated/malformed\n"
  | .error _ => writeStr "xnu-rs: malformed Apple device tree\n"

end XnuRs.Kernel
