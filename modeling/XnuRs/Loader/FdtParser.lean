/-
  XnuRs.Loader.FdtParser

  The loader's recursive-descent parser of flattened device trees
  (loader/src/device_tree.rs: `FdtParser`).

  The cursor is passed explicitly.  A `usize` has 64 bits, so its `try_from` of
  a `u32` returns the same number and is not written.  `parse_node` and its item loop share one
  counter: a round of the loop and a nested node each take one from it.  Every
  token takes 4 bytes of the blob, so one more than the length of the blob is
  enough (`parse_fails`).
-/

import XnuRs.Loader.Adt

namespace XnuRs.Loader

/-- `FDT_MAGIC`. -/
def fdtMagic : Nat := 0xd00dfeed
/-- `FDT_BEGIN_NODE`. -/
def fdtBeginNode : Nat := 1
/-- `FDT_END_NODE`. -/
def fdtEndNode : Nat := 2
/-- `FDT_PROP`. -/
def fdtProp : Nat := 3
/-- `FDT_NOP`. -/
def fdtNop : Nat := 4
/-- `FDT_END`. -/
def fdtEnd : Nat := 9

/-- `read_be_u32`; its `None` is the error `()`. -/
def readBeU32 (bytes : List UInt8) (offset : Nat) : Outcome Unit Nat :=
  readU32 beToNat bytes offset

/-- `FdtParser`. -/
structure FdtParser where
  bytes : List UInt8
  stringsOffset : Nat
  pos : Nat
deriving DecidableEq, Repr

namespace FdtParser

/-- `FdtParser::new`. -/
def new (bytes : List UInt8) : Outcome Status FdtParser := do
  let magic ← (readBeU32 bytes 0).mapErr .loadError
  if magic ≠ fdtMagic then .err .loadError
  else
    let totalsize ← (readBeU32 bytes 4).mapErr .loadError
    let structOffset ← (readBeU32 bytes 8).mapErr .loadError
    let stringsOffset ← (readBeU32 bytes 12).mapErr .loadError
    if totalsize > bytes.length ∨ structOffset ≥ totalsize ∨ stringsOffset ≥ totalsize then
      .err .loadError
    else
      -- nothing behind `totalsize` is ever read
      let bytes ← indexTo bytes totalsize
      .ok ⟨bytes, stringsOffset, structOffset⟩

/-- `FdtParser::peek_token`. -/
def peekToken (p : FdtParser) : Outcome Status Nat := (readBeU32 p.bytes p.pos).mapErr .loadError

/-- `FdtParser::read_token`. -/
def readToken (p : FdtParser) : Outcome Status (Nat × FdtParser) := do
  let value ← p.peekToken
  let pos ← .okOr (usizeAdd p.pos 4) .loadError
  .ok (value, { p with pos })

/-- `FdtParser::expect_token`. -/
def expectToken (p : FdtParser) (expected : Nat) : Outcome Status FdtParser := do
  let (value, p) ← p.readToken
  if value = expected then .ok p else .err .loadError

/-- `FdtParser::align_pos`; `/ 4 * 4` clears the two low bits. -/
def alignPos (p : FdtParser) : Outcome Status FdtParser := do
  let pos ← .okOr (usizeAdd p.pos 3) .loadError
  .ok { p with pos := pos / 4 * 4 }

/-- The loop of `string_at` and `read_cstr`: step `stop` to the first NUL of the
    bytes from there on. -/
def scanNul : List UInt8 → Nat → Outcome Status Nat
  | [], _ => .err .loadError
  | byte :: rest, stop =>
    if byte ≠ 0 then do
      let stop ← .okOr (usizeAdd stop 1) .loadError
      scanNul rest stop
    else .ok stop

/-- `FdtParser::string_at`. -/
def stringAt (p : FdtParser) (offset : Nat) : Outcome Status String := do
  let start ← .okOr (usizeAdd p.stringsOffset offset) .loadError
  let stop ← scanNul (p.bytes.drop start) start
  let text ← indexRange p.bytes start stop
  .okOr (fromUtf8 text) .loadError

/-- `FdtParser::read_cstr`. -/
def readCstr (p : FdtParser) : Outcome Status (String × FdtParser) := do
  let stop ← scanNul (p.bytes.drop p.pos) p.pos
  let pos ← .okOr (usizeAdd stop 1) .loadError
  let text ← indexRange p.bytes p.pos stop
  let name ← .okOr (fromUtf8 text) .loadError
  .ok (name, { p with pos })

/-- `FdtParser::parse_prop`. -/
def parseProp (p : FdtParser) : Outcome Status (AdtProp × FdtParser) := do
  let p ← p.expectToken fdtProp
  let (len, p) ← p.readToken
  let (nameoff, p) ← p.readToken
  let name ← p.stringAt nameoff
  let stop ← .okOr (usizeAdd p.pos len) .loadError
  let value ← .okOr (getRange p.bytes p.pos stop) .loadError
  -- the next token starts at a multiple of 4
  let p ← alignPos { p with pos := stop }
  let prop ← AdtProp.newOwned name value
  .ok (prop, p)

/-- The end of `parse_node`: a node without a property `name` gets one in front,
    with the node's own name. -/
def insertName (name : String) (props : List AdtProp) : Outcome Status (List AdtProp) :=
  if !props.any (fun prop => prop.name == "name") then do
    -- the root of a blob has the empty name
    let value := if name.isEmpty then asBytes "/" else asBytes name
    let prop ← AdtProp.new "name" value
    .ok (prop :: props)
  else .ok props

mutual

/-- `FdtParser::parse_node`. -/
def parseNode : Nat → FdtParser → Outcome Status (AdtNode × FdtParser)
  | 0, _ => .fuel
  | fuel + 1, p => do
    let p ← p.expectToken fdtBeginNode
    let (name, p) ← p.readCstr
    let p ← p.alignPos
    let (props, children, p) ← parseItems fuel p [] []
    let props ← insertName name props
    .ok (⟨props, children⟩, p)

/-- The loop of `FdtParser::parse_node`. -/
def parseItems : Nat → FdtParser → List AdtProp → List AdtNode →
    Outcome Status (List AdtProp × List AdtNode × FdtParser)
  | 0, _, _, _ => .fuel
  | fuel + 1, p, props, children => do
    -- the token of a property or a child is read again by its own parser
    let token ← p.peekToken
    if token = fdtProp then
      let (prop, p) ← p.parseProp
      parseItems fuel p (props ++ [prop]) children
    else if token = fdtBeginNode then
      let (child, p) ← parseNode fuel p
      parseItems fuel p props (children ++ [child])
    else if token = fdtEndNode then
      let (_, p) ← p.readToken
      .ok (props, children, p)
    else if token = fdtNop then
      let (_, p) ← p.readToken
      parseItems fuel p props children
    -- FDT_END also closes the node, and stays the next token
    else if token = fdtEnd then .ok (props, children, p)
    else .err .loadError

end

/-- `FdtParser::parse`. -/
def parse (p : FdtParser) : Outcome Status AdtNode := do
  let (root, _) ← parseNode (p.bytes.length + 1) p
  .ok root

end FdtParser
end XnuRs.Loader
