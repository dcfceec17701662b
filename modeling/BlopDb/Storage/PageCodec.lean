/-
# The byte layout of pages

A node page has a header, a slot for every cell that grows forwards from the
header, a gap of zeros, and the cells that grow backwards from the end of the
page.  Encoding writes into a page of zeros; decoding checks every field.  Ranges
that leave a page or a cell are panics.
-/

import BlopDb.Lib.Buffer
import BlopDb.Lib.Hash
import BlopDb.Storage.Page

namespace BlopDb.Storage.PageCodec

open BlopDb.Lib
open PageFile (validRef leafSize nodeSize checkInternal unordered)

/-- The magic of a page. -/
def magic : Bytes := [0x42, 0x4c, 0x50, 0x31]

/-- The magic of a page file. -/
def fileMagic : Bytes := [0x42, 0x4c, 0x4f, 0x50, 0x53, 0x54, 0x30, 0x31]

/-- The header of a page, field by field. -/
def headBytes (kind level id tree cells lower upper link payload crc : Nat) : Bytes :=
  magic ++ (leBytes 2 1 ++ (leBytes 1 kind ++ (leBytes 1 level ++ (leBytes 8 id ++
    (leBytes 4 tree ++ (leBytes 2 cells ++ (zeros 2 ++ (leBytes 2 lower ++ (leBytes 2 upper ++
      (zeros 4 ++ (leBytes 8 link ++ (leBytes 4 payload ++ (zeros 16 ++ leBytes 4 crc)))))))))))))

/-- A page of zeros with the fields that are common to its kind. -/
def header (kind level tree : Nat) : Bytes :=
  headBytes kind level 0 tree 0 headerSize pageSize 0 0 0 ++ zeros payloadSize

/-! ## Encoding -/

/-- The key in a slot of a node and the length of its cell. -/
def slotShape (node : Node) (slot : Nat) : Except (Fault Error) (Bytes × Nat) :=
  match node with
  | .leaf cells => do
      let cell ← index cells slot
      let length ← subChecked (leafSize cell) 4
      return (cell.key, length)
  | .internal _ keys _ => do
      let key ← index keys slot
      return (key, 12 + key.length)

/-- Copy data over the rest of a cell, which must have its length. -/
def writeTail (cell : Bytes) (offset : Nat) (data : Bytes) : Except (Fault Error) Bytes :=
  if offset + data.length = cell.length then writeAt cell offset data else .error .panic

/-- Write the key and the value or the child of a slot into its cell. -/
def writeCell (node : Node) (slot : Nat) (key cell : Bytes) : Except (Fault Error) Bytes := do
  let cell ← writeAt cell 0 (leBytes 2 key.length)
  match node with
  | .leaf cells => do
      let cell ← writeAt cell 16 key
      match (← index cells slot).value with
      | .inline value => do
          let cell ← writeAt cell 4 (leBytes 4 value.length)
          writeTail cell (16 + key.length) value
      | .overflow length head => do
          let cell ← writeAt cell 2 (leBytes 1 1)
          let cell ← writeAt cell 4 (leBytes 4 length)
          writeAt cell 8 (leBytes 8 head)
  | .internal _ _ children => do
      let child ← index children (slot + 1)
      let cell ← writeAt cell 4 (leBytes 8 child)
      writeTail cell 12 key

/-- Write a slot and its cell below the cells before it. -/
def encodeSlot (node : Node) (slot : Nat) (state : Bytes × Nat) :
    Except (Fault Error) (Bytes × Nat) := do
  let (bytes, stop) := state
  let (key, length) ← slotShape node slot
  raise id (refuse (key.length > maxKey) (.invalidInput "key exceeds 2066 bytes"))
  let start ← subChecked stop length
  let bytes ← writeAt bytes (64 + 4 * slot) (leBytes 2 start)
  let bytes ← writeAt bytes (66 + 4 * slot) (leBytes 2 length)
  let cell ← readAt bytes start (stop - start)
  let cell ← writeCell node slot key cell
  let bytes ← writeAt bytes start cell
  return (bytes, start)

/-- Write a number of slots from a position on. -/
def encodeSlots (node : Node) : Nat → Nat → Bytes × Nat → Except (Fault Error) (Bytes × Nat)
  | 0, _, state => return state
  | remaining + 1, slot, state => do
      let state ← encodeSlot node slot state
      encodeSlots node remaining (slot + 1) state

/-- The kind of a node page. -/
def nodeKind : Node → Nat
  | .leaf _ => 1
  | .internal _ _ _ => 2

/-- Write the first child of an internal node. -/
def writeLink (node : Node) (bytes : Bytes) : Except (Fault Error) Bytes :=
  match node with
  | .leaf _ => return bytes
  | .internal _ _ children => do
      let first ← index children 0
      writeAt bytes 32 (leBytes 8 first)

/-- Encode a node, without the identity and the checksum of its page. -/
def encodeNode (tree : TreeId) (node : Node) : Except (Fault Error) Bytes := do
  raise id (checkInternal node)
  let count := node.slotKeys.length
  raise id (refuse (count = 0 ∨ nodeSize node > pageSize) (.invalidInput "node does not fit a page"))
  let bytes := header (nodeKind node) node.level tree.number
  let bytes ← writeAt bytes 20 (leBytes 2 count)
  let bytes ← writeAt bytes 24 (leBytes 2 (64 + 4 * count))
  let (bytes, stop) ← encodeSlots node count 0 (bytes, pageSize)
  let bytes ← writeLink node bytes
  writeAt bytes 26 (leBytes 2 stop)

section Checksums

variable [Crc32c]

/-- Put the checksum of a page into its header. -/
def checksum (bytes : Bytes) : Bytes :=
  let bytes := overwrite bytes 60 (zeros 4)
  overwrite bytes 60 (leBytes 4 (Crc32c.checksum bytes))

/-- Give a page its identity and its checksum, as an append does. -/
def stamp (id : Nat) (bytes : Bytes) : Bytes := checksum (overwrite bytes 8 (leBytes 8 id))

/-! ## Decoding -/

/-- Some byte is not zero. -/
def anyNonzero (bytes : Bytes) : Bool := bytes.any fun byte => decide (byte ≠ 0)

/-- Check the header of a page. -/
def validateHeader (bytes : Bytes) (id : Nat) (tree : Option TreeId) (count : Nat) :
    Except Error Unit := do
  let crc := uintAt 4 bytes 60
  refuse (slice bytes 0 4 ≠ magic ∨ Crc32c.checksum (overwrite bytes 60 (zeros 4)) ≠ crc)
    (.corrupt "page magic or checksum mismatch")
  let version := uintAt 2 bytes 4
  refuse (version ≠ 1) (.unsupported "page" version)
  refuse (uintAt 8 bytes 8 ≠ id ∨ uintAt 4 bytes 16 ≠ tree.elim 0 TreeId.number)
    (.corrupt "page identity or tree mismatch")
  refuse (anyNonzero (slice bytes 22 2) || anyNonzero (slice bytes 28 4) || anyNonzero (slice bytes 44 16))
    (.corrupt "nonzero reserved page bytes")
  let kind := uintAt 1 bytes 6
  let level := uintAt 1 bytes 7
  let cells := uintAt 2 bytes 20
  let lower := uintAt 2 bytes 24
  let upper := uintAt 2 bytes 26
  let link := uintAt 8 bytes 32
  let payload := uintAt 4 bytes 40
  if kind = 0 ∧ id = 0 then
    refuse (level ≠ 0 ∨ cells ≠ 0 ∨ lower ≠ 64 ∨ upper ≠ pageSize ∨ link ≠ 0 ∨ payload ≠ 32 ∨
        slice bytes 64 8 ≠ fileMagic ∨ anyNonzero (bytes.drop 96) = true)
      (.corrupt "invalid file header")
  else if (kind = 1 ∨ kind = 2) ∧ id ≠ 0 then do
    refuse (cells = 0 ∨ lower ≠ 64 + 4 * cells ∨ lower > upper ∨ upper > pageSize ∨ payload ≠ 0 ∨
        anyNonzero (slice bytes lower (upper - lower)) = true)
      (.corrupt "invalid node boundaries")
    if kind = 1 then refuse (level ≠ 0 ∨ link ≠ 0) (.corrupt "invalid leaf header")
    else refuse (level = 0 ∨ ¬ validRef link count) (.corrupt "invalid internal header")
  else if kind = 3 ∧ id ≠ 0 then
    refuse (level ≠ 0 ∨ cells ≠ 0 ∨ lower ≠ 64 ∨ upper ≠ pageSize ∨
        ¬ (1 ≤ payload ∧ payload ≤ payloadSize) ∨ (link ≠ 0 ∧ ¬ validRef link count) ∨
        anyNonzero (bytes.drop (64 + payload)) = true)
      (.corrupt "invalid overflow header")
  else throw (.corrupt "invalid page kind")

end Checksums

/-- What a decoder has read: the start of the last cell, and the keys, cells and
children so far. -/
structure Decoding where
  /-- The start of the last cell. -/
  stop : Nat
  /-- The keys in slot order. -/
  keys : List Bytes
  /-- The cells of a leaf. -/
  cells : List LeafCell
  /-- The children of an internal node. -/
  children : List Nat

/-- The value of a leaf cell with this key length. -/
def decodeValue (cell : Bytes) (keyLength pageCount : Nat) : Except (Fault Error) StoredValue := do
  let valueLength ← numberAt 4 cell 4
  let head ← numberAt 8 cell 8
  let reserved ← numberAt 1 cell 3
  raise id (refuse (reserved ≠ 0 ∨ valueLength > maxValue) (.corrupt "invalid leaf value header"))
  let tag ← numberAt 1 cell 2
  if tag = 0 ∧ valueLength ≤ inlineLimit ∧ head = 0 ∧ cell.length = 16 + keyLength + valueLength then do
    let value ← readAt cell (16 + keyLength) (cell.length - (16 + keyLength))
    return .inline value
  else if tag = 1 ∧ valueLength > inlineLimit ∧ validRef head pageCount ∧
      cell.length = 16 + keyLength then
    return .overflow valueLength head
  else throw (.raised (.corrupt "invalid leaf value storage"))

/-- The child of an internal cell with this key length. -/
def decodeChild (cell : Bytes) (keyLength pageCount : Nat) : Except (Fault Error) Nat := do
  let child ← numberAt 8 cell 4
  let reserved ← numberAt 2 cell 2
  raise id (refuse (reserved ≠ 0 ∨ cell.length ≠ 12 + keyLength ∨ ¬ validRef child pageCount)
    (.corrupt "invalid internal cell"))
  return child

/-- The bytes of a cell before its key. -/
def fixedLength (leaf : Bool) : Nat := if leaf then 16 else 12

/-- Read a slot and its cell, which must end where the cell before it starts. -/
def decodeSlot (leaf : Bool) (bytes : Bytes) (upper pageCount slot : Nat) (state : Decoding) :
    Except (Fault Error) Decoding := do
  let offset ← numberAt 2 bytes (64 + 4 * slot)
  let length ← numberAt 2 bytes (66 + 4 * slot)
  let fixed := fixedLength leaf
  raise id (refuse (offset < upper ∨ offset + length ≠ state.stop ∨ length < fixed)
    (.corrupt "noncanonical node slots"))
  let cell ← readAt bytes offset (state.stop - offset)
  let keyLength ← numberAt 2 cell 0
  raise id (refuse (keyLength > maxKey ∨ fixed + keyLength > length)
    (.corrupt "invalid cell key length"))
  let key ← readAt cell fixed keyLength
  raise id (refuse (unordered state.keys.getLast? key) (.corrupt "node keys are not strictly ordered"))
  if leaf then do
    let value ← decodeValue cell keyLength pageCount
    return ⟨offset, state.keys ++ [key], state.cells ++ [⟨key, value⟩], state.children⟩
  else do
    let child ← decodeChild cell keyLength pageCount
    return ⟨offset, state.keys ++ [key], state.cells, state.children ++ [child]⟩

/-- Read a number of slots from a position on. -/
def decodeSlots (leaf : Bool) (bytes : Bytes) (upper pageCount : Nat) :
    Nat → Nat → Decoding → Except (Fault Error) Decoding
  | 0, _, state => return state
  | remaining + 1, slot, state => do
      let state ← decodeSlot leaf bytes upper pageCount slot state
      decodeSlots leaf bytes upper pageCount remaining (slot + 1) state

/-- Decode the node of a page. -/
def decodeNode (bytes : Bytes) (pageCount : Nat) : Except (Fault Error) Node := do
  let kind ← numberAt 1 bytes 6
  raise id (refuse (kind ≠ 1 ∧ kind ≠ 2) (.corrupt "tree reference is not a node"))
  let leaf : Bool := kind = 1
  let count ← numberAt 2 bytes 20
  let upper ← numberAt 2 bytes 26
  let link ← numberAt 8 bytes 32
  let state ← decodeSlots leaf bytes upper pageCount count 0 ⟨pageSize, [], [], [link]⟩
  raise id (refuse (state.stop ≠ upper) (.corrupt "cell packing does not meet upper boundary"))
  if leaf then return .leaf state.cells
  else do
    let level ← numberAt 1 bytes 7
    return .internal level state.keys state.children

end BlopDb.Storage.PageCodec
