/-
# Append-only page files

A page file grows by whole pages and never changes a page.  A page holds a tree
node or one chunk of an overflow chain, stamped with the tree that owns it.  The
model keeps the decoded content of each page: writing makes the checks of the
page encoder, and reading makes those checks of the page decoder that depend on
the content or on the readable prefix.  The byte layout of a page is not part of
this module.

A reader is a file value: later appends make a new file and leave it as it is.
-/

import BlopDb.Storage.Basic

namespace BlopDb.Storage

open BlopDb.Lib

/-- The bytes of a page. -/
def pageSize : Nat := 16384

/-- The bytes of a page header. -/
def headerSize : Nat := 64

/-- The bytes of a page after its header. -/
def payloadSize : Nat := pageSize - headerSize

/-- The longest value that is stored in its leaf. -/
def inlineLimit : Nat := 1024

/-- The number of pages a file can hold. -/
def maxPages : Nat := 2 ^ 48

/-- How a leaf stores a value. -/
inductive StoredValue
  | inline (bytes : Bytes)
  | overflow (length head : Nat)
  deriving DecidableEq, Repr

/-- A key and its stored value. -/
structure LeafCell where
  /-- The physical key. -/
  key : Bytes
  /-- The stored value. -/
  value : StoredValue
  deriving DecidableEq, Repr

/-- A node of a tree.  The separators of an internal node are the minima of its
children but the first. -/
inductive Node
  | leaf (cells : List LeafCell)
  | internal (level : Nat) (keys : List Bytes) (children : List Nat)
  deriving DecidableEq, Repr

namespace Node

/-- The height of a node above the leaves. -/
def level : Node → Nat
  | leaf _ => 0
  | internal level _ _ => level

/-- The keys in the slots of a node. -/
def slotKeys : Node → List Bytes
  | leaf cells => cells.map (·.key)
  | internal _ keys _ => keys

end Node

/-- The content of a page after page zero. -/
inductive Page
  | node (tree : TreeId) (node : Node)
  | overflow (tree : TreeId) (link : Nat) (chunk : Bytes)
  deriving DecidableEq, Repr

/-- The tree that owns a page. -/
def Page.tree : Page → TreeId
  | node tree _ | overflow tree _ _ => tree

/-- The pages of a file after page zero, in order. -/
structure PageFile where
  /-- Page one and the pages after it. -/
  pages : List Page
  /-- The number of pages with page zero stays within its ceiling. -/
  bounded : pages.length < maxPages

namespace PageFile

/-- The number of pages, which is also the identity of the next one. -/
def pageCount (file : PageFile) : Nat := file.pages.length + 1

/-- A page after page zero. -/
def page? (file : PageFile) (id : Nat) : Option Page :=
  if id = 0 then none else file.pages[id - 1]?

/-- The identity of a page after page zero inside a prefix. -/
def validRef (id count : Nat) : Prop := id ≠ 0 ∧ id < count

instance (id count : Nat) : Decidable (validRef id count) := inferInstanceAs (Decidable (_ ∧ _))

/-! ## Writing -/

/-- The bytes of a leaf cell with its slot. -/
def leafSize (cell : LeafCell) : Nat :=
  4 + 16 + cell.key.length + match cell.value with
    | .inline value => value.length
    | .overflow _ _ => 0

/-- The bytes of a node's header, slots and cells. -/
def nodeSize : Node → Nat
  | .leaf cells => headerSize + (cells.map leafSize).sum
  | .internal _ keys _ => headerSize + (keys.map fun key => 16 + key.length).sum

/-- Check the shape of an internal node. -/
def checkInternal : Node → Except Error Unit
  | .leaf _ => .ok ()
  | .internal level keys children =>
      refuse (level = 0 ∨ children.length ≠ keys.length + 1 ∨ 0 ∈ children)
        (.invalidInput "invalid internal node")

/-- Check that a node fits a page. -/
def encodeNode (tree : TreeId) (node : Node) : Except Error Page := do
  checkInternal node
  refuse (node.slotKeys.length = 0 ∨ nodeSize node > pageSize)
    (.invalidInput "node does not fit a page")
  refuse (node.slotKeys.any fun key => decide (key.length > maxKey))
    (.invalidInput "key exceeds 2066 bytes")
  return .node tree node

/-- Append a page and return its identity. -/
def append (file : PageFile) (page : Page) : Except Error (Nat × PageFile) :=
  if room : file.pages.length + 1 < maxPages then
    .ok (file.pageCount, ⟨file.pages ++ [page], by simpa using room⟩)
  else .error .exhausted

/-- Append a node. -/
def appendNode (file : PageFile) (tree : TreeId) (node : Node) : Except Error (Nat × PageFile) := do
  let page ← encodeNode tree node
  file.append page

/-- Append the chunks of a value from the last to the first, so that every link
refers to a completed page.  The fuel is the length of the value. -/
def storeChain (tree : TreeId) : Nat → Bytes → PageFile → Except Error (Nat × PageFile)
  | 0, _, file => .ok (0, file)
  | fuel + 1, value, file =>
      if value = [] then .ok (0, file)
      else do
        let (link, file) ← storeChain tree fuel (value.drop payloadSize) file
        file.append (.overflow tree link (value.take payloadSize))

/-- Store a value in its leaf or in an overflow chain. -/
def storeValue (file : PageFile) (tree : TreeId) (value : Bytes) :
    Except Error (StoredValue × PageFile) := do
  refuse (value.length > maxValue) (.invalidInput "value exceeds 128 MiB")
  if value.length ≤ inlineLimit then return (.inline value, file)
  else do
    let (head, file) ← storeChain tree value.length value file
    return (.overflow value.length head, file)

/-! ## Reading -/

/-- Check the header of a page. -/
def checkHeader (count : Nat) : Page → Except Error Unit
  | .node _ node => do
      refuse (node.slotKeys.length = 0) (.corrupt "invalid node boundaries")
      match node with
      | .leaf _ => return ()
      | .internal level _ children =>
          refuse (level = 0 ∨ ¬ validRef (children.headD 0) count)
            (.corrupt "invalid internal header")
  | .overflow _ link chunk =>
      refuse (chunk.length = 0 ∨ chunk.length > payloadSize ∨ (link ≠ 0 ∧ ¬ validRef link count))
        (.corrupt "invalid overflow header")

/-- Read a page of a tree. -/
def read (file : PageFile) (tree : TreeId) (id : Nat) : Except Error Page :=
  match file.page? id with
  | none => .error (.corrupt "page reference outside tree prefix")
  | some page => do
      refuse (page.tree ≠ tree) (.corrupt "page identity or tree mismatch")
      checkHeader file.pageCount page
      return page

/-- A key does not increase on the one before it. -/
def unordered (previous : Option Bytes) (key : Bytes) : Bool :=
  previous.any fun previous => decide (previous ≥ key)

/-- The stored form of a leaf value is possible. -/
def validStored (count : Nat) : StoredValue → Bool
  | .inline bytes => bytes.length ≤ inlineLimit
  | .overflow length head => inlineLimit < length && length ≤ maxValue && decide (validRef head count)

/-- Check the cells of a leaf in slot order. -/
def checkCells (count : Nat) : Option Bytes → List LeafCell → Except Error Unit
  | _, [] => .ok ()
  | previous, cell :: cells => do
      refuse (cell.key.length > maxKey) (.corrupt "invalid cell key length")
      refuse (unordered previous cell.key) (.corrupt "node keys are not strictly ordered")
      refuse (validStored count cell.value = false) (.corrupt "invalid leaf value storage")
      checkCells count (some cell.key) cells

/-- Check the separators and children of an internal node in slot order. -/
def checkChildren (count : Nat) : Option Bytes → List (Bytes × Nat) → Except Error Unit
  | _, [] => .ok ()
  | previous, (key, child) :: rest => do
      refuse (key.length > maxKey) (.corrupt "invalid cell key length")
      refuse (unordered previous key) (.corrupt "node keys are not strictly ordered")
      refuse (¬ validRef child count) (.corrupt "invalid internal cell")
      checkChildren count (some key) rest

/-- Check the slots of a node page. -/
def decodeNode (count : Nat) : Page → Except Error Node
  | .overflow _ _ _ => .error (.corrupt "tree reference is not a node")
  | .node _ (.leaf cells) => do
      checkCells count none cells
      return .leaf cells
  | .node _ (.internal level keys children) => do
      checkChildren count none (keys.zip children.tail)
      return .internal level keys children

/-- Read a node of a tree. -/
def node (file : PageFile) (tree : TreeId) (id : Nat) : Except Error Node := do
  let page ← file.read tree id
  decodeNode file.pageCount page

/-- Add a page to the owned pages, at most once. -/
def own (owned : List Nat) (id : Nat) : Except Error (List Nat) := do
  refuse (id ∈ owned) (.corrupt "repeated page ownership")
  return id :: owned

/-- Walk an overflow chain, collecting its bytes and owned pages.  Every page
holds at least one byte, so the remaining length bounds the walk. -/
def walkChain (file : PageFile) (tree : TreeId) :
    Nat → Nat → Nat → List Nat → Except Error (Bytes × List Nat)
  | 0, _, _, owned => .ok ([], owned)
  | fuel + 1, id, remaining, owned =>
      if remaining = 0 then .ok ([], owned)
      else do
        let owned ← own owned id
        match ← file.read tree id with
        | .node _ _ => throw (.corrupt "incorrect overflow payload length or kind")
        | .overflow _ link chunk => do
            refuse (chunk.length ≠ min remaining payloadSize)
              (.corrupt "incorrect overflow payload length or kind")
            let remaining := remaining - min remaining payloadSize
            refuse (decide (link = 0) ≠ decide (remaining = 0))
              (.corrupt "incorrect overflow chain length")
            let (bytes, owned) ← walkChain file tree fuel link remaining owned
            return (chunk ++ bytes, owned)

/-- Walk the chain of an overflow value. -/
def walkOverflow (file : PageFile) (tree : TreeId) (head length : Nat) (owned : List Nat) :
    Except Error (Bytes × List Nat) := do
  refuse (¬ (inlineLimit + 1 ≤ length ∧ length ≤ maxValue)) (.corrupt "invalid overflow value length")
  file.walkChain tree length head length owned

/-- The bytes of a stored value. -/
def value (file : PageFile) (tree : TreeId) : StoredValue → Except Error Bytes
  | .inline bytes => .ok bytes
  | .overflow length head => do
      let (bytes, _) ← file.walkOverflow tree head length []
      return bytes

/-- Check a stored value and own its pages. -/
def validateValue (file : PageFile) (tree : TreeId) (owned : List Nat) :
    StoredValue → Except Error (List Nat)
  | .inline _ => .ok owned
  | .overflow length head => do
      let (_, owned) ← file.walkOverflow tree head length owned
      return owned

end PageFile

end BlopDb.Storage
