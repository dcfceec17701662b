/-
# Copy-on-write B+ trees

Trees are read and edited through immutable roots.  An edit copies the changed
path and the siblings it needs for repair, and returns a new root; root zero is
the empty tree.  Loops that go down a tree recurse on the level of the node they
are at: the level of every loaded child is one less, and a level of zero is a
leaf.
-/

import Mathlib.Data.Nat.Dist
import BlopDb.Lib.Partition
import BlopDb.Storage.Page

namespace BlopDb.Storage.BTree

open BlopDb.Lib

/-- Load a node and check the level its parent expects. -/
def load (file : PageFile) (tree : TreeId) (id : Nat) (expected : Option Nat) :
    Except Error Node := do
  let node ← file.node tree id
  refuse (expected.any fun expected => decide (node.level ≠ expected))
    (.corrupt "child level does not decrease by one")
  return node

/-- The child that covers a key. -/
def route (keys : List Bytes) (key : Bytes) : Nat :=
  partitionPoint keys fun separator => separator ≤ key

/-- The position of a key in a leaf, and whether it is there. -/
def search (cells : List LeafCell) (key : Bytes) : Nat × Bool :=
  let position := partitionPoint cells fun cell => cell.key < key
  (position, cells[position]?.any fun cell => decide (cell.key = key))

/-! ## Reading -/

/-- The value under a key below a node. -/
def getNode (file : PageFile) (tree : TreeId) (key : Bytes) :
    Nat → Node → Except (Fault Error) (Option Bytes)
  | _, .leaf cells =>
      match search cells key with
      | (position, true) => do
          let cell ← index cells position
          let bytes ← raise id (file.value tree cell.value)
          return some bytes
      | (_, false) => return none
  | 0, .internal _ _ _ => throw .panic
  | below + 1, .internal level keys children => do
      let child ← index children (route keys key)
      let node ← raise id (load file tree child (some (level - 1)))
      getNode file tree key below node

/-- The value under a key. -/
def get (file : PageFile) (tree : TreeId) (root : Nat) (key : Bytes) :
    Except (Fault Error) (Option Bytes) := do
  raise id (checkKey key)
  if root = 0 then return none
  else do
    let node ← raise id (load file tree root none)
    getNode file tree key node.level node

/-- An ancestor of a scan's leaf and the next child to visit. -/
structure Frame where
  /-- The internal node. -/
  node : Node
  /-- The next child. -/
  next : Nat

/-- A scan holding a pinned reader, one leaf and its ancestors, nearest first. -/
structure Scan where
  /-- The pinned file. -/
  reader : PageFile
  /-- The tree. -/
  tree : TreeId
  /-- The ancestors of the leaf. -/
  stack : List Frame
  /-- The cells of the current leaf. -/
  leaf : List LeafCell
  /-- The next cell. -/
  next : Nat
  /-- The upper bound. -/
  upper : Bound Bytes
  /-- The last key that was returned. -/
  last : Option Bytes
  /-- No more entries follow. -/
  done : Bool

/-- A lower bound excludes a key. -/
def beforeLower (lower : Bound Bytes) (key : Bytes) : Bool :=
  match lower with
  | .unbounded => false
  | .included bound => key < bound
  | .excluded bound => key ≤ bound

/-- An upper bound excludes a key. -/
def beyondUpper (upper : Bound Bytes) (key : Bytes) : Bool :=
  match upper with
  | .unbounded => false
  | .included bound => key > bound
  | .excluded bound => key ≥ bound

/-- The child a scan starts in. -/
def startChild (lower : Bound Bytes) (keys : List Bytes) : Nat :=
  match lower with
  | .unbounded => 0
  | .included key | .excluded key => route keys key

/-- Go down from a node to the leaf where a range starts. -/
def descendNode (lower : Bound Bytes) : Nat → Node → Scan → Except (Fault Error) Scan
  | _, .leaf cells, scan =>
      return { scan with
        leaf := cells
        next := partitionPoint cells fun cell => beforeLower lower cell.key }
  | 0, .internal _ _ _, _ => throw .panic
  | below + 1, .internal level keys children, scan => do
      let position := startChild lower keys
      let child ← index children position
      let node ← raise id (load scan.reader scan.tree child (some (level - 1)))
      descendNode lower below node
        { scan with stack := ⟨.internal level keys children, position + 1⟩ :: scan.stack }

/-- Go down from a page to the leaf where a range starts. -/
def descend (scan : Scan) (page : Nat) (expected : Option Nat) (lower : Bound Bytes) :
    Except (Fault Error) Scan := do
  let node ← raise id (load scan.reader scan.tree page expected)
  descendNode lower node.level node scan

/-- The range between two bounds is empty. -/
def emptyRange : Bound Bytes → Bound Bytes → Bool
  | .included a, .included b => a > b
  | .included a, .excluded b | .excluded a, .included b | .excluded a, .excluded b => a ≥ b
  | _, _ => false

/-- Start a scan. -/
def scan (reader : PageFile) (tree : TreeId) (root : Nat) (lower upper : Bound Bytes) :
    Except (Fault Error) Scan := do
  raise id (checkBound checkKey lower)
  raise id (checkBound checkKey upper)
  let start : Scan :=
    ⟨reader, tree, [], [], 0, upper, none, root = 0 || emptyRange lower upper⟩
  if start.done then return start else descend start root none lower

/-- Find the next entry of a scan: a cell of the leaf, or else the first leaf of
the next child of the nearest ancestor that has one.  The fuel bounds the number
of ancestors that are left. -/
def advance : Nat → Scan → Except (Fault Error) (Option Entry × Scan)
  | 0, _ => throw .panic
  | fuel + 1, scan =>
      match scan.leaf[scan.next]? with
      | some cell => do
          let scan := { scan with next := scan.next + 1 }
          if beyondUpper scan.upper cell.key then return (none, scan)
          else do
            raise id (refuse (PageFile.unordered scan.last cell.key)
              (.corrupt "scan keys are not strictly ordered"))
            let value ← raise id (scan.reader.value scan.tree cell.value)
            return (some (cell.key, value), { scan with last := some cell.key })
      | none =>
          match scan.stack with
          | [] => return (none, scan)
          | ⟨.leaf _, _⟩ :: _ => throw .panic
          | ⟨.internal level keys children, next⟩ :: stack =>
              if next = children.length then advance fuel { scan with stack }
              else do
                let child ← index children next
                let scan := { scan with stack := ⟨.internal level keys children, next + 1⟩ :: stack }
                let scan ← descend scan child (some (level - 1)) .unbounded
                advance fuel scan

/-- The next item of a scan.  Every ancestor is left at most once before a leaf
with cells is reached. -/
def Scan.step (scan : Scan) : Option (Except (Fault Error) Entry) × Scan :=
  if scan.done then (none, scan)
  else
    match advance (scan.stack.length + 2) scan with
    | .ok (some entry, scan) => (some (.ok entry), scan)
    | .ok (none, scan) => (none, { scan with done := true })
    | .error fault => (some (.error fault), { scan with done := true })

/-- The items that a scan yields until it stops. -/
inductive Scan.Yields : Scan → List (Except (Fault Error) Entry) → Prop
  | stop {scan after : Scan} : scan.step = (none, after) → Scan.Yields scan []
  | item {scan after : Scan} {item : Except (Fault Error) Entry}
      {items : List (Except (Fault Error) Entry)} :
      scan.step = (some item, after) → Scan.Yields after items → Scan.Yields scan (item :: items)

/-! ## Editing -/

/-- A child and the least key below it. -/
structure Child where
  /-- The page. -/
  id : Nat
  /-- The least key. -/
  min : Bytes
  deriving DecidableEq, Repr

/-- The nodes that replace an edited node, all of one level. -/
structure Edit where
  /-- Their level. -/
  level : Nat
  /-- The nodes in key order. -/
  children : List Child
  deriving DecidableEq, Repr

/-- The least key below a node. -/
def minimumNode (file : PageFile) (tree : TreeId) : Nat → Node → Except (Fault Error) Bytes
  | _, .leaf cells => do
      let cell ← index cells 0
      return cell.key
  | 0, .internal _ _ _ => throw .panic
  | below + 1, .internal level _ children => do
      let child ← index children 0
      let node ← raise id (load file tree child (some (level - 1)))
      minimumNode file tree below node

/-- The least key below a page. -/
def minimum (file : PageFile) (tree : TreeId) (page expected : Nat) :
    Except (Fault Error) Bytes := do
  let node ← raise id (load file tree page (some expected))
  minimumNode file tree node.level node

/-- The children of an internal node with their least keys. -/
def childList (file : PageFile) (tree : TreeId) (level : Nat) (keys : List Bytes)
    (children : List Nat) : Except (Fault Error) (List Child) := do
  let first ← index children 0
  let below ← subChecked level 1
  let min ← minimum file tree first below
  return (children.zip (min :: keys)).map fun pair => ⟨pair.1, pair.2⟩

/-- One candidate of a split: the bytes on the left so far and the best position
with the difference of its two sides. -/
def splitStep (sizes : List Nat) (internal : Bool) (state : Nat × Option (Nat × Nat))
    (position : Nat) : Nat × Option (Nat × Nat) :=
  let minimum := if internal then 2 else 1
  let left := state.1 + sizes.getD (position - 1) 0
  let leftSize := headerSize + left - if internal then sizes.getD 0 0 else 0
  let rightSize := headerSize + sizes.sum - left - if internal then sizes.getD position 0 else 0
  let difference := Nat.dist leftSize rightSize
  if position < minimum ∨ sizes.length - position < minimum then (left, state.2)
  else if leftSize ≤ pageSize ∧ rightSize ≤ pageSize ∧
      state.2.all (fun best => decide (difference < best.2)) then
    (left, some (position, difference))
  else (left, state.2)

/-- The most even split whose two sides fit a page. -/
def splitPoint (sizes : List Nat) (internal : Bool) : Except Error Nat :=
  match ((List.range' 1 (sizes.length - 1)).foldl (splitStep sizes internal) (0, none)).2 with
  | some (position, _) => .ok position
  | none => .error (.invalidInput "node cannot be split")

/-- Append a leaf. -/
def appendLeaf (file : PageFile) (tree : TreeId) (cells : List LeafCell) :
    Except (Fault Error) (Child × PageFile) := do
  let cell ← index cells 0
  let (page, file) ← raise id (file.appendNode tree (.leaf cells))
  return (⟨page, cell.key⟩, file)

/-- Write the cells of a leaf, split when they do not fit a page. -/
def writeLeaves (file : PageFile) (tree : TreeId) (cells : List LeafCell) :
    Except (Fault Error) (Edit × PageFile) := do
  if cells = [] then return (⟨0, []⟩, file)
  else if headerSize + (cells.map PageFile.leafSize).sum > pageSize then do
    let split ← raise id (splitPoint (cells.map PageFile.leafSize) false)
    let (left, file) ← appendLeaf file tree (cells.take split)
    let (right, file) ← appendLeaf file tree (cells.drop split)
    return (⟨0, [left, right]⟩, file)
  else do
    let (child, file) ← appendLeaf file tree cells
    return (⟨0, [child]⟩, file)

/-- The internal node over children. -/
def internal (level : Nat) (children : List Child) : Node :=
  .internal level (children.tail.map (·.min)) (children.map (·.id))

/-- Append an internal node. -/
def appendInternal (file : PageFile) (tree : TreeId) (level : Nat) (children : List Child) :
    Except (Fault Error) (Child × PageFile) := do
  let first ← index children 0
  let (page, file) ← raise id (file.appendNode tree (internal level children))
  return (⟨page, first.min⟩, file)

/-- Write the children of an internal node, split when they do not fit a page. -/
def writeInternal (file : PageFile) (tree : TreeId) (level : Nat) (children : List Child) :
    Except (Fault Error) (Edit × PageFile) := do
  let sizes := children.map fun child => 16 + child.min.length
  if headerSize + sizes.tail.sum > pageSize then do
    let split ← raise id (splitPoint sizes true)
    let (left, file) ← appendInternal file tree level (children.take split)
    let (right, file) ← appendInternal file tree level (children.drop split)
    return (⟨level, [left, right]⟩, file)
  else do
    let (child, file) ← appendInternal file tree level children
    return (⟨level, [child]⟩, file)

/-- Merge an underflowing child's only child into a sibling. -/
def repair (file : PageFile) (tree : TreeId) (level : Nat) (children : List Child)
    (position : Nat) (underflow : List Child) : Except (Fault Error) (List Child × PageFile) := do
  let sibling := if position = 0 then 1 else position - 1
  let child ← index children sibling
  match ← raise id (load file tree child.id (some (level - 1))) with
  | .leaf _ => throw (.raised (.corrupt "underflow sibling is not internal"))
  | .internal siblingLevel keys ids => do
      let combined ← childList file tree siblingLevel keys ids
      let combined := if sibling < position then combined ++ underflow else underflow ++ combined
      let (repaired, file) ← writeInternal file tree siblingLevel combined
      return (splice children (min position sibling) (max position sibling) repaired.children, file)

/-- Put the nodes that replace a child in its place. -/
def replaceChild (file : PageFile) (tree : TreeId) (level : Nat) (children : List Child)
    (position : Nat) (edit : Edit) : Except (Fault Error) (List Child × PageFile) :=
  if edit.children ≠ [] ∧ edit.level ≠ level - 1 then do
    raise id (refuse (level < 2 ∨ edit.level ≠ level - 2 ∨ edit.children.length ≠ 1)
      (.corrupt "invalid deletion level transition"))
    repair file tree level children position edit.children
  else return (splice children position position edit.children, file)

/-- Edit the cells of a leaf; none is no change. -/
def updateLeaf (file : PageFile) (tree : TreeId) (key : Bytes) (value : Option Bytes)
    (cells : List LeafCell) : Except (Fault Error) (Option (List LeafCell) × PageFile) := do
  let (position, found) := search cells key
  match value with
  | none => return (if found then some (cells.eraseIdx position) else none, file)
  | some value => do
      let (stored, file) ← raise id (file.storeValue tree value)
      let cell : LeafCell := ⟨key, stored⟩
      return (some (if found then cells.set position cell else cells.insertIdx position cell), file)

/-- Put or delete a key below a node; none is no change. -/
def updateNode (tree : TreeId) (key : Bytes) (value : Option Bytes) :
    Nat → PageFile → Node → Except (Fault Error) (Option Edit × PageFile)
  | _, file, .leaf cells => do
      match ← updateLeaf file tree key value cells with
      | (none, file) => return (none, file)
      | (some cells, file) => do
          let (edit, file) ← writeLeaves file tree cells
          return (some edit, file)
  | 0, _, .internal _ _ _ => throw .panic
  | below + 1, reader, .internal level keys children => do
      let position := route keys key
      let child ← index children position
      let node ← raise id (load reader tree child (some (level - 1)))
      match ← updateNode tree key value below reader node with
      | (none, file) => return (none, file)
      | (some edit, file) => do
          let children ← childList reader tree level keys children
          let (children, file) ← replaceChild file tree level children position edit
          if children.length = 1 then return (some ⟨level - 1, children⟩, file)
          else do
            let (edit, file) ← writeInternal file tree level children
            return (some edit, file)

/-- Edit a tree and find its new root. -/
def finish (file : PageFile) (tree : TreeId) (root : Nat) (key : Bytes) (value : Option Bytes) :
    Except (Fault Error) (Nat × PageFile) := do
  let node ← raise id (load file tree root none)
  match ← updateNode tree key value node.level file node with
  | (none, file) => return (root, file)
  | (some ⟨_, []⟩, file) => return (0, file)
  | (some ⟨_, [child]⟩, file) => return (child.id, file)
  | (some ⟨level, children⟩, file) => do
      raise id (refuse (level ≥ 255) .exhausted)
      raise id (file.appendNode tree (internal (level + 1) children))

/-- Store a value under a key. -/
def put (file : PageFile) (tree : TreeId) (root : Nat) (key value : Bytes) :
    Except (Fault Error) (Nat × PageFile) := do
  raise id (checkKey key)
  raise id (refuse (value.length > maxValue) (.invalidInput "value exceeds 128 MiB"))
  if root = 0 then do
    let (stored, file) ← raise id (file.storeValue tree value)
    raise id (file.appendNode tree (.leaf [⟨key, stored⟩]))
  else finish file tree root key (some value)

/-- Remove a key. -/
def delete (file : PageFile) (tree : TreeId) (root : Nat) (key : Bytes) :
    Except (Fault Error) (Nat × PageFile) := do
  raise id (checkKey key)
  if root = 0 then return (0, file) else finish file tree root key none

/-! ## Validation -/

/-- Own the pages of all values of a leaf. -/
def validateCells (file : PageFile) (tree : TreeId) :
    List LeafCell → List Nat → Except Error (List Nat)
  | [], owned => .ok owned
  | cell :: cells, owned => do
      let owned ← file.validateValue tree owned cell.value
      validateCells file tree cells owned

/-- Check the children after the first against their separators. -/
def validateChildren (validate : Nat → List Nat → Except (Fault Error) (Bytes × Bytes × List Nat)) :
    List (Bytes × Nat) → Bytes → List Nat → Except (Fault Error) (Bytes × List Nat)
  | [], max, owned => return (max, owned)
  | (separator, child) :: rest, max, owned => do
      let (childMin, childMax, owned) ← validate child owned
      raise id (refuse (separator ≠ childMin ∨ max ≥ childMin)
        (.corrupt "inexact separator or overlapping child ranges"))
      validateChildren validate rest childMax owned

/-- Check everything below a node: its least and greatest keys and the owned
pages. -/
def validateNode (file : PageFile) (tree : TreeId) :
    Nat → Node → List Nat → Except (Fault Error) (Bytes × Bytes × List Nat)
  | _, .leaf cells, owned => do
      let owned ← raise id (validateCells file tree cells owned)
      let first ← index cells 0
      let last ← index cells (cells.length - 1)
      return (first.key, last.key, owned)
  | 0, .internal _ _ _, _ => throw .panic
  | below + 1, .internal level keys children, owned => do
      let validate := fun child owned => do
        let owned ← raise id (PageFile.own owned child)
        let node ← raise id (load file tree child (some (level - 1)))
        validateNode file tree below node owned
      let first ← index children 0
      let (min, max, owned) ← validate first owned
      let (max, owned) ← validateChildren validate (keys.zip children.tail) max owned
      return (min, max, owned)

/-- Check every reachable node and overflow page, including unique ownership. -/
def validate (file : PageFile) (tree : TreeId) (root : Nat) : Except (Fault Error) Unit := do
  if root = 0 then return ()
  else do
    let owned ← raise id (PageFile.own [] root)
    let node ← raise id (load file tree root none)
    let _ ← validateNode file tree node.level node owned
    return ()

end BlopDb.Storage.BTree
