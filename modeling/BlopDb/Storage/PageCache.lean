/-
# The cache of decoded nodes

A page file can keep the nodes that its readers decoded, within a byte budget.
Entries are found by page alone: a lookup checks the tree and every reference of
the node against the prefix of the reader that asks.  A page has four places in
its shard; a full set loses its least recently used entry, and a sweeping hand
removes entries until a new one fits the budget.
-/

import BlopDb.Storage.PageReader

namespace BlopDb.Storage.Caching

open BlopDb.Lib
open PageFile (validRef)
open PageCodec (readNode)

/-- The byte budget of a cache. -/
def cacheBytes : Nat := 64 * 1024 * 1024

/-- The number of shards. -/
def shardCount : Nat := 16

/-- The number of entries of a shard. -/
def slotCount : Nat := 256

/-- The number of places of one page. -/
def ways : Nat := 4

/-- The sizes of types and the capacities of vectors that the accounting uses. -/
structure Memory where
  word : Nat
  node : Nat
  leafCell : Nat
  vector : Nat
  identity : Nat
  entry : Nat
  cache : Nat
  octets : Bytes → Nat
  cells : List LeafCell → Nat
  keys : List Bytes → Nat
  children : List Nat → Nat

/-- A decoded node with what a lookup checks and the budget it takes. -/
structure Entry where
  page : Nat
  tree : TreeId
  /-- The greatest page that the node refers to. -/
  maxReference : Nat
  node : Node
  bytes : Nat
  /-- When the entry was last used. -/
  used : Nat
  deriving DecidableEq

/-- One shard of a cache. -/
structure Shard where
  entries : List (Option Entry)
  bytes : Nat
  limit : Nat
  clock : Nat
  hand : Nat

/-- The first place of a page. -/
def setStart (page : Nat) : Nat := page / shardCount % (slotCount / ways) * ways

/-- One more, up to the largest 64-bit integer. -/
def saturatingSucc (number : Nat) : Nat := min (number + 1) maxU64

/-- The retained bytes of a node and the greatest page it refers to. -/
def nodeAllocation (memory : Memory) : Node → Nat × Nat
  | .leaf cells =>
      cells.foldl
        (fun (bytes, greatest) cell =>
          match cell.value with
          | .inline value => (bytes + memory.octets cell.key + memory.octets value, greatest)
          | .overflow _ head => (bytes + memory.octets cell.key, max greatest head))
        (memory.node + 2 * memory.word + memory.cells cells * memory.leafCell, 0)
  | .internal _ keys children =>
      (memory.node + 2 * memory.word + (memory.keys keys * memory.vector + (keys.map memory.octets).sum +
        memory.children children * memory.identity), children.foldl max 0)

/-- A loop that has not ended within its fuel. -/
inductive Endless
  | endless
  deriving DecidableEq, Repr

namespace Shard

/-- An empty shard within a budget that covers its places too. -/
def new (memory : Memory) (limit : Nat) : Shard :=
  ⟨List.replicate slotCount none, 0, limit - slotCount * memory.entry, 0, 0⟩

/-- The places of a page. -/
def places (shard : Shard) (page : Nat) : List (Option Entry) :=
  (shard.entries.drop (setStart page)).take ways

/-- A place holds a page. -/
def holds (page : Nat) (place : Option Entry) : Bool := place.any fun entry => entry.page = page

/-- Find a node for a reader of a prefix. -/
def get (shard : Shard) (tree : TreeId) (page pageCount : Nat) :
    Except Error (Option Node) × Shard :=
  let shard := { shard with clock := saturatingSucc shard.clock }
  match (shard.places page).findIdx? (holds page) with
  | none => (.ok none, shard)
  | some position =>
      match shard.entries[setStart page + position]? with
      | some (some entry) =>
          if entry.tree ≠ tree then (.error (.corrupt "page identity or tree mismatch"), shard)
          else if page ≥ pageCount ∨ entry.maxReference ≥ pageCount then
            (.error (.corrupt "page reference outside tree prefix"), shard)
          else
            (.ok (some entry.node), { shard with
              entries := shard.entries.set (setStart page + position)
                (some { entry with used := shard.clock }) })
      | _ => (.ok none, shard)

/-- Empty a place. -/
def remove (shard : Shard) (position : Nat) : Except (Fault Endless) Shard := do
  match ← index shard.entries position with
  | none => return shard
  | some entry => do
      let bytes ← subChecked shard.bytes entry.bytes
      return { shard with entries := shard.entries.set position none, bytes }

/-- Sweep places until a number of bytes fits the budget. -/
def evict (need : Nat) : Nat → Shard → Except (Fault Endless) Shard
  | fuel, shard =>
      if shard.bytes + need > shard.limit then
        match fuel with
        | 0 => throw (.raised .endless)
        | fuel + 1 => do
            let shard ← shard.remove shard.hand
            evict need fuel { shard with hand := (shard.hand + 1) % slotCount }
      else return shard

/-- The first place whose entry was used least recently. -/
def oldest (places : List (Option Entry)) : Nat :=
  let used (place : Option Entry) : Nat := place.elim 0 Entry.used
  (places.zipIdx.foldl
    (fun best candidate =>
      match best with
      | none => some candidate
      | some best => if used candidate.1 < used best.1 then some candidate else some best)
    none).elim 0 Prod.snd

/-- The place for a new entry: an empty one, or else the oldest. -/
def victim (places : List (Option Entry)) : Nat :=
  (places.findIdx? Option.isNone).getD (oldest places)

/-- Keep an entry, unless it exceeds the budget or its page is kept already. -/
def insert (shard : Shard) (entry : Entry) : Except (Fault Endless) Shard := do
  if entry.bytes > shard.limit then return shard
  else if (shard.places entry.page).any (holds entry.page) then return shard
  else do
    let position := setStart entry.page + victim (shard.places entry.page)
    let shard ← shard.remove position
    let shard ← evict entry.bytes slotCount shard
    let clock := saturatingSucc shard.clock
    return { shard with
      clock
      bytes := shard.bytes + entry.bytes
      entries := shard.entries.set position (some { entry with used := clock }) }

end Shard

/-- A cache of decoded nodes. -/
structure PageCache where
  shards : Fin shardCount → Shard

namespace PageCache

/-- An empty cache; the budget covers the cache itself. -/
def new (memory : Memory) : PageCache :=
  ⟨fun _ => Shard.new memory ((cacheBytes - memory.cache - 2 * memory.word) / shardCount)⟩

/-- The shard of a page. -/
def shardOf (page : Nat) : Fin shardCount := ⟨page % shardCount, Nat.mod_lt _ (by decide)⟩

/-- Find a node for a reader of a prefix. -/
def get (cache : PageCache) (tree : TreeId) (page pageCount : Nat) :
    Except Error (Option Node) × PageCache :=
  let (result, shard) := (cache.shards (shardOf page)).get tree page pageCount
  (result, ⟨Function.update cache.shards (shardOf page) shard⟩)

/-- Keep a decoded node. -/
def insert (memory : Memory) (cache : PageCache) (tree : TreeId) (page : Nat) (node : Node) :
    Except (Fault Endless) PageCache := do
  let (bytes, maxReference) := nodeAllocation memory node
  let shard ← (cache.shards (shardOf page)).insert ⟨page, tree, maxReference, node, bytes, 0⟩
  return ⟨Function.update cache.shards (shardOf page) shard⟩

end PageCache

/-! ## Readers with a cache -/

section Readers

variable [Crc32c]

/-- The first part of a shared read: the checks and the lookup. -/
def lookup (cache : PageCache) (pageCount : Nat) (tree : TreeId) (page : Nat) :
    Except Error (Option Node) × PageCache :=
  if ¬ validRef page pageCount then (.error (.corrupt "page reference outside tree prefix"), cache)
  else cache.get tree page pageCount

/-- The second part of a shared read after a miss: read, decode and keep the
node. -/
def complete (memory : Memory) (pages : List Bytes) (cache : PageCache) (pageCount : Nat)
    (tree : TreeId) (page : Nat) :
    Except (Fault Endless) (Except (Fault Error) Node × PageCache) :=
  match readNode pages pageCount tree page with
  | .error fault => return (.error fault, cache)
  | .ok node => do
      let cache ← cache.insert memory tree page node
      return (.ok node, cache)

/-- Read a node through the cache. -/
def sharedNode (memory : Memory) (pages : List Bytes) (cache : PageCache) (pageCount : Nat)
    (tree : TreeId) (page : Nat) :
    Except (Fault Endless) (Except (Fault Error) Node × PageCache) :=
  match lookup cache pageCount tree page with
  | (.error error, cache) => return (.error (.raised error), cache)
  | (.ok (some node), cache) => return (.ok node, cache)
  | (.ok none, cache) => complete memory pages cache pageCount tree page

/-- Read a node, through the cache of the reader if it has one. -/
def node (memory : Memory) (pages : List Bytes) (cache : Option PageCache) (pageCount : Nat)
    (tree : TreeId) (page : Nat) :
    Except (Fault Endless) (Except (Fault Error) Node × Option PageCache) :=
  match cache with
  | none => return (readNode pages pageCount tree page, none)
  | some cache => do
      let (result, cache) ← sharedNode memory pages cache pageCount tree page
      return (result, some cache)

/-! ## Appends -/

/-- Append a page under the next identity. -/
def append (pages : List Bytes) (bytes : Bytes) : Except Error (Nat × List Bytes) :=
  if pages.length ≥ maxPages then .error .exhausted
  else .ok (pages.length, pages ++ [PageCodec.stamp pages.length bytes])

/-- Append a node. -/
def appendNode (pages : List Bytes) (tree : TreeId) (node : Node) :
    Except (Fault Error) (Nat × List Bytes) := do
  let bytes ← PageCodec.encodeNode tree node
  raise id (append pages bytes)

/-- The page of an overflow chunk. -/
def overflowPage (tree : TreeId) (link : Nat) (chunk : Bytes) : Bytes :=
  PageCodec.headBytes 3 0 0 tree.number 0 headerSize pageSize link chunk.length 0 ++
    (chunk ++ zeros (payloadSize - chunk.length))

/-- Append the chunks of a value from the last to the first; an append that fails
leaves the chunks before it.  The fuel is the length of the value. -/
def storeChain (tree : TreeId) : Nat → Bytes → List Bytes → Except Error Nat × List Bytes
  | 0, _, pages => (.ok 0, pages)
  | fuel + 1, value, pages =>
      if value = [] then (.ok 0, pages)
      else
        match storeChain tree fuel (value.drop payloadSize) pages with
        | (.error error, pages) => (.error error, pages)
        | (.ok link, pages) =>
            match append pages (overflowPage tree link (value.take payloadSize)) with
            | .error error => (.error error, pages)
            | .ok (page, pages) => (.ok page, pages)

/-- Store a value in its leaf or in an overflow chain. -/
def storeValue (pages : List Bytes) (tree : TreeId) (value : Bytes) :
    Except Error StoredValue × List Bytes :=
  if value.length > maxValue then (.error (.invalidInput "value exceeds 128 MiB"), pages)
  else if value.length ≤ inlineLimit then (.ok (.inline value), pages)
  else
    match storeChain tree value.length value pages with
    | (.error error, pages) => (.error error, pages)
    | (.ok head, pages) => (.ok (.overflow value.length head), pages)

end Readers

/-! ## Runs -/

/-- A page file whose readers share a cache, with the reads that missed and have
not kept their node yet. -/
structure Session where
  pages : List Bytes
  cache : PageCache
  /-- The prefix, tree and page of each read that missed. -/
  waiting : List (Nat × TreeId × Nat)

/-- A cache is enabled on a file of page images. -/
structure Session.Initial (memory : Memory) (session : Session) : Prop where
  sized : ∀ bytes ∈ session.pages, bytes.length = pageSize
  bounded : session.pages.length ≤ maxPages
  fresh : session.cache = .new memory
  idle : session.waiting = []

/-- What can happen to a file and its cache: an append of a node or of a value, the
lookup of a reader of any prefix, and the rest of a read that missed. -/
inductive Step [Crc32c] (memory : Memory) : Session → Session → Prop
  | appendNode {session : Session} {tree : TreeId} {node : Node} {page : Nat} {pages : List Bytes} :
      Caching.appendNode session.pages tree node = .ok (page, pages) →
      Step memory session { session with pages }
  | storeValue {session : Session} (tree : TreeId) (value : Bytes) :
      Step memory session { session with pages := (Caching.storeValue session.pages tree value).2 }
  | lookup {session : Session} {pageCount page : Nat} {tree : TreeId}
      {result : Except Error (Option Node)} {cache : PageCache} :
      pageCount ≤ session.pages.length →
      Caching.lookup session.cache pageCount tree page = (result, cache) →
      Step memory session { session with
        cache
        waiting := match result with
          | .ok none => (pageCount, tree, page) :: session.waiting
          | _ => session.waiting }
  | complete {session : Session} {pageCount page : Nat} {tree : TreeId}
      {result : Except (Fault Error) Node} {cache : PageCache} :
      (pageCount, tree, page) ∈ session.waiting →
      Caching.complete memory session.pages session.cache pageCount tree page = .ok (result, cache) →
      Step memory session { session with
        cache
        waiting := session.waiting.erase (pageCount, tree, page) }

/-- A state that a run reaches. -/
inductive Reachable [Crc32c] (memory : Memory) : Session → Prop
  | start {session : Session} : session.Initial memory → Reachable memory session
  | step {session after : Session} : Reachable memory session → Step memory session after →
      Reachable memory after

end BlopDb.Storage.Caching
