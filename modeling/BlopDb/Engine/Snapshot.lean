/-
# Snapshots

A snapshot pins the live roots at the visible frontier.  Reads go through the
pinned pages, with the table schemas that were in force at the captured sequence;
one schema is cached.  A scan holds no cursor: every call seeks again from the
last key it returned.  Revocation drops the pin, and every later read reports it.
-/

import BlopDb.Engine.Feed
import BlopDb.Storage.PageFiles

namespace BlopDb.Engine

open BlopDb.Lib
open Exchange (Error)
open Storage (PageFiles PageView Pinned TreeId maxU64)
open Storage.Encoding (Schema)
open Vm (CatalogueVersion Table Value)
open Vm.Database (catalogueKey decodeCatalogue decodeCatalogueKey persisted validId)

namespace Snapshot

/-! ## Catalogue reads -/

/-- The last catalogue version at or before a sequence. -/
def catalogueVersion (view : PageView) (table sequence : Nat) :
    Except (Fault Vm.Error) (Option CatalogueVersion) := do
  raise id (validId table)
  raise id (refuse (sequence = maxU64) (.invalid "reserved snapshot sequence"))
  let entries ← relay .storage (Storage.BTree.scan view.reader .catalogue (view.roots.root .catalogue)
    (.included (catalogueKey table sequence)) (.excluded (beBytes 8 (table + 1))))
  match entries.step.1 with
  | none => return none
  | some item => do
      let (key, value) ← relay .storage item
      let (foundId, foundSequence) ← raise id (decodeCatalogueKey key)
      raise id (refuse (foundId ≠ table ∨ foundSequence > sequence)
        (.storage (.corrupt "unexpected catalogue seek result")))
      let version ← raise persisted (decodeCatalogue table value)
      return some version

/-! ## Claims -/

/-- A table at the captured sequence, with the schema of its keys. -/
structure ReadTable where
  table : Table
  keySchema : Schema

/-- What the clones of a snapshot share. -/
structure Claim where
  sequence : Nat
  /-- The pinned roots, until the snapshot is revoked. -/
  view : Option Pinned
  /-- The last table that was read. -/
  table : Option ReadTable

/-- Release the pinned roots. -/
def Claim.revoke (claim : Claim) : Claim := { claim with view := none, table := none }

/-- The pinned view of a claim. -/
def Claim.pinned (files : PageFiles) (claim : Claim) : Except (Fault Error) PageView :=
  match claim.view with
  | none => .error (.raised .snapshotRevoked)
  | some pinned => relay .storage (pinned.view files)

/-- A live table at the captured sequence, from the cache or the catalogue. -/
def liveTable (view : PageView) (id sequence : Nat) (cached : Option ReadTable) :
    Except (Fault Error) ReadTable :=
  match cached.filter fun read => read.table.id = id with
  | some read => .ok read
  | none => do
      match (← relay .read (catalogueVersion view id sequence)).filter (·.live) with
      | none => throw (.raised (.invalidInput "table is unknown or dropped at snapshot sequence"))
      | some version => do
          let descriptor ← version.table.key.descriptorOrPanic
          let keySchema ← raise .storage (Schema.decode descriptor)
          return ⟨version.table, keySchema⟩

/-- The canonical key of a value. -/
def keyBytes (read : ReadTable) (key : Value) : Except (Fault Error) Bytes := do
  raise id (refuse (read.table.key.accepts key = false)
    (.invalidInput "key does not match captured table schema"))
  let encoded ← match key with
    | .unit => pure []
    | .boolean value => pure [if value then 1 else 0]
    | .u64 number => pure (leBytes 8 number.toNat)
    | .i64 number => pure (leBytes 8 number.toBitVec.toNat)
    | _ => key.encodeOrPanic
  raise .storage (Storage.Encoding.encodeKey read.keySchema encoded)

/-- Read a table of a claim, and remember it. -/
def Claim.read (claim : Claim) (view : PageView) (table : Nat) :
    Except (Fault Error) ReadTable × Claim :=
  match liveTable view table claim.sequence claim.table with
  | .ok read => (.ok read, { claim with table := some read })
  | .error fault => (.error fault, claim)

/-- The value under a key. -/
def getIn (view : PageView) (sequence : Nat) (read : ReadTable) (key : Value) :
    Except (Fault Error) (Option Value) := do
  let key ← keyBytes read key
  match ← relay .storage (view.readValue read.table.id key sequence) with
  | none => return none
  | some bytes => do
      let value ← raise persistedRead (Vm.decodeValue read.table.value bytes)
      return some value

/-- Look up a key with the schema of its table at the captured sequence. -/
def get (files : PageFiles) (claim : Claim) (table : Nat) (key : Value) :
    Except (Fault Error) (Option Value) × Claim :=
  match claim.pinned files with
  | .error fault => (.error fault, claim)
  | .ok view =>
      match claim.read view table with
      | (.error fault, claim) => (.error fault, claim)
      | (.ok read, claim) => (getIn view claim.sequence read key, claim)

/-- Select the first version at or before a sequence of each table. -/
def selectVersion (sequence : Nat) (state : List CatalogueVersion × Option Nat)
    (entry : Storage.Entry) : Except (Fault Error) (List CatalogueVersion × Option Nat) := do
  let (versions, selected) := state
  let (id, written) ← raise .read (decodeCatalogueKey entry.1)
  if written > sequence ∨ selected = some id then return (versions, selected)
  else do
    let version ← raise persistedRead (decodeCatalogue id entry.2)
    return (versions ++ [version], some id)

/-- The metadata of all tables, dropped ones too, at the captured sequence. -/
def catalogue (files : PageFiles) (claim : Claim) : Except (Fault Error) (List CatalogueVersion) := do
  let view ← claim.pinned files
  let scan ← relay .storage (Storage.BTree.scan view.reader .catalogue (view.roots.root .catalogue)
    .unbounded .unbounded)
  let (versions, _) ← scan.forEach .storage (selectVersion claim.sequence)
    (view.reader.cellCount + 1) ([], none)
  return versions

/-! ## Scans -/

/-- A typed iterator over the rows of a table. -/
structure Scan where
  table : ReadTable
  lower : Bound Bytes
  upper : Bound Bytes
  done : Bool

/-- The canonical key of a bound. -/
def boundBytes (read : ReadTable) : Bound Value → Except (Fault Error) (Bound Bytes)
  | .unbounded => .ok .unbounded
  | .included key => do
      let key ← keyBytes read key
      return .included key
  | .excluded key => do
      let key ← keyBytes read key
      return .excluded key

/-- Check two bounds; equal ones select a key only when both are inclusive. -/
def emptyBounds : Bound Bytes → Bound Bytes → Except Error Bool
  | .unbounded, _ | _, .unbounded => .ok false
  | .included lower, .included upper => do
      refuse (lower > upper) (.invalidInput "reversed scan endpoints")
      return false
  | .included lower, .excluded upper | .excluded lower, .included upper
  | .excluded lower, .excluded upper => do
      refuse (lower > upper) (.invalidInput "reversed scan endpoints")
      return lower = upper

/-- Start a scan on a table. -/
def scanIn (read : ReadTable) (lower upper : Bound Value) : Except (Fault Error) Scan := do
  let lower ← boundBytes read lower
  let upper ← boundBytes read upper
  let done ← raise id (emptyBounds lower upper)
  return ⟨read, lower, upper, done⟩

/-- Scan keys between typed endpoints. -/
def scan (files : PageFiles) (claim : Claim) (table : Nat) (lower upper : Bound Value) :
    Except (Fault Error) Scan × Claim :=
  match claim.pinned files with
  | .error fault => (.error fault, claim)
  | .ok view =>
      match claim.read view table with
      | (.error fault, claim) => (.error fault, claim)
      | (.ok read, claim) => (scanIn read lower upper, claim)

/-- Seek the next row of a scan. -/
def nextRow (view : PageView) (sequence : Nat) (scan : Scan) :
    Except (Fault Error) (Option (Bytes × Value × Value)) := do
  let rows ← relay .storage (view.scanRows scan.table.table.id sequence scan.lower scan.upper)
  match rows.next.1 with
  | none => return none
  | some item => do
      let (key, bytes) ← relay .storage item
      let encoded ← raise (fun error => persistedRead (.storage error))
        (Storage.Encoding.decodeKey scan.table.keySchema key)
      let decoded ← raise persistedRead (Vm.decodeValue scan.table.table.key encoded)
      let value ← raise persistedRead (Vm.decodeValue scan.table.table.value bytes)
      return some (key, decoded, value)

/-- The next row of a scan, with the advanced scan. -/
def next (files : PageFiles) (claim : Claim) (scan : Scan) :
    Option (Except (Fault Error) (Value × Value)) × Scan :=
  match claim.pinned files with
  | .error fault => (some (.error fault), scan)
  | .ok view =>
      if scan.done then (none, scan)
      else
        match nextRow view claim.sequence scan with
        | .ok (some (key, decoded, value)) =>
            (some (.ok (decoded, value)), { scan with lower := .excluded key })
        | .ok none => (none, { scan with done := true })
        | .error fault => (some (.error fault), { scan with done := true })

end Snapshot

end BlopDb.Engine
