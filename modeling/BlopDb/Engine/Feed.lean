/-
# Reading feeds

A poll reads complete records after a watermark, up to the visible frontier and
the limits of the request.  Resolved feeds read outcomes by sequence from the
outcome tree.  Logical feeds walk the log segments and pair each canonical record
with its outcome.  Either kind checks every effect against its exact version.
-/

import BlopDb.Engine.Exchange
import BlopDb.Storage.Log
import BlopDb.Vm.Install

namespace BlopDb.Vm.Outcome

open BlopDb.Lib

/-- Read the outcome of a record. -/
def readOutcome (view : Storage.View) (sequence : Nat) : Except Error (Option OutcomeRecord) := do
  Database.validId sequence
  match ← (view.get .outcomes (beBytes 8 sequence)).mapError .storage with
  | none => return none
  | some bytes => do
      let record ← (decodeOutcome bytes).mapError Database.persisted
      refuse (record.sequence ≠ sequence)
        (Database.persisted (.invalid "outcome sequence differs from tree key"))
      return some record

end BlopDb.Vm.Outcome

namespace BlopDb.Engine

open BlopDb.Lib
open Exchange (Error FeedBatch LogicalRecord emptyBatchBytes maxBatchBytes encodeOutcome)
open Storage (Digest Manifest SegmentDescriptor TreeId View)
open Storage.Encoding (Schema)
open Storage.Mvcc (StateKey StateValue)
open Storage.Wal (Files Reader nextRecord)
open Vm (CatalogueVersion Effect Outcome OutcomeRecord Table)

/-- What the writer reads of its store. -/
structure Store where
  /-- The database identity in the genesis file. -/
  genesisId : Fixed 16
  manifest : Manifest
  files : Files
  view : View

/-! ## Cursors -/

/-- What a cursor protects and reads. -/
inductive CursorKind
  | resolved
  | logical
  | logReplica
  deriving DecidableEq

/-- The kind of a byte. -/
def CursorKind.decode : Nat → Except Error CursorKind
  | 1 => .ok resolved
  | 2 => .ok logical
  | 3 => .ok logReplica
  | _ => .error (.invalidFormat "invalid cursor kind")

/-- A portable reference to a local cursor registration. -/
structure CursorToken where
  databaseId : Fixed 16
  cursorNamespace : Fixed 16
  cursorId : Nat
  kind : CursorKind
  deriving DecidableEq

/-- A cursor registration. -/
structure CursorInfo where
  token : CursorToken
  baseline : Nat
  label : String

/-- A database identity and a sequence of processed source state. -/
structure Watermark where
  databaseId : Fixed 16
  sequence : Nat

/-- The limits of a poll. -/
structure BatchLimits where
  maxRecords : Nat
  maxBytes : Nat

/-- The error of a malformed registration. -/
def invalidCursor : Error := .storage (.corrupt "invalid durable cursor value")

/-- The label of a registration. -/
def cursorLabel (bytes : Bytes) : Except Error String :=
  match fromUtf8 bytes with
  | some label => .ok label
  | none => .error invalidCursor

/-- Decode a stored registration. -/
def decodeCursor (store : Store) (id : Nat) (bytes : Bytes) : Except Error CursorInfo := do
  refuse (¬ (16 ≤ bytes.length ∧ bytes.length ≤ 271) ∨ slice bytes 0 2 ≠ leBytes 2 1 ∨
      uintAt 1 bytes 3 ≠ 0) invalidCursor
  let kind ← (CursorKind.decode (uintAt 1 bytes 2)).mapError fun _ => invalidCursor
  let baseline := uintAt 8 bytes 4
  refuse (uintAt 4 bytes 12 ≠ bytes.length - 16 ∨ 0 ∈ bytes.drop 16 ∨ id = 0 ∨
      id ≥ store.manifest.nextCursorId ∨ baseline < store.manifest.historyFloor ∨
      baseline > store.manifest.durableSequence ∨
      (kind ≠ .resolved ∧ store.manifest.logFloor > baseline + 1)) invalidCursor
  let label ← cursorLabel (bytes.drop 16)
  return ⟨⟨store.genesisId, store.manifest.cursorNamespace, id, kind⟩, baseline, label⟩

/-- Find the registration of a token. -/
def lookup (store : Store) (token : CursorToken) : Except Error (Option CursorInfo) := do
  refuse (token.databaseId ≠ store.genesisId ∨
      token.cursorNamespace ≠ store.manifest.cursorNamespace)
    (.invalidToken "cursor database or namespace mismatch")
  refuse (token.cursorId = 0 ∨ token.cursorId ≥ store.manifest.nextCursorId)
    (.invalidToken "cursor ID was not issued")
  match ← (store.view.get .cursors (beBytes 8 token.cursorId)).mapError .storage with
  | none => return none
  | some bytes => do
      let info ← decodeCursor store token.cursorId bytes
      refuse (token.kind ≠ info.token.kind) (.invalidToken "cursor kind mismatch")
      return some info

/-- Check the identity of a watermark. -/
def checkWatermark (store : Store) (watermark : Watermark) : Except Error Unit :=
  refuse (watermark.databaseId ≠ store.genesisId)
    (.invalidToken "watermark database identity mismatch")

/-- A registration that is still there. -/
def registered : Option CursorInfo → Except Error CursorInfo
  | some info => .ok info
  | none => .error .cursorReleased

/-- Check a poll before it reads. -/
def admitPoll (store : Store) (token : CursorToken) (after : Watermark) (limits : BatchLimits)
    (frontier : Nat) (kinds : List CursorKind) (reason : String) : Except Error Unit := do
  let found ← lookup store token
  let info ← registered found
  refuse (token.kind ∉ kinds) (.invalidToken reason)
  checkWatermark store after
  refuse (after.sequence < info.baseline ∨ after.sequence > frontier) .historyUnavailable
  refuse (¬ (emptyBatchBytes ≤ limits.maxBytes ∧ limits.maxBytes ≤ maxBatchBytes))
    (.invalidInput "batch byte limit must be 60 through 256 MiB")

/-! ## Exact records -/

/-- Classify a failure to read what is stored. -/
def persistedRead : Vm.Error → Error
  | .invalid reason | .storage (.invalidInput reason) => .storage (.corrupt reason)
  | error => .read error

/-- History that must be there. -/
def available {α : Type} : Option α → Except Error α
  | some value => .ok value
  | none => .error .historyUnavailable

/-- The tree, key and value of an effect's exact version. -/
def exactVersion (sequence : Nat) : Effect → Except Error (TreeId × Bytes × Bytes)
  | .put table key value => do
      let address ← (StateKey.new table key sequence).mapError .storage
      let stored ← (StateValue.put value).encode.mapError .storage
      return (.state, address.encode, stored)
  | .delete table key => do
      let address ← (StateKey.new table key sequence).mapError .storage
      let stored ← StateValue.delete.encode.mapError .storage
      return (.state, address.encode, stored)
  | .catalogue table value => .ok (.catalogue, Vm.Database.catalogueKey table sequence, value)
  | .limits policy => .ok (.policy, beBytes 8 sequence, policy.encode)

/-- Check a written value. -/
def checkValue (table : Table) : Option Bytes → Except Error Unit
  | some value => do
      let _ ← (Vm.decodeValue table.value value).mapError persistedRead
      return ()
  | none => .ok ()

/-- Check a row against the types of its table. -/
def checkRow (view : View) (sequence table : Nat) (key : Bytes) (value : Option Bytes) :
    Except (Fault Error) Unit := do
  let version ← raise .read (Vm.Database.catalogueVersion view table sequence)
  let version ← raise id (available (version.filter fun version => version.live))
  let descriptor ← version.table.key.descriptorOrPanic
  let schema ← raise .storage (Schema.decode descriptor)
  let _ ← raise (fun error => persistedRead (.storage error)) (Storage.Encoding.decodeKey schema key)
  raise id (checkValue version.table value)

/-- Check an effect against its exact version. -/
def checkEffect (view : View) (sequence : Nat) (effect : Effect) : Except (Fault Error) Unit := do
  let (tree, key, expected) ← raise id (exactVersion sequence effect)
  let stored ← raise .storage (view.get tree key)
  let actual ← raise id (available stored)
  raise id (refuse (actual ≠ expected)
    (.storage (.corrupt "feed outcome differs from exact version")))
  match effect with
  | .put table key value => checkRow view sequence table key (some value)
  | .delete table key => checkRow view sequence table key none
  | .catalogue _ _ | .limits _ => .ok ()

/-- Check effects in order. -/
def checkEffects (view : View) (sequence : Nat) : List Effect → Except (Fault Error) Unit
  | [] => .ok ()
  | effect :: effects => do
      checkEffect view sequence effect
      checkEffects view sequence effects

/-- Read a record with its exact effects. -/
def readRecord (view : View) (sequence : Nat) : Except (Fault Error) OutcomeRecord := do
  let found ← raise .read (Vm.Outcome.readOutcome view sequence)
  let record ← raise id (available found)
  checkEffects view sequence (Vm.Database.finalEffects record.outcome)
  return record

/-- Missing history that a cursor protects is corruption. -/
def missing (reason : String) : Fault Error → Fault Error
  | .raised .historyUnavailable => .raised (.storage (.corrupt reason))
  | fault => fault

/-! ## Resolved feeds -/

namespace Feed

/-- Read records one by one until a limit is reached; the result is the records
and the last sequence. -/
def collect (view : View) (limits : BatchLimits) :
    (count sequence : Nat) → List OutcomeRecord → (bytes last : Nat) →
    Except (Fault Error) (List OutcomeRecord × Nat)
  | 0, _, records, _, last => .ok (records, last)
  | count + 1, sequence, records, bytes, last =>
      if records.length ≥ limits.maxRecords then .ok (records, last)
      else do
        let record ← (readRecord view sequence).mapError
          (missing "missing history protected by a registered cursor")
        let encoded ← encodeOutcome record
        let size := encoded.length + 4
        if size > limits.maxBytes - bytes then
          if records = [] then throw (.raised (.batchTooSmall (emptyBatchBytes + size)))
          else return (records, last)
        else
          collect view limits count (sequence + 1) (records ++ [record]) (bytes + size) sequence

/-- Read resolved records after a watermark. -/
def batch (store : Store) (token : CursorToken) (after : Watermark) (limits : BatchLimits)
    (frontier : Nat) : Except (Fault Error) FeedBatch := do
  raise id (admitPoll store token after limits frontier [.resolved] "resolved feed requires kind 1")
  let (records, last) ← collect store.view limits (frontier - after.sequence) (after.sequence + 1) []
    emptyBatchBytes after.sequence
  return ⟨store.genesisId, after.sequence, last, .resolved records⟩

end Feed

/-! ## Logical feeds -/

namespace Replica

/-- Why and where the walk over the log stands. -/
inductive Walk
  /-- The records so far, their size and the last sequence. -/
  | going (records : List LogicalRecord) (size last : Nat)
  /-- A limit was reached; the flag tells a byte limit. -/
  | stopped (records : List LogicalRecord) (last : Nat) (byteLimited : Bool)

/-- Corruption of what a feed reads. -/
def corrupt (reason : String) : Error := .storage (.corrupt reason)

section Checksums

variable [Crc32c] [Sha256]

/-- Read the records of one segment until a limit is reached. -/
def walkRecords (store : Store) (after : Nat) (limits : BatchLimits) (frontier : Nat) :
    (count sequence : Nat) → Reader → List LogicalRecord → (size last : Nat) →
    Except (Fault Error) Walk
  | 0, _, _, records, size, last => .ok (.going records size last)
  | count + 1, sequence, reader, records, size, last =>
      if sequence > frontier ∨ records.length = limits.maxRecords then
        .ok (.stopped records last false)
      else do
        let (record, reader) ← raise .storage (nextRecord reader)
        raise id (refuse (sequence = store.manifest.checkpointSequence ∧
            record.digest ≠ store.manifest.checkpointDigest)
          (corrupt "logical feed checkpoint anchor mismatch"))
        if sequence ≤ after then
          walkRecords store after limits frontier count (sequence + 1) reader records size last
        else do
          let outcome ← (readRecord store.view sequence).mapError
            (missing "missing cursor-protected outcome")
          raise id (refuse (outcome.recordDigest ≠ record.digest.1 ∨
              outcome.recordKind ≠ uintAt 1 record.bytes 24)
            (corrupt "logical feed outcome differs from source record"))
          let encoded ← encodeOutcome outcome
          let required := record.bytes.length + encoded.length + 8
          if required > limits.maxBytes - size then
            if records = [] then throw (.raised (.batchTooSmall (emptyBatchBytes + required)))
            else return .stopped records last true
          else
            walkRecords store after limits frontier count (sequence + 1) reader
              (records ++ [⟨record.bytes, outcome⟩]) (size + required) sequence

/-- Read segments in order until a limit is reached. -/
def walkSegments (store : Store) (after : Nat) (limits : BatchLimits) (frontier : Nat) :
    List SegmentDescriptor → List LogicalRecord → (size last : Nat) → Except (Fault Error) Walk
  | [], records, size, last => .ok (.going records size last)
  | segment :: rest, records, size, last =>
      if last = frontier ∨ records.length = limits.maxRecords then .ok (.stopped records last false)
      else if segment.firstSequence > last + 1 then
        .error (.raised (corrupt "gap in cursor-protected log"))
      else
        match store.files.find? segment.segmentId with
        | none => .error (.raised (.storage .io))
        | some file => do
            let reader ← raise .storage (Reader.suffix file store.manifest.databaseId segment
              Storage.Metadata.blockBytes segment.firstSequence segment.predecessorDigest)
            match ← walkRecords store after limits frontier
                (segment.lastSequence + 1 - segment.firstSequence) segment.firstSequence reader records
                size last with
            | .going records size last =>
                walkSegments store after limits frontier rest records size last
            | .stopped records last byteLimited => return .stopped records last byteLimited

/-- The result of a walk: the records, the last sequence and the byte flag. -/
def Walk.result : Walk → List LogicalRecord × Nat × Bool
  | going records _ last => (records, last, false)
  | stopped records last byteLimited => (records, last, byteLimited)

/-- Read log records and outcomes after a watermark. -/
def batch (store : Store) (token : CursorToken) (after : Watermark) (limits : BatchLimits)
    (frontier : Nat) : Except (Fault Error) FeedBatch := do
  raise id (admitPoll store token after limits frontier [.logical, .logReplica]
    "logical feed requires kind 2 or 3")
  let walk ← walkSegments store after.sequence limits frontier
    (store.manifest.segments.filter fun segment => decide (segment.lastSequence > after.sequence)) []
    emptyBatchBytes after.sequence
  let (records, last, byteLimited) := walk.result
  raise id (refuse (last < frontier ∧ records.length < limits.maxRecords ∧ byteLimited = false)
    (corrupt "missing cursor-protected log"))
  return ⟨store.manifest.databaseId, after.sequence, last, .logical records⟩

end Checksums

end Replica

end BlopDb.Engine
