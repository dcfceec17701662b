/-
# Recovery

A store is opened with the roots of its checkpoint.  Recovery validates the history that
these retain, checks every log record at or below the checkpoint against it, executes
the records above in order and publishes what they leave.
-/

import BlopDb.Engine.Scheduler
import BlopDb.Vm.Validate

namespace BlopDb.Engine

open BlopDb.Lib
open Storage.Metadata (blockBytes)
open Storage (Digest LimitPolicy Manifest SegmentDescriptor View)
open Storage.Wal (Files Reader Record checkAnchor nextRecord)
open Vm (CatalogueOperation Command OutcomeRecord)
open Vm.History (Versions exactOutcome validateHistory validateTransactionOutcome)

/-- A replay reports what it cannot repeat as corruption. -/
def replayError : Vm.Error → Storage.Error
  | .invalid reason => .corrupt reason
  | .unsupported format version => .unsupported format version
  | .storage (.invalidInput reason) => .corrupt reason
  | .storage error => error

/-! ## Records at or below the checkpoint -/

/-- Check a catalogue record against the history. -/
def validateCatalogueRecord (view : View) (versions : Versions) (floor sequence : Nat)
    (operation : CatalogueOperation) (stored : Option OutcomeRecord) : Except (Fault Vm.Error) Unit := do
  let expected ← Vm.Database.catalogue view sequence operation
  raise id (refuse (∃ record ∈ stored, record.outcome ≠ expected)
    (.invalid "catalogue outcome disagrees with retained log"))
  raise id (exactOutcome view versions floor sequence 2 expected)

/-- Check a limits record against the history. -/
def validateLimitsRecord (view : View) (versions : Versions) (floor sequence : Nat) (policy : LimitPolicy)
    (stored : Option OutcomeRecord) : Except (Fault Vm.Error) Unit := do
  let expected := Vm.Database.limits policy
  raise id (refuse (∃ record ∈ stored, record.outcome ≠ expected)
    (.invalid "limits outcome disagrees with retained log"))
  raise id (exactOutcome view versions floor sequence 3 expected)

section Replay

variable [Sha256]

/-- Check a log record at or below the checkpoint. -/
def validateCheckpointRecord (view : View) (versions : Versions) (floor sequence : Nat) (digest : Bytes)
    (kind : Nat) (command : Command) : Except (Fault Vm.Error) Unit := do
  let _ ← Record.prepare view sequence command
  let outcome ← raise id (Vm.Outcome.readOutcome view sequence)
  raise id (refuse ((∃ record ∈ outcome, record.recordKind ≠ kind ∨ record.recordDigest ≠ digest) ∨
      ∃ version ∈ versions.find? sequence, version.1 ≠ kind)
    (.invalid "retained history disagrees with source record kind or digest"))
  match command with
  | .transaction transaction claims _ =>
      match outcome with
      | some record => validateTransactionOutcome view sequence transaction claims record
      | none => return ()
  | .catalogue operation => validateCatalogueRecord view versions floor sequence operation outcome
  | .limits policy => validateLimitsRecord view versions floor sequence policy outcome

/-! ## Replay -/

/-- What a recovery has replayed. -/
structure Replay where
  view : View
  resolved : Nat
  /-- The digest of the last record. -/
  predecessor : Digest

/-- Check or execute one record of the log. -/
def replayRecord (manifest : Manifest) (checkpoint : View) (versions : Versions) (replay : Replay)
    (record : Record) : Except (Fault Storage.Error) Replay := do
  raise id (checkAnchor manifest record)
  let command ← relay replayError (recordCommand record)
  if record.sequence > manifest.checkpointSequence then do
    raise id (refuse (record.sequence ≠ replay.resolved + 1 ∨
        (replay.resolved = manifest.checkpointSequence ∧ replay.predecessor ≠ manifest.checkpointDigest))
      (.corrupt "noncontiguous recovery suffix"))
    let _ ← relay replayError (Record.prepare replay.view record.sequence command)
    let (_, view) ← relay replayError
      ((Record.execute manifest.checkpointSequence replay.view record.sequence record.digest.1 command).getD
        (.error .panic))
    return ⟨view, record.sequence, record.digest⟩
  else do
    relay replayError (validateCheckpointRecord checkpoint versions manifest.historyFloor record.sequence
      record.digest.1 (uintAt 1 record.bytes 24) command)
    return { replay with predecessor := record.digest }

variable [Crc32c]

/-- Replay a number of records. -/
def replayRecords (manifest : Manifest) (checkpoint : View) (versions : Versions) :
    Nat → Reader → Replay → Except (Fault Storage.Error) Replay
  | 0, _, replay => .ok replay
  | count + 1, reader, replay => do
      let (record, reader) ← raise id (nextRecord reader)
      let replay ← replayRecord manifest checkpoint versions replay record
      replayRecords manifest checkpoint versions count reader replay

/-- Replay the retained segments in order. -/
def replaySegments (files : Files) (manifest : Manifest) (checkpoint : View) (versions : Versions) :
    List SegmentDescriptor → Replay → Except (Fault Storage.Error) Replay
  | [], replay => .ok replay
  | segment :: rest, replay =>
      match files.find? segment.segmentId with
      | none => .error (.raised (.corrupt "missing bytes in authoritative log"))
      | some file => do
          let reader ← raise id (Reader.suffix file manifest.databaseId segment blockBytes segment.firstSequence
            segment.predecessorDigest)
          let replay ← replayRecords manifest checkpoint versions
            (segment.lastSequence + 1 - segment.firstSequence) reader
            { replay with predecessor := segment.predecessorDigest }
          raise id (refuse (replay.predecessor ≠ segment.lastDigest)
            (.corrupt "committed log prefix endpoint mismatch"))
          replaySegments files manifest checkpoint versions rest replay

/-- Recover a store that was opened with the roots of its checkpoint. -/
def recover (initialPolicy : LimitPolicy) (store : Store) (checkpoint : View)
    (placement : Except Storage.Error Placement) : Except (Fault Storage.Error) Store := do
  let manifest := store.manifest
  let versions ← relay replayError (validateHistory checkpoint manifest.checkpointSequence manifest.historyFloor
    manifest.checkpointDigest.1 initialPolicy)
  let replay ← replaySegments store.files manifest checkpoint versions manifest.segments
    ⟨store.view, manifest.checkpointSequence, manifest.checkpointDigest⟩
  raise id (refuse (replay.resolved ≠ manifest.durableSequence) (.corrupt "incomplete recovery suffix"))
  let store := { store with view := replay.view }
  if manifest.checkpointSequence ≠ manifest.durableSequence then do
    let manifest ← raise id (publishCheckpoint store placement)
    return { store with manifest := manifest }
  else return store

end Replay

end BlopDb.Engine
