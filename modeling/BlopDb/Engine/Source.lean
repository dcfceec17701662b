/-
# The store of a running engine

Durable records are installed in any order above the visible frontier, and the
frontier passes a record once it is installed.  Beside the live roots a source
names the state that the records up to the frontier leave in order, their
outcomes, and every record that was ever appended to the log.  The invariant says
that the live roots are that serial state and the records installed ahead of it.
-/

import BlopDb.Engine.Feed
import BlopDb.Storage.Content
import BlopDb.Vm.Ledger

namespace BlopDb.Engine

open BlopDb.Lib
open Storage (LimitPolicy Manifest TreeId View maxU64 sha256)
open Storage.Wal (Files Log Record appendWal planAppend readLog validateLogs Anchored Consecutive)
open Vm (Command Outcome OutcomeRecord)
open Vm.Database (catalogueKey effectEntry finalEffects)

/-! ## Sequences of entries -/

/-- The keys of a tree that belong to a sequence. -/
def Dated : TreeId → Nat → Bytes → Prop
  | .state, sequence, key =>
      ∃ table row, table < sequence ∧ key = Storage.Mvcc.seekKey table row sequence
  | .catalogue, sequence, key => ∃ id ≤ sequence, key = catalogueKey id sequence
  | .policy, sequence, key | .outcomes, sequence, key => key = beBytes 8 sequence
  | .cursors, _, _ => False

/-- A key belongs to one sequence. -/
theorem Dated.unique {tree : TreeId} {sequence sequence' : Nat} {key : Bytes}
    (small : sequence < maxU64) (small' : sequence' < maxU64) (dated : Dated tree sequence key)
    (dated' : Dated tree sequence' key) : sequence = sequence' := by
  have width : maxU64 < 256 ^ 8 := by decide
  cases tree with
  | state =>
      obtain ⟨table, row, below, rfl⟩ := dated
      obtain ⟨table', row', below', same⟩ := dated'
      exact (Storage.Mvcc.seekKey_inj (below.trans small).le (below'.trans small').le small' same).2.2
  | catalogue =>
      obtain ⟨id, below, rfl⟩ := dated
      obtain ⟨id', below', same⟩ := dated'
      exact (Vm.Database.catalogueKey_inj (by omega) (by omega) small.le small'.le same).2
  | policy | outcomes =>
      rw [Dated] at dated dated'
      exact beBytes_inj (by omega) (by omega) (dated.symm.trans dated')
  | cursors => exact dated.elim

/-- The entry of a valid effect belongs to the sequence of its record. -/
theorem dated_of_effectEntry {sequence kind : Nat} {effect : Vm.Effect} {tree : TreeId}
    {key value : Bytes} (valid : Outcome.validateEffect sequence kind effect = .ok ())
    (stored : effectEntry sequence effect = .ok (tree, key, value)) : Dated tree sequence key := by
  rcases Vm.Database.effectEntry_cases valid stored with
    ⟨-, rfl, below, rfl⟩ | ⟨-, rfl, below, -, rfl⟩ | ⟨-, rfl, -, rfl⟩
  · exact ⟨_, _, below, rfl⟩
  · exact ⟨_, below, rfl⟩
  · rfl

/-! ## Sources -/

/-- A record installed ahead of the frontier. -/
structure Installed where
  digest : Bytes
  kind : Nat
  outcome : Outcome
  bytes : Bytes

/-- The entries that an installed record writes. -/
def Installed.Writes (installed : Installed) (sequence : Nat) (tree : TreeId)
    (entry : Storage.Entry) : Prop :=
  (tree = .outcomes ∧ entry = (beBytes 8 sequence, installed.bytes)) ∨
    ∃ effect ∈ finalEffects installed.outcome, effectEntry sequence effect = .ok (tree, entry)

/-- A store with its frontier, and what led to it. -/
structure Source where
  store : Store
  /-- The last visible sequence. -/
  frontier : Nat
  /-- Every record appended so far, also those that were retired. -/
  journal : List Record
  /-- The trees after exactly the visible records. -/
  serial : View
  /-- The outcomes of the visible records. -/
  resolved : List OutcomeRecord
  /-- The records installed above the frontier. -/
  ahead : Nat → Option Installed

/-- Two views with the same logical trees. -/
def SameTrees (view view' : View) : Prop := ∀ tree, tree ≠ .cursors → view'.roots tree = view.roots tree

section Steps

variable [Crc32c] [Sha256]

/-- A record was appended at a sequence with a digest and a kind. -/
def Logged (journal : List Record) (sequence : Nat) (digest : Bytes) (kind : Nat) : Prop :=
  ∃ record ∈ journal, record.sequence = sequence ∧ record.digest.1 = digest ∧
    uintAt 1 record.bytes 24 = kind

/-- One step of the engine. -/
inductive Step : Source → Source → Prop
  /-- A group becomes durable. -/
  | append {source : Source} {rotate : Bool} {records : List (Nat × Bytes)} {log : Log}
      {digest : Storage.Digest}
      (appended : appendWal ⟨source.store.files, source.store.manifest, rotate, false⟩ records =
        (log, .ok digest)) :
      Step source { source with
        store := { source.store with files := log.files, manifest := log.manifest }
        journal := source.journal ++ records.map fun record => ⟨record.1, sha256 record.2, record.2⟩ }
  /-- A durable record is installed, with whatever outcome was computed for it. -/
  | install {source : Source} {sequence : Nat} {digest : Bytes} {kind : Nat} {outcome : Outcome}
      {bytes : Bytes} {view : View} (above : source.frontier < sequence)
      (logged : Logged source.journal sequence digest kind)
      (encoded : Vm.Outcome.encodeOutcome sequence digest kind outcome = .ok bytes)
      (installed : Vm.Database.install false source.store.manifest.checkpointSequence
        source.store.view sequence digest kind outcome = .ok view) :
      Step source { source with
        store := { source.store with view := view }
        ahead := Function.update source.ahead sequence (some ⟨digest, kind, outcome, bytes⟩) }
  /-- The frontier passes a record whose outcome is the one in order. -/
  | advance {source : Source} {installed : Installed} {command : Command} {serial : View}
      (present : source.ahead (source.frontier + 1) = some installed)
      (kinded : command.kind = installed.kind)
      (computed : command.outcome source.serial (source.frontier + 1) = some (.ok installed.outcome))
      (ordered : Vm.Database.install false source.store.manifest.checkpointSequence source.serial
        (source.frontier + 1) installed.digest installed.kind installed.outcome = .ok serial) :
      Step source { source with
        frontier := source.frontier + 1
        serial := serial
        resolved := source.resolved ++ [⟨source.frontier + 1, installed.digest, installed.kind,
          Vm.Outcome.canonical installed.outcome⟩]
        ahead := Function.update source.ahead (source.frontier + 1) none }
  /-- Cursors or a checkpoint are published. -/
  | publish {source : Source} {next : Manifest} {view : View}
      (valid : validateLogs source.store.files next = .ok ())
      (database : next.databaseId = source.store.manifest.databaseId)
      (durable : next.durableSequence = source.store.manifest.durableSequence)
      (segments : next.segments = source.store.manifest.segments)
      (history : next.historyFloor = source.store.manifest.historyFloor)
      (same : SameTrees source.store.view view) :
      Step source { source with store := { source.store with manifest := next, view := view } }
  /-- A drained store is collected, and old segments are retired. -/
  | maintain {source : Source} {next : Manifest} {floor : Nat} {view serial : View}
      {removed removed' : Nat × Nat} {files : Files} {retired : List Storage.SegmentDescriptor}
      (drained : source.frontier = source.store.manifest.durableSequence)
      (collected : Storage.Collect.collectView false source.store.manifest.historyFloor
        source.store.view floor source.frontier = .ok (view, removed))
      (ordered : Storage.Collect.collectView false source.store.manifest.historyFloor
        source.serial floor source.frontier = .ok (serial, removed'))
      (kept : ∀ segment ∈ next.segments,
        files.find? segment.segmentId = source.store.files.find? segment.segmentId)
      (valid : validateLogs files next = .ok ())
      (database : next.databaseId = source.store.manifest.databaseId)
      (durable : next.durableSequence = source.store.manifest.durableSequence)
      (segments : source.store.manifest.segments = retired ++ next.segments)
      (history : next.historyFloor = floor) :
      Step source { source with
        store := { source.store with manifest := next, files := files, view := view }
        serial := serial }

/-- The store of a new database. -/
def Source.genesis (initialPolicy : LimitPolicy) (manifest : Manifest) : Source where
  store := ⟨manifest.databaseId, manifest, ∅, Vm.genesisView initialPolicy⟩
  frontier := 0
  journal := []
  serial := Vm.genesisView initialPolicy
  resolved := []
  ahead := fun _ => none

/-- The sources that an engine can reach. -/
inductive Running (initialPolicy : LimitPolicy) : Source → Prop
  | genesis {manifest : Manifest} (valid : Storage.Metadata.validateManifest manifest = .ok ())
      (empty : manifest.segments = []) (new : manifest.durableSequence = 0) :
      Running initialPolicy (.genesis initialPolicy manifest)
  | step {source next : Source} :
      Running initialPolicy source → Step source next → Running initialPolicy next

end Steps

end BlopDb.Engine
