/-
# Validation of logical history

A checkpoint's trees are validated without replaying the records behind them:
the catalogue by replaying its versions in sequence order, state versions
against the lifetime and types of their table, and every retained outcome
against the versions at its sequence.
-/

import Mathlib.Data.String.Basic
import BlopDb.Vm.History
import BlopDb.Vm.Install

namespace BlopDb.Vm.History

open BlopDb.Lib
open Storage (View LimitPolicy TreeId maxU64)
open Storage.Encoding (Schema)
open Storage.Mvcc (StateKey StateValue)

/-- The kind and the number of retained versions at each sequence. -/
abbrev Versions := OrdMap Nat (Nat × Nat)

/-- A table's replayed catalogue history. -/
structure TableHistory where
  /-- The last version. -/
  latest : CatalogueVersion
  /-- The schema of keys. -/
  key : Schema
  /-- The schema of values. -/
  value : Schema
  /-- The sequence of the drop. -/
  dropped : Option Nat

/-- Count a retained version at its sequence. -/
def version (versions : Versions) (sequence kind checkpoint : Nat) : Except Error Versions := do
  Database.validId sequence
  refuse (sequence > checkpoint) (.invalid "checkpoint contains a post-checkpoint version")
  let (previousKind, count) := (versions.find? sequence).getD (kind, 0)
  refuse (previousKind ≠ kind ∨ (kind ≠ 1 ∧ count ≠ 0))
    (.invalid "incompatible versions at one record sequence")
  refuse (count + 1 ≥ 2 ^ 64) (.invalid "too many retained versions")
  return versions.insert sequence (previousKind, count + 1)

/-- The sequence in a key of the policy or outcome tree. -/
def systemSequence (key : Bytes) (checkpoint : Nat) (genesis : Bool) : Except Error Nat := do
  refuse (key.length ≠ 8) (.invalid "invalid system key length")
  let sequence := beNat key
  refuse (sequence = maxU64 ∨ sequence > checkpoint ∨ (genesis = false ∧ sequence = 0))
    (.invalid "invalid checkpoint system sequence")
  return sequence

/-! ## The catalogue -/

/-- The catalogue versions by sequence. -/
def catalogueEvents (checkpoint : Nat) : List Storage.Entry → Versions →
    OrdMap Nat CatalogueVersion → Except Error (Versions × OrdMap Nat CatalogueVersion)
  | [], versions, events => .ok (versions, events)
  | (key, value) :: rest, versions, events => do
      let (id, sequence) ← Database.decodeCatalogueKey key
      let metadata ← Database.decodeCatalogue id value
      let versions ← version versions sequence 2 checkpoint
      catalogueEvents checkpoint rest versions (events.insert sequence metadata)

/-- The schema of a type. -/
def schemaOf (ty : Ty) : Except (Fault Error) Schema := do
  let descriptor ← ty.descriptorOrPanic
  raise .storage (Schema.decode descriptor)

/-- A later version cannot follow the previous one of its table. -/
def illegalSuccessor (previous metadata : CatalogueVersion) : Bool :=
  !previous.live || decide (previous.table ≠ metadata.table) ||
    (!metadata.live && decide (previous.name ≠ metadata.name))

/-- The replayed tables and the names of the live ones. -/
structure Replay where
  tables : OrdMap Nat TableHistory
  names : OrdMap String Nat

/-- Replay one catalogue version. -/
def replayEvent (sequence : Nat) (metadata : CatalogueVersion) (replay : Replay) :
    Except (Fault Error) Replay := do
  let table := metadata.table.id
  let replay ← match replay.tables.find? table with
    | some previous => do
        raise id (refuse (illegalSuccessor previous.latest metadata = true)
          (.invalid "invalid catalogue lifecycle or changed immutable schema"))
        let dropped := if metadata.live then previous.dropped else some sequence
        pure ⟨replay.tables.insert table { previous with latest := metadata, dropped := dropped },
          replay.names.erase previous.latest.name⟩
    | none => do
        raise id (refuse (sequence ≠ table ∨ metadata.live = false)
          (.invalid "missing live catalogue creation version"))
        let key ← schemaOf metadata.table.key
        let value ← schemaOf metadata.table.value
        pure ⟨replay.tables.insert table ⟨metadata, key, value, none⟩, replay.names⟩
  if metadata.live then do
    raise id (refuse ((replay.names.find? metadata.name).isSome = true)
      (.invalid "duplicate live catalogue name"))
    return { replay with names := replay.names.insert metadata.name table }
  else return replay

/-- Replay catalogue versions in sequence order. -/
def replayEvents : List (Nat × CatalogueVersion) → Replay → Except (Fault Error) Replay
  | [], replay => .ok replay
  | (sequence, metadata) :: rest, replay => do
      let replay ← replayEvent sequence metadata replay
      replayEvents rest replay

/-- Replay the catalogue and count its versions. -/
def catalogueHistory (view : View) (checkpoint : Nat) (versions : Versions) :
    Except (Fault Error) (Versions × OrdMap Nat TableHistory) := do
  let entries ← raise .storage (view.scan .catalogue .unbounded .unbounded)
  let (versions, events) ← raise id (catalogueEvents checkpoint entries versions ∅)
  let replay ← replayEvents events.entries ⟨∅, ∅⟩
  return (versions, replay.tables)

/-! ## Policies, state and outcomes -/

/-- The policies by sequence. -/
def policyHistory (checkpoint : Nat) : List Storage.Entry → Versions → OrdMap Nat LimitPolicy →
    Except Error (Versions × OrdMap Nat LimitPolicy)
  | [], versions, policies => .ok (versions, policies)
  | (key, value) :: rest, versions, policies => do
      let sequence ← systemSequence key checkpoint true
      let policy ← (LimitPolicy.decode value).mapError .storage
      let versions ← if sequence ≠ 0 then version versions sequence 3 checkpoint else pure versions
      policyHistory checkpoint rest versions (policies.insert sequence policy)

/-- The table of an address that is written at a sequence. -/
def liveTable (tables : OrdMap Nat TableHistory) (id sequence : Nat) :
    Except Error TableHistory := do
  match tables.find? id with
  | none => throw (.invalid "state references an unknown table")
  | some table => do
      refuse (sequence ≤ id ∨ table.dropped.any fun drop => decide (sequence ≥ drop))
        (.invalid "state version was written outside table lifetime")
      return table

/-- Check a key and the value of a put against the schemas of their table. -/
def checkRow (table : TableHistory) (key : Bytes) (value : Option Bytes) : Except Error Unit := do
  let _ ← (Storage.Encoding.decodeKey table.key key).mapError .storage
  match value with
  | some value => (Storage.Encoding.validateValue table.value value).mapError .storage
  | none => return ()

/-- The bytes of a stored put. -/
def putValue : StateValue → Option Bytes
  | .put value => some value
  | .delete => none

/-- Count and check the state versions. -/
def stateHistory (checkpoint : Nat) (tables : OrdMap Nat TableHistory) :
    List Storage.Entry → Versions → Except Error Versions
  | [], versions => .ok versions
  | (key, value) :: rest, versions => do
      let key ← (StateKey.decode key).mapError .storage
      let value ← (StateValue.decode value).mapError .storage
      let versions ← version versions key.sequence 1 checkpoint
      let table ← liveTable tables key.tableId key.sequence
      checkRow table key.key (putValue value)
      stateHistory checkpoint tables rest versions

/-- The exact version of an effect is retained; a state version at or below the
floor may be missing. -/
def exactEffect (view : View) (sequence : Nat) (effect : Effect) (floor : Nat) :
    Except Error Bool := do
  let (tree, key, value) ← Database.effectEntry sequence effect
  let stored ← (view.get tree key).mapError .storage
  if stored = none ∧ tree = .state ∧ sequence ≤ floor then return false
  else do
    refuse (stored ≠ some value) (.invalid "outcome effect differs from exact retained version")
    return true

/-- The number of effects whose exact version is retained. -/
def matchedEffects (view : View) (sequence floor : Nat) : List Effect → Except Error Nat
  | [] => .ok 0
  | effect :: effects => do
      let found ← exactEffect view sequence effect floor
      let matched ← matchedEffects view sequence floor effects
      return found.toNat + matched

/-- An outcome describes exactly the retained versions at its sequence. -/
def exactOutcome (view : View) (versions : Versions) (floor sequence kind : Nat)
    (outcome : Outcome) : Except Error Unit := do
  let effects := Database.finalEffects outcome
  let (versionKind, count) := (versions.find? sequence).getD (kind, 0)
  refuse (versionKind ≠ kind ∨ count > effects.length)
    (.invalid "outcome does not describe every retained version at its sequence")
  let matched ← matchedEffects view sequence floor effects
  refuse (matched ≠ count) (.invalid "outcome omits a retained version")

/-- The key and the written bytes of an effect. -/
def effectRow : Effect → Bytes × Option Bytes
  | .put _ key value => (key, some value)
  | effect => ((Outcome.effectAddress effect).key, none)

/-- Check the effects of a transaction against its tables. -/
def checkEffects (tables : OrdMap Nat TableHistory) (sequence : Nat) :
    List Effect → Except Error Unit
  | [] => .ok ()
  | effect :: effects => do
      let table ← liveTable tables (Outcome.effectAddress effect).table sequence
      checkRow table (effectRow effect).1 (effectRow effect).2
      checkEffects tables sequence effects

/-- The last policy before a sequence. -/
def policyBefore (policies : OrdMap Nat LimitPolicy) (sequence : Nat) :
    Except (Fault Error) LimitPolicy :=
  match (policies.range .unbounded (.excluded sequence)).getLast? with
  | some (_, policy) => .ok policy
  | none => .error .panic

/-- Check one retained outcome; the result is the next required sequence. -/
def checkOutcome (view : View) (checkpoint floor : Nat) (checkpointDigest : Bytes)
    (tables : OrdMap Nat TableHistory) (policies : OrdMap Nat LimitPolicy) (versions : Versions)
    (next : Nat) (entry : Storage.Entry) : Except (Fault Error) Nat := do
  let sequence ← raise id (systemSequence entry.1 checkpoint false)
  let record ← raise id (Outcome.decodeOutcome entry.2)
  raise id (refuse (record.sequence ≠ sequence) (.invalid "outcome sequence differs from tree key"))
  raise id (refuse (sequence = checkpoint ∧ record.recordDigest ≠ checkpointDigest)
    (.invalid "outcome checkpoint digest mismatch"))
  raise id (refuse (sequence > floor ∧ sequence ≠ next) (.invalid "missing retained outcome"))
  let next := if sequence > floor then next + 1 else next
  if record.recordKind = 1 then do
    let policy ← policyBefore policies sequence
    raise id (transactionLimits record.outcome policy)
    raise id (checkEffects tables sequence (Database.finalEffects record.outcome))
  raise id (exactOutcome view versions floor sequence record.recordKind record.outcome)
  return next

/-- Check the retained outcomes in sequence order. -/
def checkOutcomes (view : View) (checkpoint floor : Nat) (checkpointDigest : Bytes)
    (tables : OrdMap Nat TableHistory) (policies : OrdMap Nat LimitPolicy) (versions : Versions) :
    Nat → List Storage.Entry → Except (Fault Error) Nat
  | next, [] => .ok next
  | next, entry :: rest => do
      let next ← checkOutcome view checkpoint floor checkpointDigest tables policies versions next entry
      checkOutcomes view checkpoint floor checkpointDigest tables policies versions next rest

/-- Validate retained history; the result counts the versions. -/
def validate (view : View) (checkpoint floor : Nat) (checkpointDigest : Bytes)
    (initialPolicy : LimitPolicy) : Except (Fault Error) Versions := do
  raise id (refuse (floor > checkpoint ∨ checkpoint = maxU64)
    (.invalid "invalid logical checkpoint bounds"))
  let (versions, tables) ← catalogueHistory view checkpoint ∅
  let entries ← raise .storage (view.scan .policy .unbounded .unbounded)
  let (versions, policies) ← raise id (policyHistory checkpoint entries versions ∅)
  raise id (refuse (policies.find? 0 ≠ some initialPolicy)
    (.invalid "initial policy differs from genesis"))
  let entries ← raise .storage (view.scan .state .unbounded .unbounded)
  let versions ← raise id (stateHistory checkpoint tables entries versions)
  let entries ← raise .storage (view.scan .outcomes .unbounded .unbounded)
  let next ← checkOutcomes view checkpoint floor checkpointDigest tables policies versions
    (floor + 1) entries
  raise id (refuse (next ≠ checkpoint + 1) (.invalid "missing retained outcome"))
  return versions

/-- Report a malformed history as corruption. -/
def validateHistory (view : View) (checkpoint floor : Nat) (checkpointDigest : Bytes)
    (initialPolicy : LimitPolicy) : Except (Fault Error) Versions :=
  match validate view checkpoint floor checkpointDigest initialPolicy with
  | .error (.raised error) => .error (.raised (Database.persisted error))
  | result => result

end BlopDb.Vm.History
