/-
# Administrative outcomes and installation

A catalogue record at a sequence is computed from the state before it: names are
looked up by a scan that selects the current version of each table, liveness by
a bounded seek.  Installation writes the final effects of a record of any kind
under its sequence, together with its complete outcome.
-/

import BlopDb.Storage.Apply
import BlopDb.Vm.Outcome

namespace BlopDb.Vm

open BlopDb.Lib
open Storage (View TreeId LimitPolicy Mutation maxU64)
open Storage.Mvcc (StateKey StateValue)

/-- A table creation, rename or drop request. -/
inductive CatalogueOperation
  | create (name : String) (key value : Ty)
  | rename (table : Nat) (name : String)
  | drop (table : Nat)
  deriving DecidableEq

namespace Database

mutual

/-- Bound the structure of a schema before its encoder runs: the bytes so far,
with this type added.  The source keeps the types still to visit on a stack, so
the last field is visited first. -/
def measureSchema (depth size : Nat) : Ty → Except Error Nat
  | .tuple fields => do
      refuse (depth > 16) (.invalid "schema nesting exceeds depth 16")
      refuse (fields.length > 256) (.invalid "tuple exceeds 256 fields")
      refuse (size + 3 > 65536) (.invalid "schema descriptor exceeds 65,536 bytes")
      measureSchemas (depth + 1) (size + 3) fields
  | .rows _ _ _ => do
      refuse (depth > 16) (.invalid "schema nesting exceeds depth 16")
      throw (.invalid "Rows is not a storage schema type")
  | .bytes _ | .string _ => do
      refuse (depth > 16) (.invalid "schema nesting exceeds depth 16")
      refuse (size + 5 > 65536) (.invalid "schema descriptor exceeds 65,536 bytes")
      return size + 5
  | .unit | .boolean | .i64 | .u64 => do
      refuse (depth > 16) (.invalid "schema nesting exceeds depth 16")
      refuse (size + 1 > 65536) (.invalid "schema descriptor exceeds 65,536 bytes")
      return size + 1

/-- Bound the fields of a tuple, from the last to the first. -/
def measureSchemas (depth size : Nat) : List Ty → Except Error Nat
  | [] => .ok size
  | field :: fields => do
      let size ← measureSchemas depth size fields
      measureSchema depth size field

end

/-- The descriptor of a column's type. -/
def schemaDescriptor (ty : Ty) (key : Bool) : Except (Fault Error) Bytes := do
  let _ ← raise id (measureSchema 1 2 ty)
  let descriptor ← ty.descriptorOrPanic
  let _ ← raise id (tableSchema descriptor key)
  return descriptor

/-- The state byte of a catalogue value. -/
def liveByte (live : Bool) : UInt8 := if live then 1 else 2

/-- Encode complete metadata of a table. -/
def encodeCatalogue (version : CatalogueVersion) : Except (Fault Error) Bytes := do
  raise id (validId version.table.id)
  raise id (validName version.name)
  let key ← schemaDescriptor version.table.key true
  let value ← schemaDescriptor version.table.value false
  let name ← raise id (blob (textBytes version.name))
  let key ← raise id (blob key)
  let value ← raise id (blob value)
  return [1, 0, liveByte version.live, 0] ++ name ++ key ++ value

/-- Walk catalogue entries, selecting the first version of each table at or
before a sequence, until a selected live version has the name. -/
def nameSelected (sequence : Nat) (name : String) (except : Option Nat) :
    Option Nat → List Storage.Entry → Except Error Bool
  | _, [] => .ok false
  | selected, (key, value) :: rest => do
      let (id, effective) ← decodeCatalogueKey key
      if effective > sequence ∨ selected = some id then
        nameSelected sequence name except selected rest
      else do
        let version ← (decodeCatalogue id value).mapError persisted
        if version.live ∧ version.name = name ∧ except ≠ some id then return true
        else nameSelected sequence name except (some id) rest

/-- Some live table at a sequence, other than the excepted one, has the name. -/
def nameInUse (view : View) (sequence : Nat) (name : String) (except : Option Nat) :
    Except Error Bool := do
  let entries ← (view.scan .catalogue .unbounded .unbounded).mapError .storage
  nameSelected sequence name except none entries

/-- The abort of an administrative record. -/
def administrativeAbort (reason : AbortReason) : Outcome := .aborted ⟨reason, Outcome.maxU32, 0, 0⟩

/-- Validate the syntax of a request. -/
def validateCatalogue : CatalogueOperation → Except (Fault Error) Unit
  | .create name key value => do
      raise id (validName name)
      let _ ← schemaDescriptor key true
      let _ ← schemaDescriptor value false
      return ()
  | .rename table name => do
      raise id (validId table)
      raise id (validName name)
  | .drop table => raise id (validId table)

/-- The live version of a table at a sequence. -/
def liveVersion (view : View) (table sequence : Nat) : Except Error (Option CatalogueVersion) := do
  let version ← catalogueVersion view table sequence
  return version.filter CatalogueVersion.live

/-- The success of a catalogue record with the table's new version. -/
def catalogueSuccess (version : CatalogueVersion) (resultType : Ty) (value : Value) :
    Except (Fault Error) Outcome := do
  let bytes ← encodeCatalogue version
  return .success resultType value [.catalogue version.table.id bytes]

/-- Compute a catalogue record against the state before its sequence. -/
def catalogue (view : View) (sequence : Nat) (operation : CatalogueOperation) :
    Except (Fault Error) Outcome := do
  raise id (validId sequence)
  validateCatalogue operation
  match operation with
  | .create name key value => do
      if ← raise id (nameInUse view (sequence - 1) name none) then
        return administrativeAbort .nameInUse
      else catalogueSuccess ⟨true, name, ⟨sequence, key, value⟩⟩ .u64 (.u64 (UInt64.ofNat sequence))
  | .rename table name => do
      match ← raise id (liveVersion view table (sequence - 1)) with
      | none => return administrativeAbort .tableNotLive
      | some version => do
          if ← raise id (nameInUse view (sequence - 1) name (some table)) then
            return administrativeAbort .nameInUse
          else catalogueSuccess { version with name := name } .unit .unit
  | .drop table => do
      match ← raise id (liveVersion view table (sequence - 1)) with
      | none => return administrativeAbort .tableNotLive
      | some version => catalogueSuccess { version with live := false } .unit .unit

/-- The outcome of a limits record. -/
def limits (policy : LimitPolicy) : Outcome := .success .unit .unit [.limits policy]

/-- The tree, physical key and value of an effect at its record's sequence. -/
def effectEntry (sequence : Nat) : Effect → Except Error (TreeId × Bytes × Bytes)
  | .put table key value => do
      let address ← (StateKey.new table key sequence).mapError .storage
      let stored ← (StateValue.put value).encode.mapError .storage
      return (.state, address.encode, stored)
  | .delete table key => do
      let address ← (StateKey.new table key sequence).mapError .storage
      let stored ← StateValue.delete.encode.mapError .storage
      return (.state, address.encode, stored)
  | .catalogue table value => .ok (.catalogue, catalogueKey table sequence, value)
  | .limits policy => .ok (.policy, beBytes 8 sequence, policy.encode)

/-- The edits of effects in order. -/
def effectChanges (sequence : Nat) : List Effect → Except Error (List Mutation)
  | [] => .ok []
  | effect :: effects => do
      let (tree, key, value) ← effectEntry sequence effect
      let changes ← effectChanges sequence effects
      return ⟨tree, key, some value⟩ :: changes

/-- The final effects of an outcome; an abort has none. -/
def finalEffects : Outcome → List Effect
  | .success _ _ effects => effects
  | .aborted _ => []

/-- Install the final effects of a record and its complete outcome once. -/
def install (poisoned : Bool) (checkpoint : Nat) (view : View) (sequence : Nat) (digest : Bytes)
    (kind : Nat) (outcome : Outcome) : Except (Fault Error) View := do
  raise id (validId sequence)
  raise id (refuse (¬ (1 ≤ kind ∧ kind ≤ 3)) (.invalid "invalid outcome record kind"))
  raise id (refuse (sequence ≤ checkpoint) (.invalid "sequence is already checkpointed"))
  let stored ← raise .storage (view.get .outcomes (beBytes 8 sequence))
  raise id (refuse (stored.isSome = true) (.invalid "sequence is already resolved"))
  let bytes ← Outcome.encodeOutcome sequence digest kind outcome
  let changes ← raise id (effectChanges sequence (finalEffects outcome))
  raise .storage (Storage.apply poisoned view
    (changes ++ [⟨.outcomes, beBytes 8 sequence, some bytes⟩]))

end Database

end BlopDb.Vm
