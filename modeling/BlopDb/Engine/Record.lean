/-
# Canonical record bodies

The writer and recovery share one codec for the three kinds of records.
Preparation checks a command against the catalogue and policy before its
sequence and derives the manifest of a transaction that supplies none.  Decoding
checks the body format only and keeps declarations as they were recorded.
-/

import BlopDb.Engine.Envelope
import BlopDb.Vm.ManifestCodec
import BlopDb.Vm.OutcomeExact
import BlopDb.Vm.Records
import BlopDb.Vm.SchemaAgreement

namespace BlopDb.Engine.Record

open BlopDb.Lib
open Vm (AccessManifest CatalogueOperation Command Error Transaction Ty)
open Storage (LimitPolicy View maxU64)

/-! ## Preparation -/

/-- Check the count of a supplied manifest. -/
def checkSupplied (claims : LimitPolicy) : Option AccessManifest → Except Error Unit
  | some manifest => manifest.checkCount (claims.value 6)
  | none => .ok ()

/-- Check a command and complete its manifest. -/
def prepare [Sha256] (view : View) (sequence : Nat) (command : Command) :
    Except (Fault Error) Command := do
  raise id (refuse (sequence = 0 ∨ sequence = maxU64) (.invalid "reserved record sequence"))
  match command with
  | .transaction transaction claims manifest => do
      raise id (checkSupplied claims manifest)
      let prepared ← Vm.prepareTransaction view sequence transaction claims manifest
      return .transaction transaction claims (some prepared.manifest)
  | .catalogue operation => do
      Vm.Database.validateCatalogue operation
      return .catalogue operation
  | .limits policy => return .limits policy

/-! ## Encoding -/

/-- Append a length-prefixed byte string. -/
def blob (bytes : Bytes) : Except Error Bytes := frameBytes (.invalid "blob exceeds u32") bytes

/-- The manifest that a transaction is recorded with. -/
def requireManifest : Option AccessManifest → Except Error AccessManifest
  | some manifest => .ok manifest
  | none => .error (.invalid "transaction needs manifest preparation")

/-- The bytes of a catalogue operation. -/
def encodeOperation : CatalogueOperation → Except (Fault Error) Bytes
  | .create name key value => do
      let name ← raise id (blob (textBytes name))
      let key ← key.descriptorOrPanic
      let key ← raise id (blob key)
      let value ← value.descriptorOrPanic
      let value ← raise id (blob value)
      return leBytes 1 1 ++ leBytes 1 0 ++ name ++ key ++ value
  | .rename table name => do
      let name ← raise id (blob (textBytes name))
      return leBytes 1 2 ++ leBytes 1 0 ++ leBytes 8 table ++ name
  | .drop table => return leBytes 1 3 ++ leBytes 1 0 ++ leBytes 8 table

/-- The kind and the body of a record. -/
def encode : Command → Except (Fault Error) (Nat × Bytes)
  | .transaction transaction claims manifest => do
      let manifest ← raise id (requireManifest manifest)
      raise id (manifest.checkCount (claims.value 6))
      let manifest ← raise id manifest.encode
      let program ← raise id (blob transaction.programBytes)
      let arguments ← raise id (blob transaction.argumentBytes)
      let manifest ← raise id (blob manifest)
      return (1, leBytes 2 1 ++ leBytes 2 0 ++ program ++ arguments ++ manifest ++
        claims.values.flatMap (leBytes 8))
  | .catalogue operation => do
      Vm.Database.validateCatalogue operation
      let operation ← encodeOperation operation
      return (2, leBytes 2 1 ++ operation)
  | .limits policy => return (3, policy.encode)

/-! ## Decoding -/

/-- The error of a field that the body does not hold. -/
def truncated : Error := .invalid "truncated record body"

/-- Read a table name. -/
def readName (input : Bytes) : Except Error (String × Bytes) := do
  let (bytes, input) ← readFramed truncated input
  refuse (bytes = [] ∨ bytes.length > 255 ∨ 0 ∈ bytes) (.invalid "invalid table name")
  let name ← Vm.orInvalid "invalid UTF-8 table name" (fromUtf8 bytes)
  return (name, input)

/-- Classify the rejection of a budget. -/
def budgetError : Storage.Error → Error
  | .invalidInput reason => .invalid reason
  | error => .storage error

/-- Read seventeen limits. -/
def readBudget (input : Bytes) : Except Error (LimitPolicy × Bytes) := do
  let (values, input) ← readNats truncated 8 17 input
  let policy ← (LimitPolicy.new values.1 values.2).mapError budgetError
  return (policy, input)

/-- Read the type of a column. -/
def readType (input : Bytes) : Except Error (Ty × Bytes) := do
  let (descriptor, input) ← readFramed truncated input
  let ty ← Ty.decode descriptor
  return (ty, input)

/-- The format name of a record kind. -/
def format : Nat → Except Error String
  | 1 => .ok "transaction"
  | 2 => .ok "administrative"
  | 3 => .ok "limit policy"
  | _ => .error (.invalid "unknown record kind")

/-- Read a transaction behind the version. -/
def readTransaction (input : Bytes) : Except Error (Command × Bytes) := do
  let (reserved, input) ← readNat truncated 2 input
  refuse (reserved ≠ 0) (.invalid "nonzero transaction reserved field")
  let (program, input) ← readFramed truncated input
  let (arguments, input) ← readFramed truncated input
  let (manifest, input) ← readFramed truncated input
  let (claims, input) ← readBudget input
  refuse (program.length > claims.value 0 ∨ arguments.length > claims.value 4)
    (.invalid "transaction bytes exceed claims")
  let manifest ← AccessManifest.decode manifest
  manifest.checkCount (claims.value 6)
  return (.transaction ⟨program, arguments⟩ claims (some manifest), input)

/-- Read a catalogue operation behind its number. -/
def readOperation (operation : Nat) (input : Bytes) : Except Error (CatalogueOperation × Bytes) :=
  match operation with
  | 1 => do
      let (name, input) ← readName input
      let (key, input) ← readType input
      let (value, input) ← readType input
      return (.create name key value, input)
  | 2 => do
      let (table, input) ← readNat truncated 8 input
      let (name, input) ← readName input
      return (.rename table name, input)
  | 3 => do
      let (table, input) ← readNat truncated 8 input
      return (.drop table, input)
  | _ => .error (.invalid "unknown catalogue operation")

/-- Read a catalogue record behind the version. -/
def readCatalogue (input : Bytes) : Except (Fault Error) (Command × Bytes) := do
  let (operation, input) ← raise id (readNat truncated 1 input)
  let (reserved, input) ← raise id (readNat truncated 1 input)
  raise id (refuse (reserved ≠ 0) (.invalid "nonzero administrative reserved field"))
  let (operation, input) ← raise id (readOperation operation input)
  Vm.Database.validateCatalogue operation
  return (.catalogue operation, input)

/-- Read new limits behind the version. -/
def readLimits (input : Bytes) : Except Error (Command × Bytes) := do
  let (reserved, input) ← readNat truncated 2 input
  refuse (reserved ≠ 0) (.invalid "nonzero limit policy reserved field")
  let (policy, input) ← readBudget input
  return (.limits policy, input)

/-- Read the fields of a record of a kind. -/
def readBody (kind : Nat) (input : Bytes) : Except (Fault Error) (Command × Bytes) :=
  match kind with
  | 1 => raise id (readTransaction input)
  | 2 => readCatalogue input
  | 3 => raise id (readLimits input)
  | _ => .error .panic

/-- Decode the body of a record. -/
def decode (kind : Nat) (body : Bytes) : Except (Fault Error) Command := do
  let format ← raise id (format kind)
  raise id (refuse (body.length > 64 * 1024 * 1024 - 72) (.invalid "log record exceeds 64 MiB"))
  let (version, input) ← raise id (readNat truncated 2 body)
  raise id (refuse (version ≠ 1) (.unsupported format version))
  let (command, input) ← readBody kind input
  raise id (refuse (input ≠ []) (.invalid "trailing record body bytes"))
  return command

end BlopDb.Engine.Record
