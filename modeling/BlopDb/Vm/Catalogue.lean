/-
# Historical catalogue and policy

Catalogue versions are keyed by table and descending sequence, so the last
version at or before a sequence is the first entry at or above its seek key.
Policies are keyed by ascending sequence and start with the genesis policy.
-/

import BlopDb.Vm.Database

namespace BlopDb.Vm

open BlopDb.Lib
open Storage (View TreeId LimitPolicy maxU64)
open Storage.Encoding (Schema)

/-- A table's complete catalogue metadata at one effective sequence. -/
structure CatalogueVersion where
  /-- The table accepts reads and writes. -/
  live : Bool
  /-- The table's name. -/
  name : String
  /-- The identity and the immutable types. -/
  table : Table
  deriving DecidableEq

namespace Database

/-- Table names have 1 through 255 bytes and no zero byte. -/
def validName (name : String) : Except Error Unit :=
  refuse ((textBytes name) = [] ∨ (textBytes name).length > 255 ∨ 0 ∈ textBytes name)
    (.invalid "table name must contain 1 through 255 UTF-8 bytes without NUL")

/-- Split bytes off a catalogue value. -/
def take (input : Bytes) (length : Nat) : Except Error (Bytes × Bytes) :=
  takeBytes (.invalid "truncated catalogue value") input length

/-- Read a length-prefixed byte string. -/
def readBlob (input : Bytes) : Except Error (Bytes × Bytes) := do
  let (length, input) ← take input 4
  take input (leNat length)

/-- Append a length-prefixed byte string. -/
def blob (bytes : Bytes) : Except Error Bytes := do
  refuse (bytes.length ≥ 2 ^ 32) (.invalid "blob exceeds u32")
  return leBytes 4 bytes.length ++ bytes

/-- Decode the schema of a column; keys have a size ceiling. -/
def tableSchema (bytes : Bytes) (key : Bool) : Except Error Schema := do
  let schema ← (Schema.decode bytes).mapError inputError
  refuse (key ∧ schema.maxKeyBytes > 1024)
    (.invalid "table key schema exceeds 1,024 canonical bytes")
  return schema

/-- A descending-version seek key. -/
def catalogueKey (id sequence : Nat) : Bytes :=
  beBytes 8 id ++ beBytes 8 (Storage.Mvcc.complement sequence)

/-- Decode a stored catalogue key as a table and an effective sequence. -/
def decodeCatalogueKey (bytes : Bytes) : Except Error (Nat × Nat) := do
  refuse (bytes.length ≠ 16) (.storage (.corrupt "invalid catalogue key length"))
  let id := beNat (bytes.take 8)
  let sequence := Storage.Mvcc.complement (beNat (bytes.drop 8))
  (validId id).mapError persisted
  (validId sequence).mapError persisted
  refuse (sequence < id) (.storage (.corrupt "catalogue version predates creation"))
  return (id, sequence)

/-- The live flag of a catalogue state byte. -/
def catalogueState (byte : Bytes) : Except Error Bool :=
  if byte = [1] then .ok true
  else if byte = [2] then .ok false
  else .error (.invalid "invalid catalogue state")

/-- The text of a table name. -/
def catalogueName (bytes : Bytes) : Except Error String :=
  match fromUtf8 bytes with
  | some name => .ok name
  | none => .error (.invalid "invalid UTF-8 table name")

/-- Decode complete metadata of a table. -/
def decodeCatalogue (id : Nat) (bytes : Bytes) : Except Error CatalogueVersion := do
  validId id
  let (version, input) ← take bytes 2
  refuse (leNat version ≠ 1) (.unsupported "catalogue" (leNat version))
  let (state, input) ← take input 1
  let live ← catalogueState state
  let (reserved, input) ← take input 1
  refuse (reserved ≠ [0]) (.invalid "nonzero catalogue reserved field")
  let (name, input) ← readBlob input
  let name ← catalogueName name
  validName name
  let (keyBytes, input) ← readBlob input
  let _ ← tableSchema keyBytes true
  let key ← Ty.decode keyBytes
  let (valueBytes, input) ← readBlob input
  let _ ← tableSchema valueBytes false
  let value ← Ty.decode valueBytes
  refuse (input ≠ []) (.invalid "trailing catalogue bytes")
  return ⟨live, name, ⟨id, key, value⟩⟩

/-- The last catalogue version at or before a sequence. -/
def catalogueVersion (view : View) (id sequence : Nat) :
    Except Error (Option CatalogueVersion) := do
  validId id
  refuse (sequence = maxU64) (.invalid "reserved snapshot sequence")
  let entries ← (view.scan .catalogue (.included (catalogueKey id sequence))
    (.excluded (beBytes 8 (id + 1)))).mapError .storage
  match entries with
  | [] => return none
  | (key, value) :: _ => do
      let (foundId, foundSequence) ← decodeCatalogueKey key
      refuse (foundId ≠ id ∨ foundSequence > sequence)
        (.storage (.corrupt "unexpected catalogue seek result"))
      let version ← (decodeCatalogue id value).mapError persisted
      return some version

/-- A table that is live at a sequence. -/
def table (view : View) (id sequence : Nat) : Except Error Table := do
  match ← catalogueVersion view id sequence with
  | some version =>
      if version.live then return version.table else throw (.invalid "table is unknown or dropped")
  | none => throw (.invalid "table is unknown or dropped")

/-- The last policy of a list of entries that starts with the genesis policy. -/
def latestPolicy : List Storage.Entry → Option LimitPolicy → Except Error (Option LimitPolicy)
  | [], latest => .ok latest
  | (key, value) :: rest, latest => do
      refuse (key.length ≠ 8) (.storage (.corrupt "invalid policy key length"))
      refuse (latest.isNone ∧ key ≠ List.replicate 8 0) (.storage (.corrupt "missing genesis policy"))
      let policy ← (LimitPolicy.decode value).mapError inputError
      latestPolicy rest (some policy)

/-- The policy in force at a sequence. -/
def policy (view : View) (sequence : Nat) : Except Error LimitPolicy := do
  refuse (sequence = maxU64) (.invalid "reserved snapshot sequence")
  let entries ← (view.scan .policy .unbounded (.included (beBytes 8 sequence))).mapError .storage
  match ← latestPolicy entries none with
  | some policy => return policy
  | none => throw (.storage (.corrupt "missing genesis policy"))

end Database

end BlopDb.Vm
