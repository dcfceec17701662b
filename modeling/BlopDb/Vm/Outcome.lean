/-
# Encoded outcomes

An outcome record carries its sequence, the digest of its log record, its kind
and either an abort or a typed value with the final effects in address order.
Both directions validate the same fields for the record kind.
-/

import BlopDb.Vm.Catalogue

namespace BlopDb.Vm

open BlopDb.Lib
open Storage (LimitPolicy)

/-- A resolved outcome identified by its log record and sequence. -/
structure OutcomeRecord where
  /-- The record's sequence. -/
  sequence : Nat
  /-- The digest of the complete log record. -/
  recordDigest : Bytes
  /-- One for transactions, two for catalogue records, three for limits. -/
  recordKind : Nat
  /-- The result. -/
  outcome : Outcome
  deriving DecidableEq

/-- The permanent number of a reason. -/
def AbortReason.number : AbortReason → Nat
  | missingKey => 1
  | keyExists => 2
  | requireFailed => 3
  | explicitAbort => 4
  | integerOverflow => 5
  | boundExceeded => 6
  | resourceLimit => 7
  | divisionByZero => 8
  | invalidShift => 9
  | indexOutOfBounds => 10
  | invalidUtf8 => 11
  | nameInUse => 16
  | tableNotLive => 17

namespace Outcome

/-- The largest encoded outcome. -/
def maxOutcomeBytes : Nat := 128 * 1024 * 1024

/-- The largest value of an unsigned 32-bit integer. -/
def maxU32 : Nat := 2 ^ 32 - 1

/-- Split bytes off an outcome. -/
def take (input : Bytes) (length : Nat) : Except Error (Bytes × Bytes) :=
  takeBytes (.invalid "truncated outcome") input length

/-- Read a little-endian unsigned integer of the given width. -/
def readUint (width : Nat) (input : Bytes) : Except Error (Nat × Bytes) := do
  let (bytes, input) ← take input width
  return (leNat bytes, input)

/-- Read a length-prefixed byte string. -/
def readBlob (input : Bytes) : Except Error (Bytes × Bytes) := do
  let (length, input) ← readUint 4 input
  take input length

/-- A length-prefixed byte string. -/
def blob (bytes : Bytes) : Except Error Bytes := do
  refuse (bytes.length ≥ 2 ^ 32) (.invalid "outcome blob exceeds u32")
  return leBytes 4 bytes.length ++ bytes

/-- The address that orders effects. -/
def effectAddress : Effect → Address
  | .put table key _ | .delete table key => ⟨table, key⟩
  | .catalogue table _ => ⟨table, []⟩
  | .limits _ => ⟨0, []⟩

/-- The reason of a permanent number. -/
def abortReason : Nat → Except Error AbortReason
  | 1 => .ok .missingKey
  | 2 => .ok .keyExists
  | 3 => .ok .requireFailed
  | 4 => .ok .explicitAbort
  | 5 => .ok .integerOverflow
  | 6 => .ok .boundExceeded
  | 7 => .ok .resourceLimit
  | 8 => .ok .divisionByZero
  | 9 => .ok .invalidShift
  | 10 => .ok .indexOutOfBounds
  | 11 => .ok .invalidUtf8
  | 16 => .ok .nameInUse
  | 17 => .ok .tableNotLive
  | _ => .error (.invalid "unknown outcome abort reason")

/-- The reason and instruction are possible for the record kind. -/
def legalKind (kind : Nat) (abort : Abort) : Bool :=
  match kind with
  | 1 => 1 ≤ abort.reason.number && abort.reason.number ≤ 11 && abort.instruction < 65535
  | 2 => 16 ≤ abort.reason.number && abort.reason.number ≤ 17 && abort.instruction = maxU32
  | _ => false

/-- Check the fields of an abort for a record kind. -/
def validateAbort (kind : Nat) (abort : Abort) : Except Error Unit :=
  let reason := abort.reason.number
  refuse (legalKind kind abort = false ∨
      (¬ (reason = 3 ∨ reason = 4) ∧ abort.userCode ≠ 0) ∨
      (reason = 7 ∧ ¬ (1 ≤ abort.detail ∧ abort.detail ≤ 17)) ∨
      (reason ≠ 7 ∧ abort.detail ≠ 0))
    (.invalid "invalid abort fields for record kind")

/-- Check a state address of a transaction's effect. -/
def validateAddress (sequence table : Nat) (key : Bytes) : Except Error Unit := do
  let _ ← (Storage.Mvcc.StateKey.new table key sequence).mapError Database.inputError
  return ()

/-- Check an effect for a record kind. -/
def validateEffect (sequence kind : Nat) : Effect → Except Error Unit
  | .put table key value =>
      if kind = 1 then do
        validateAddress sequence table key
        refuse (value.length > 16 * 1024 * 1024) (.invalid "outcome Put exceeds 16 MiB")
      else .error (.invalid "effect does not match record kind")
  | .delete table key =>
      if kind = 1 then validateAddress sequence table key
      else .error (.invalid "effect does not match record kind")
  | .catalogue table value =>
      if kind = 2 then do
        let version ← Database.decodeCatalogue table value
        refuse (table > sequence ∨ (table = sequence ∧ version.live = false))
          (.invalid "invalid catalogue effect creation sequence")
      else .error (.invalid "effect does not match record kind")
  | .limits _ =>
      if kind = 3 then .ok () else .error (.invalid "effect does not match record kind")

/-- The overlay charge of an effect. -/
def overlayBytes : Effect → Nat
  | .put _ key value => 9 + key.length + value.length
  | .delete _ key => 9 + key.length
  | _ => 0

/-- Check effects in order. -/
def validateEffects (sequence kind : Nat) : List Effect → Except Error Unit
  | [] => .ok ()
  | effect :: effects => do
      validateEffect sequence kind effect
      validateEffects sequence kind effects

/-- The returned value an administrative record must have. -/
def expectedReturn (sequence kind : Nat) (effects : List Effect) : Option (Ty × Value) :=
  match kind, effects.head? with
  | 2, some (.catalogue table _) =>
      if table = sequence then some (.u64, .u64 (UInt64.ofNat sequence)) else some (.unit, .unit)
  | 2, _ | 3, _ => some (.unit, .unit)
  | _, _ => none

/-- Check a successful outcome for a record kind. -/
def validateSuccess (sequence kind : Nat) (ty : Ty) (value : Value) (effects : List Effect) :
    Except Error Unit := do
  refuse (effects.length > 65535 ∨ (kind ≠ 1 ∧ effects.length ≠ 1))
    (.invalid "invalid outcome effect count")
  refuse ((expectedReturn sequence kind effects).any fun expected =>
      decide (ty ≠ expected.1 ∨ value ≠ expected.2))
    (.invalid "invalid administrative return value")
  validateEffects sequence kind effects
  refuse ((effects.map overlayBytes).sum > 64 * 1024 * 1024)
    (.invalid "outcome overlay exceeds 64 MiB")

/-! ## Decoding -/

/-- Read one effect for a record kind. -/
def readEffect (sequence kind : Nat) (input : Bytes) : Except Error (Effect × Bytes) := do
  let (tag, input) ← readUint 1 input
  match kind, tag with
  | 1, 1 => do
      let (table, input) ← readUint 8 input
      Database.validId table
      let (key, input) ← readBlob input
      refuse (table ≥ sequence ∨ key.length > 1024) (.invalid "invalid outcome state address")
      let (value, input) ← readBlob input
      refuse (value.length > 16 * 1024 * 1024) (.invalid "outcome Put exceeds 16 MiB")
      return (.put table key value, input)
  | 1, 2 => do
      let (table, input) ← readUint 8 input
      Database.validId table
      let (key, input) ← readBlob input
      refuse (table ≥ sequence ∨ key.length > 1024) (.invalid "invalid outcome state address")
      return (.delete table key, input)
  | 2, 3 => do
      let (table, input) ← readUint 8 input
      let (value, input) ← readBlob input
      let _ ← Database.decodeCatalogue table value
      return (.catalogue table value, input)
  | 3, 4 => do
      let (bytes, input) ← readBlob input
      let policy ← (LimitPolicy.decode bytes).mapError Database.inputError
      return (.limits policy, input)
  | _, _ => throw (.invalid "effect does not match record kind")

/-- Read a count of effects with strictly increasing addresses. -/
def readEffects (sequence kind : Nat) :
    Nat → Option Address → Bytes → Except Error (List Effect × Bytes)
  | 0, _, input => .ok ([], input)
  | count + 1, previous, input => do
      let (effect, input) ← readEffect sequence kind input
      refuse (previous.any fun previous => decide (previous ≥ effectAddress effect))
        (.invalid "outcome effects are not strictly ordered")
      let (effects, input) ← readEffects sequence kind count (some (effectAddress effect)) input
      return (effect :: effects, input)

/-- Decode exactly one outcome. -/
def decodeOutcome (bytes : Bytes) : Except Error OutcomeRecord := do
  refuse (bytes.length > maxOutcomeBytes) (.invalid "outcome exceeds 128 MiB")
  let (version, input) ← readUint 2 bytes
  refuse (version ≠ 1) (.unsupported "outcome" version)
  let (kind, input) ← readUint 1 input
  refuse (¬ (1 ≤ kind ∧ kind ≤ 3)) (.invalid "invalid outcome record kind")
  let (status, input) ← readUint 1 input
  let (sequence, input) ← readUint 8 input
  Database.validId sequence
  let (digest, input) ← take input 32
  let (reason, input) ← readUint 2 input
  let (reserved, input) ← readUint 2 input
  refuse (reserved ≠ 0) (.invalid "nonzero outcome reserved field")
  let (instruction, input) ← readUint 4 input
  let (userCode, input) ← readUint 4 input
  let (reserved, input) ← readUint 4 input
  refuse (reserved ≠ 0) (.invalid "nonzero outcome reserved field")
  let (detail, input) ← readUint 8 input
  let (returned, input) ← readBlob input
  let (count, input) ← readUint 4 input
  match status with
  | 0 => do
      refuse (reason ≠ 0 ∨ instruction ≠ maxU32 ∨ userCode ≠ 0 ∨ detail ≠ 0)
        (.invalid "invalid success outcome fields")
      refuse (count > 65535 ∨ count > input.length / 13 ∨ (kind ≠ 1 ∧ count ≠ 1))
        (.invalid "invalid outcome effect count")
      let (descriptor, returned) ← readBlob returned
      let resultType ← Ty.decode descriptor
      let (encoded, returned) ← readBlob returned
      let value ← decodeValue resultType encoded
      refuse (returned ≠ []) (.invalid "trailing outcome TypedValue bytes")
      let (effects, input) ← readEffects sequence kind count none input
      validateSuccess sequence kind resultType value effects
      refuse (input ≠ []) (.invalid "trailing outcome bytes")
      return ⟨sequence, digest, kind, .success resultType value effects⟩
  | 1 => do
      refuse (returned ≠ [] ∨ count ≠ 0) (.invalid "aborted outcome has return bytes or effects")
      let reason ← abortReason reason
      let abort : Abort := ⟨reason, instruction, userCode, detail⟩
      validateAbort kind abort
      refuse (input ≠ []) (.invalid "trailing outcome bytes")
      return ⟨sequence, digest, kind, .aborted abort⟩
  | _ => throw (.invalid "invalid outcome status")

/-! ## Encoding -/

mutual

/-- Bound the structure of a type before its encoder runs: the bytes so far, with
this type added.  The source keeps the types still to visit on a stack, so the
last field is visited first. -/
def measureType (depth : Nat) (size : Nat) : Ty → Except Error Nat
  | .tuple fields => do
      refuse (depth > 16) (.invalid "type nesting exceeds depth 16")
      refuse (fields.length > 256) (.invalid "tuple exceeds 256 fields")
      refuse (size + 3 > 65536) (.invalid "type descriptor exceeds 65,536 bytes")
      measureTypes (depth + 1) (size + 3) fields
  | .rows _ key value => do
      refuse (depth > 16) (.invalid "type nesting exceeds depth 16")
      refuse (size + 5 > 65536) (.invalid "type descriptor exceeds 65,536 bytes")
      let size ← measureType (depth + 1) (size + 5) value
      measureType (depth + 1) size key
  | .bytes _ | .string _ => do
      refuse (depth > 16) (.invalid "type nesting exceeds depth 16")
      refuse (size + 5 > 65536) (.invalid "type descriptor exceeds 65,536 bytes")
      return size + 5
  | .unit | .boolean | .i64 | .u64 => do
      refuse (depth > 16) (.invalid "type nesting exceeds depth 16")
      refuse (size + 1 > 65536) (.invalid "type descriptor exceeds 65,536 bytes")
      return size + 1

/-- Bound the fields of a tuple, from the last to the first. -/
def measureTypes (depth : Nat) (size : Nat) : List Ty → Except Error Nat
  | [] => .ok size
  | field :: fields => do
      let size ← measureTypes depth size fields
      measureType depth size field

end

/-- The descriptor of a result type. -/
def descriptor (ty : Ty) : Except (Fault Error) Bytes := do
  let _ ← raise id (measureType 1 2 ty)
  let bytes ← ty.descriptorOrPanic
  let _ ← raise id (Ty.decode bytes)
  return bytes

/-- The bytes of one effect. -/
def encodeEffect : Effect → Except Error Bytes
  | .put table key value => do
      let key ← blob key
      let value ← blob value
      return 1 :: (leBytes 8 table ++ key ++ value)
  | .delete table key => do
      let key ← blob key
      return 2 :: (leBytes 8 table ++ key)
  | .catalogue table value => do
      let value ← blob value
      return 3 :: (leBytes 8 table ++ value)
  | .limits policy => do
      let value ← blob policy.encode
      return 4 :: value

/-- The bytes of effects in order. -/
def encodeEffects : List Effect → Except Error Bytes
  | [] => .ok []
  | effect :: effects => do
      let bytes ← encodeEffect effect
      let rest ← encodeEffects effects
      return bytes ++ rest

/-- Two neighbouring effects have the same address. -/
def duplicateAddress : List Effect → Bool
  | first :: second :: rest =>
      effectAddress first = effectAddress second || duplicateAddress (second :: rest)
  | _ => false

/-- Effects in address order. -/
def sortEffects (effects : List Effect) : List Effect :=
  effects.mergeSort fun a b => effectAddress a ≤ effectAddress b

/-- The bytes after the digest. -/
def encodeBody (sequence kind : Nat) : Outcome → Except (Fault Error) Bytes
  | .aborted abort => do
      raise id (validateAbort kind abort)
      return leBytes 2 abort.reason.number ++ leBytes 2 0 ++ leBytes 4 abort.instruction ++
        leBytes 4 abort.userCode ++ leBytes 4 0 ++ leBytes 8 abort.detail ++ leBytes 8 0
  | .success resultType value effects => do
      let descriptor ← descriptor resultType
      raise id (refuse (resultType.accepts value = false)
        (.invalid "outcome value does not match result type"))
      raise id (validateSuccess sequence kind resultType value effects)
      let descriptor ← raise id (blob descriptor)
      let encoded ← value.encodeOrPanic
      let encoded ← raise id (blob encoded)
      let returned ← raise id (blob (descriptor ++ encoded))
      let effects := sortEffects effects
      raise id (refuse (duplicateAddress effects) (.invalid "duplicate final effect address"))
      let encodedEffects ← raise id (encodeEffects effects)
      return leBytes 4 0 ++ leBytes 4 maxU32 ++ leBytes 16 0 ++ returned ++
        leBytes 4 effects.length ++ encodedEffects

/-- The status byte of an outcome. -/
def status : Outcome → UInt8
  | .success _ _ _ => 0
  | .aborted _ => 1

/-- Encode a validated outcome with effects in address order. -/
def encodeOutcome (sequence : Nat) (digest : Bytes) (kind : Nat) (outcome : Outcome) :
    Except (Fault Error) Bytes := do
  raise id (Database.validId sequence)
  raise id (refuse (¬ (1 ≤ kind ∧ kind ≤ 3)) (.invalid "invalid outcome record kind"))
  let body ← encodeBody sequence kind outcome
  let bytes := [1, 0, UInt8.ofNat kind, status outcome] ++ leBytes 8 sequence ++ digest ++ body
  raise id (refuse (bytes.length > maxOutcomeBytes) (.invalid "outcome exceeds 128 MiB"))
  return bytes

end Outcome

end BlopDb.Vm
