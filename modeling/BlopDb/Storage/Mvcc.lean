/-
# Versioned state

A state entry is keyed by table, escaped user key and complemented sequence, so
that the versions of one address are adjacent and newest first.  A read at a
sequence takes the first version at or after its seek key; a scan walks the
physical entries of a table and selects the first visible version of each key.
-/

import BlopDb.Storage.Encoding

namespace BlopDb.Storage.Mvcc

open BlopDb.Lib
open Encoding (escapeInto unescape maxKeyBytes maxValueBytes)

/-- The longest encoded state key. -/
def maxStateKeyBytes : Nat := 8 + 2 * maxKeyBytes + 2 + 8

/-- Reject reserved tables and sequences. -/
def checkSnapshot (tableId sequence : Nat) : Except Error Unit := do
  refuse (tableId = 0 ∨ tableId = maxU64) (.invalidInput "invalid state table ID")
  refuse (sequence = maxU64) (.invalidInput "reserved snapshot sequence")

/-- Reject user keys above their ceiling. -/
def checkUserKey (key : Bytes) : Except Error Unit :=
  refuse (key.length > maxKeyBytes) (.invalidInput "user key exceeds 1,024 bytes")

/-- A row address and version. -/
structure StateKey where
  tableId : Nat
  key : Bytes
  sequence : Nat
  deriving DecidableEq

/-- The address part of an encoded state key. -/
def addressPrefix (tableId : Nat) (key : Bytes) : Bytes := beBytes 8 tableId ++ escapeInto key

/-- The complement of an unsigned 64-bit integer. -/
def complement (number : Nat) : Nat := maxU64 - number

/-- The first possible physical key of an address at or before a sequence. -/
def seekKey (tableId : Nat) (key : Bytes) (sequence : Nat) : Bytes :=
  addressPrefix tableId key ++ beBytes 8 (complement sequence)

/-- The first physical key after every version of an address. -/
def afterKey (tableId : Nat) (key : Bytes) : Bytes := (addressPrefix tableId key).dropLast ++ [1]

namespace StateKey

/-- Validate an address and version. -/
def new (tableId : Nat) (key : Bytes) (sequence : Nat) : Except Error StateKey := do
  checkSnapshot tableId sequence
  checkUserKey key
  refuse (sequence ≤ tableId) (.invalidInput "row sequence must exceed its table ID")
  return ⟨tableId, key, sequence⟩

/-- The physical key. -/
def encode (key : StateKey) : Bytes := seekKey key.tableId key.key key.sequence

/-- Decode and validate a physical key. -/
def decode (encoded : Bytes) : Except Error StateKey := do
  refuse (¬ (18 ≤ encoded.length ∧ encoded.length ≤ maxStateKeyBytes))
    (.invalidInput "invalid state key length")
  let tableId := beNat (encoded.take 8)
  let frame := (encoded.drop 8).take (encoded.length - 16)
  let (key, consumed) ← unescape frame
  refuse (consumed ≠ frame.length) (.invalidInput "trailing state key frame bytes")
  let sequence := complement (beNat (encoded.drop (encoded.length - 8)))
  new tableId key sequence

end StateKey

/-- A stored version. -/
inductive StateValue
  | put (value : Bytes)
  | delete
  deriving DecidableEq

namespace StateValue

/-- The physical value. -/
def encode : StateValue → Except Error Bytes
  | delete => .ok [0]
  | put value => do
      refuse (value.length > maxValueBytes) (.invalidInput "state value exceeds 16 MiB")
      return 1 :: (leBytes 4 value.length ++ value)

end StateValue

/-- The payload of an encoded put, or none for a deletion. -/
def valuePayload (encoded : Bytes) : Except Error (Option Bytes) :=
  if encoded = [0] then .ok none
  else do
    refuse (encoded.length < 5 ∨ encoded.head? ≠ some 1)
      (.invalidInput "invalid state value tag or length")
    let length := leNat ((encoded.drop 1).take 4)
    refuse (length > maxValueBytes ∨ length ≠ encoded.length - 5)
      (.invalidInput "invalid state Put length")
    return some (encoded.drop 5)

/-- Decode a physical value. -/
def StateValue.decode (encoded : Bytes) : Except Error StateValue := do
  match ← valuePayload encoded with
  | some value => return .put value
  | none => return .delete

/-- Malformed stored bytes are corruption. -/
def corruptInput {α : Type} : Except Error α → Except Error α
  | .error (.invalidInput reason) => .error (.corrupt reason)
  | result => result

/-- The newest value at or before a sequence, unless it is a tombstone. -/
def get (view : View) (table : Nat) (key : Bytes) (sequence : Nat) :
    Except Error (Option Bytes) := do
  checkSnapshot table sequence
  checkUserKey key
  let lower := seekKey table key sequence
  let prefixLength := lower.length - 8
  match ← view.seek .state lower with
  | none => return none
  | some (found, encoded) =>
      if ¬ (lower.take prefixLength) <+: found then return none
      else do
        refuse (found.length ≠ lower.length)
          (.corrupt "state seeker returned an unexpected address")
        let stored := complement (beNat (found.drop prefixLength))
        refuse (stored ≤ table ∨ stored > sequence) (.corrupt "invalid state seeker sequence")
        corruptInput (valuePayload encoded)

/-- Walk physical entries, selecting the first visible version of each key.  The
walk ends at the first error. -/
def select (table sequence : Nat) : Option Bytes → List Entry → List (Except Error Entry)
  | _, [] => []
  | selected, (encodedKey, encodedValue) :: rest =>
      match corruptInput (StateKey.decode encodedKey),
          corruptInput (valuePayload encodedValue) with
      | .error error, _ => [.error error]
      | .ok _, .error error => [.error error]
      | .ok key, .ok value =>
          if key.tableId ≠ table then [.error (.corrupt "state scan crossed its table boundary")]
          else if key.sequence > sequence ∨ selected = some key.key then
            select table sequence selected rest
          else
            match value with
            | some value => .ok (key.key, value) :: select table sequence (some key.key) rest
            | none => select table sequence (some key.key) rest

/-- The first physical key of a range. -/
def lowerKey (table sequence : Nat) : Bound Bytes → Bytes
  | .unbounded => beBytes 8 table
  | .included key => seekKey table key sequence
  | .excluded key => afterKey table key

/-- The first physical key beyond a range. -/
def upperKey (table : Nat) : Bound Bytes → Bytes
  | .unbounded => beBytes 8 (table + 1)
  | .included key => afterKey table key
  | .excluded key => addressPrefix table key

/-- Scan a table at a sequence.  The result lists the items of the lazy scan. -/
def scan (view : View) (table sequence : Nat) (lower upper : Bound Bytes) :
    Except Error (List (Except Error Entry)) := do
  checkSnapshot table sequence
  checkBound checkUserKey lower
  checkBound checkUserKey upper
  let entries ← view.scan .state (.included (lowerKey table sequence lower))
    (.excluded (upperKey table upper))
  return select table sequence none entries

end BlopDb.Storage.Mvcc
