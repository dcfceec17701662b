/-
# Feed batches

A batch carries complete, consecutive records between two sequences of one
database: resolved outcomes, or log records each followed by its outcome.
Encoding checks publicly constructed values, decoding checks framing, checksums,
counts, sequences and the hash chain.
-/

import BlopDb.Engine.Envelope
import BlopDb.Lib.Wire
import BlopDb.Vm.OutcomeExact

namespace BlopDb.Engine.Exchange

open BlopDb.Lib
open Storage (Digest sha256 maxU64)
open Storage.Metadata (maxRecordLength)
open Storage.Wal (recordMagic withCrc)
open Vm (OutcomeRecord)

/-- Why a request of a database fails. -/
inductive Error
  | snapshotRevoked
  | historyUnavailable
  | cursorReleased
  | invalidToken (reason : String)
  | invalidFormat (reason : String)
  | invalidInput (reason : String)
  | batchTooSmall (required : Nat)
  | read (error : Vm.Error)
  | storage (error : Storage.Error)
  deriving DecidableEq

/-- The largest encoded batch. -/
def maxBatchBytes : Nat := 256 * 1024 * 1024

/-- The length of a batch without records. -/
def emptyBatchBytes : Nat := 60

/-- A log record and its outcome. -/
structure LogicalRecord where
  logRecord : Bytes
  outcome : OutcomeRecord
  deriving DecidableEq

/-- The records of a batch. -/
inductive FeedRecords
  | resolved (records : List OutcomeRecord)
  | logical (records : List LogicalRecord)
  deriving DecidableEq

/-- A batch of complete, consecutive source records. -/
structure FeedBatch where
  databaseId : Fixed 16
  startExclusive : Nat
  endInclusive : Nat
  records : FeedRecords
  deriving DecidableEq

/-! ## Checks -/

/-- Check the identity, the endpoints and the count of a batch. -/
def validateInterval (id : Fixed 16) (start stop count : Nat) : Except Error Unit :=
  refuse (id.1 = zeros 16 ∨ stop = maxU64 ∨ ¬ (start ≤ stop ∧ stop - start = count) ∨
      count > (maxBatchBytes - emptyBatchBytes) / 80)
    (.invalidFormat "invalid feed identity, endpoints or count")

/-- Classify the rejection of an outcome. -/
def codecError : Vm.Error → Error
  | .invalid reason => .invalidFormat reason
  | error => .read error

/-- Classify a failure of the outcome encoder. -/
def codecFault : Fault Vm.Error → Fault Error
  | .raised error => .raised (codecError error)
  | .panic => .panic

/-- Encode an outcome record. -/
def encodeOutcome (record : OutcomeRecord) : Except (Fault Error) Bytes :=
  (Vm.Outcome.encodeOutcome record.sequence record.recordDigest record.recordKind
    record.outcome).mapError codecFault

/-- Read a length-prefixed byte string. -/
def readBlob (input : Bytes) : Except Error (Bytes × Bytes) := do
  let (length, input) ← readNat (.invalidFormat "truncated blob length") 4 input
  takeBytes (.invalidFormat "truncated blob") input length

/-- Append a length-prefixed byte string to a batch that still needs its
checksum. -/
def appendBlob (output blob : Bytes) : Except Error Bytes := do
  refuse (blob.length > maxBatchBytes - 8 ∨ output.length > maxBatchBytes - 8 - blob.length)
    (.invalidFormat "feed batch exceeds 256 MiB")
  return output ++ framed blob

section Checksums

variable [Crc32c]

/-- Check the length, checksum, magic and version of exchanged bytes. -/
def checkFrame (bytes : Bytes) (least most : Nat) (magic : Bytes) : Except Error Unit := do
  refuse (¬ (least ≤ bytes.length ∧ bytes.length ≤ most)) (.invalidFormat "invalid exchange length")
  refuse (Crc32c.checksum (bytes.take (bytes.length - 4)) ≠ uintAt 4 bytes (bytes.length - 4))
    (.invalidFormat "exchange CRC mismatch")
  refuse (slice bytes 0 8 ≠ magic ∨ slice bytes 8 2 ≠ leBytes 2 1)
    (.invalidFormat "invalid exchange magic or unsupported version")

/-- The magic of a batch. -/
def batchMagic : Bytes := [0x42, 0x4c, 0x4f, 0x50, 0x46, 0x45, 0x30, 0x31]

variable [Sha256]

/-- Check a log record against its outcome and the record before it. -/
def validateLog (bytes : Bytes) (outcome : OutcomeRecord) (predecessor : Option Digest) :
    Except Error Digest := do
  refuse (¬ (72 ≤ bytes.length ∧ bytes.length ≤ maxRecordLength))
    (.invalidFormat "invalid logical record length")
  refuse (Crc32c.checksum (bytes.take (bytes.length - 8)) ≠ uintAt 4 bytes (bytes.length - 8))
    (.invalidFormat "logical record CRC mismatch")
  refuse (slice bytes 0 4 ≠ recordMagic ∨ uintAt 2 bytes 4 ≠ 64 ∨ uintAt 2 bytes 6 ≠ 1 ∨
      uintAt 4 bytes 8 ≠ bytes.length ∨ uintAt 4 bytes (bytes.length - 4) ≠ bytes.length ∨
      uintAt 4 bytes 12 ≠ bytes.length - 72 ∨ uintAt 8 bytes 16 ≠ outcome.sequence ∨
      uintAt 1 bytes 24 ≠ outcome.recordKind ∨
      ¬ (1 ≤ uintAt 1 bytes 24 ∧ uintAt 1 bytes 24 ≤ 3) ∨ slice bytes 25 3 ≠ zeros 3 ∨
      slice bytes 60 4 ≠ zeros 4 ∨
      (predecessor.any fun digest => decide (slice bytes 28 32 ≠ digest.1)) = true)
    (.invalidFormat "invalid logical envelope or hash chain")
  refuse ((sha256 bytes).1 ≠ outcome.recordDigest)
    (.invalidFormat "logical record outcome digest mismatch")
  return sha256 bytes

/-! ## Encoding -/

/-- One record of either kind: log bytes, if any, and the outcome. -/
abbrev Entry := Option Bytes × OutcomeRecord

/-- The format number of the records. -/
def FeedRecords.kind : FeedRecords → Nat
  | resolved _ => 1
  | logical _ => 2

/-- The records one by one. -/
def FeedRecords.entries : FeedRecords → List Entry
  | resolved records => records.map fun outcome => (none, outcome)
  | logical records => records.map fun record => (some record.logRecord, record.outcome)

/-- The fields before the records of a batch. -/
def header (kind length : Nat) (id : Fixed 16) (start stop count : Nat) : Bytes :=
  batchMagic ++ (leBytes 2 1 ++ (leBytes 1 kind ++ (zeros 1 ++ (leBytes 4 length ++ (id.1 ++
    (leBytes 8 start ++ (leBytes 8 stop ++ (leBytes 4 count ++ zeros 4))))))))

/-- Append the log bytes of a record that has them. -/
def appendLog (outcome : OutcomeRecord) (predecessor : Option Digest) (output : Bytes) :
    Option Bytes → Except Error (Option Digest × Bytes)
  | some log => do
      let digest ← validateLog log outcome predecessor
      let output ← appendBlob output log
      return (some digest, output)
  | none => .ok (predecessor, output)

/-- Append records from an expected sequence on. -/
def appendRecords : List Entry → (expected : Nat) → Option Digest → Bytes →
    Except (Fault Error) Bytes
  | [], _, _, output => .ok output
  | (log, outcome) :: entries, expected, predecessor, output => do
      let (predecessor, output) ← raise id (appendLog outcome predecessor output log)
      raise id (refuse (outcome.sequence ≠ expected) (.invalidFormat "nonconsecutive feed outcome"))
      let encoded ← encodeOutcome outcome
      let output ← raise id (appendBlob output encoded)
      appendRecords entries (expected + 1) predecessor output

/-- Overwrite a field. -/
def setField (bytes : Bytes) (offset : Nat) (field : Bytes) : Bytes :=
  bytes.take offset ++ (field ++ bytes.drop (offset + field.length))

/-- Encode a batch. -/
def FeedBatch.encode (batch : FeedBatch) : Except (Fault Error) Bytes := do
  let entries := batch.records.entries
  raise id (validateInterval batch.databaseId batch.startExclusive batch.endInclusive entries.length)
  let bytes ← appendRecords entries (batch.startExclusive + 1) none
    (header batch.records.kind 0 batch.databaseId batch.startExclusive batch.endInclusive
      entries.length)
  return withCrc (setField bytes 12 (leBytes 4 (bytes.length + 4)))

/-! ## Decoding -/

/-- Read the log bytes of a record of a kind. -/
def readLog (kind : Nat) (input : Bytes) : Except Error (Option Bytes × Bytes) :=
  if kind = 2 then do
    let (log, input) ← readBlob input
    return (some log, input)
  else .ok (none, input)

/-- Check the log bytes of a record that has them. -/
def checkLog (outcome : OutcomeRecord) (predecessor : Option Digest) :
    Option Bytes → Except Error (Option Digest)
  | some log => do
      let digest ← validateLog log outcome predecessor
      return some digest
  | none => .ok predecessor

/-- Read a number of records from an expected sequence on. -/
def readRecords (kind : Nat) : (count expected : Nat) → Option Digest → Bytes →
    Except Error (List Entry × Bytes)
  | 0, _, _, input => .ok ([], input)
  | count + 1, expected, predecessor, input => do
      let (log, input) ← readLog kind input
      let (encoded, input) ← readBlob input
      let outcome ← (Vm.Outcome.decodeOutcome encoded).mapError codecError
      refuse (outcome.sequence ≠ expected) (.invalidFormat "nonconsecutive feed outcome")
      let predecessor ← checkLog outcome predecessor log
      let (entries, input) ← readRecords kind count (expected + 1) predecessor input
      return ((log, outcome) :: entries, input)

/-- The records with log bytes. -/
def logicalRecords (entries : List Entry) : List LogicalRecord :=
  entries.filterMap fun entry => entry.1.map fun log => ⟨log, entry.2⟩

/-- The records of a kind. -/
def FeedRecords.ofEntries (kind : Nat) (entries : List Entry) : FeedRecords :=
  if kind = 1 then resolved (entries.map (·.2)) else logical (logicalRecords entries)

/-- Decode a batch. -/
def FeedBatch.decode (bytes : Bytes) : Except Error FeedBatch := do
  checkFrame bytes emptyBatchBytes maxBatchBytes batchMagic
  let kind := uintAt 1 bytes 10
  refuse (¬ (1 ≤ kind ∧ kind ≤ 2) ∨ uintAt 1 bytes 11 ≠ 0 ∨ slice bytes 52 4 ≠ zeros 4 ∨
      uintAt 4 bytes 12 ≠ bytes.length)
    (.invalidFormat "invalid feed header")
  let id := arrayAt 16 bytes 16
  let start := uintAt 8 bytes 32
  let stop := uintAt 8 bytes 40
  let count := uintAt 4 bytes 48
  validateInterval id start stop count
  let input := slice bytes 56 (bytes.length - 4 - 56)
  -- The smallest outcome has 76 bytes; each log record adds at least 72.
  refuse (count > input.length / (if kind = 1 then 80 else 156))
    (.invalidFormat "feed count exceeds available records")
  let (entries, input) ← readRecords kind count (start + 1) none input
  refuse (input ≠ []) (.invalidFormat "trailing feed bytes")
  return ⟨id, start, stop, .ofEntries kind entries⟩

end Checksums

end BlopDb.Engine.Exchange
