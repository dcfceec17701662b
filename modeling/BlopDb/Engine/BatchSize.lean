/-
# The size of a batch

A poll counts the bytes of each record before it takes it.  For consecutive
records whose logs form a chain that count is what the encoder writes, so a batch
within the limit of its poll encodes, and to exactly the counted length.
-/

import BlopDb.Engine.ExchangeCodec

namespace BlopDb.Engine.Exchange

open BlopDb.Lib
open Storage (Digest sha256 maxU64)
open Storage.Wal (withCrc)
open Vm (OutcomeRecord)

/-! ## Counted bytes -/

/-- The bytes of an encoded outcome behind its length. -/
def outcomeBytes (record : OutcomeRecord) : Nat :=
  match encodeOutcome record with
  | .ok bytes => bytes.length + 4
  | .error _ => 0

/-- The bytes of a log record behind its length. -/
def logBytes : Option Bytes → Nat
  | none => 0
  | some log => log.length + 4

/-- The bytes of a record in a batch. -/
def entryBytes (entry : Entry) : Nat := logBytes entry.1 + outcomeBytes entry.2

theorem outcomeBytes_eq {record : OutcomeRecord} {bytes : Bytes}
    (encoded : encodeOutcome record = .ok bytes) : outcomeBytes record = bytes.length + 4 := by
  rw [outcomeBytes, encoded]

/-- An encoded outcome is not longer than an outcome may be. -/
theorem length_encodeOutcome_le {record : OutcomeRecord} {bytes : Bytes}
    (encoded : encodeOutcome record = .ok bytes) : bytes.length ≤ Vm.Outcome.maxOutcomeBytes := by
  have written := encodeOutcome_eq_ok.mp encoded
  simp only [Vm.Outcome.encodeOutcome, bind_eq_ok, raise_eq_ok, refuse_eq_ok, exists_const,
    pure_eq_ok, Except.ok.injEq] at written
  obtain ⟨-, -, -, body, -, short, rfl⟩ := written
  exact not_lt.mp short

section Checksums

variable [Crc32c] [Sha256]

/-- Records from a sequence on that the encoder takes. -/
def Encodable : Option Digest → Nat → List Entry → Prop
  | _, _, [] => True
  | predecessor, sequence, (log, outcome) :: entries =>
      outcome.sequence = sequence ∧ (∃ bytes, encodeOutcome outcome = .ok bytes) ∧
        ∃ predecessor', checkLog outcome predecessor log = .ok predecessor' ∧
          Encodable predecessor' (sequence + 1) entries

theorem Encodable.take {predecessor : Option Digest} {sequence : Nat} {entries : List Entry}
    (encodable : Encodable predecessor sequence entries) (count : Nat) :
    Encodable predecessor sequence (entries.take count) := by
  induction entries generalizing predecessor sequence count with
  | nil =>
      rw [List.take_nil]
      trivial
  | cons entry entries ih =>
      cases count with
      | zero => trivial
      | succ count =>
          obtain ⟨numbered, encodes, predecessor', checked, more⟩ := encodable
          exact ⟨numbered, encodes, predecessor', checked, ih more count⟩

/-- Log bytes that fit are appended behind their length. -/
theorem appendLog_complete {outcome : OutcomeRecord} {predecessor predecessor' : Option Digest}
    {log : Option Bytes} (output : Bytes) (checked : checkLog outcome predecessor log = .ok predecessor')
    (room : output.length + logBytes log + 4 ≤ maxBatchBytes) :
    ∃ part, appendLog outcome predecessor output log = .ok (predecessor', output ++ part) ∧
      part.length = logBytes log := by
  cases log with
  | none =>
      obtain rfl := Except.ok.inj checked
      exact ⟨[], by rw [List.append_nil]; rfl, rfl⟩
  | some log =>
      simp only [checkLog, bind_eq_ok, pure_eq_ok, Except.ok.injEq] at checked
      obtain ⟨digest, valid, rfl⟩ := checked
      rw [logBytes] at room
      have fits : appendBlob output log = .ok (output ++ framed log) :=
        appendBlob_eq_ok.mpr ⟨by omega, rfl⟩
      refine ⟨framed log, ?_, by rw [length_framed, logBytes, Nat.add_comm]⟩
      rw [appendLog, valid, ok_bind, fits]
      rfl

/-- Records that fit are appended, and take the counted bytes. -/
theorem appendRecords_complete {predecessor : Option Digest} {sequence : Nat} {entries : List Entry}
    (encodable : Encodable predecessor sequence entries) (output : Bytes)
    (room : output.length + (entries.map entryBytes).sum + 4 ≤ maxBatchBytes) :
    ∃ body, appendRecords entries sequence predecessor output = .ok (output ++ body) ∧
      body.length = (entries.map entryBytes).sum := by
  induction entries generalizing predecessor sequence output with
  | nil => exact ⟨[], by rw [List.append_nil]; rfl, rfl⟩
  | cons entry entries ih =>
      obtain ⟨log, outcome⟩ := entry
      obtain ⟨numbered, ⟨bytes, encoded⟩, predecessor', checked, more⟩ := encodable
      simp only [List.map_cons, List.sum_cons, entryBytes, outcomeBytes_eq encoded] at room
      obtain ⟨part, appended, length⟩ := appendLog_complete output checked (by omega)
      have fits : appendBlob (output ++ part) bytes = .ok (output ++ part ++ framed bytes) :=
        appendBlob_eq_ok.mpr ⟨by rw [List.length_append]; omega, rfl⟩
      obtain ⟨body, rest, total⟩ := ih more (output ++ part ++ framed bytes)
        (by simp only [List.length_append, length_framed]; omega)
      refine ⟨part ++ framed bytes ++ body, ?_, ?_⟩
      · rw [appendRecords, appended]
        simp only [raise_ok, ok_bind, numbered, ne_eq, not_true_eq_false, refuse_false, encoded, fits]
        rw [rest]
        simp only [List.append_assoc]
      · simp only [List.length_append, length_framed, List.map_cons, List.sum_cons, entryBytes,
          outcomeBytes_eq encoded, total, length]
        omega

/-- The length of an encoded record, at least. -/
theorem entryBytes_ge {predecessor : Option Digest} {sequence : Nat} {entries : List Entry}
    (encodable : Encodable predecessor sequence entries)
    (digests : ∀ entry ∈ entries, entry.2.recordDigest.length = 32) :
    80 * entries.length ≤ (entries.map entryBytes).sum := by
  induction entries generalizing predecessor sequence with
  | nil => simp
  | cons entry entries ih =>
      obtain ⟨-, ⟨bytes, encoded⟩, predecessor', -, more⟩ := encodable
      have long := (length_encodeOutcome (digests entry List.mem_cons_self) encoded).1
      have rest := ih more fun entry member => digests entry (List.mem_cons_of_mem _ member)
      simp only [List.map_cons, List.sum_cons, entryBytes, outcomeBytes_eq encoded, List.length_cons]
      omega

/-- A record alone fits into a batch. -/
theorem entryBytes_le {predecessor : Option Digest} {sequence : Nat} {entries : List Entry}
    (encodable : Encodable predecessor sequence entries) {entry : Entry} (member : entry ∈ entries) :
    0 < entryBytes entry ∧ emptyBatchBytes + entryBytes entry ≤ maxBatchBytes := by
  induction entries generalizing predecessor sequence with
  | nil => cases member
  | cons first entries ih =>
      obtain ⟨log, outcome⟩ := first
      obtain ⟨-, ⟨bytes, encoded⟩, predecessor', checked, more⟩ := encodable
      rcases List.mem_cons.mp member with rfl | member
      · have short := length_encodeOutcome_le encoded
        have logged : logBytes log ≤ Storage.Metadata.maxRecordLength + 4 := by
          cases log with
          | none => exact Nat.zero_le _
          | some log =>
              obtain ⟨digest, valid, -⟩ := bind_eq_ok.mp checked
              obtain ⟨before, body, -, rfl, -, -, fits, -⟩ := validateLog_eq_ok.mp valid
              rw [logBytes, length_frame]
              omega
        simp only [entryBytes, outcomeBytes_eq encoded, emptyBatchBytes, maxBatchBytes,
          Storage.Metadata.maxRecordLength, Vm.Outcome.maxOutcomeBytes] at short logged ⊢
        omega
      · exact ih more member

/-- A batch of consecutive records within the limit encodes to the counted
length. -/
theorem encode_complete {batch : FeedBatch} (named : batch.databaseId.1 ≠ zeros 16)
    (ends : batch.endInclusive = batch.startExclusive + batch.records.entries.length)
    (small : batch.endInclusive < maxU64)
    (encodable : Encodable none (batch.startExclusive + 1) batch.records.entries)
    (digests : ∀ entry ∈ batch.records.entries, entry.2.recordDigest.length = 32)
    (room : emptyBatchBytes + (batch.records.entries.map entryBytes).sum ≤ maxBatchBytes) :
    ∃ bytes, batch.encode = .ok bytes ∧
      bytes.length = emptyBatchBytes + (batch.records.entries.map entryBytes).sum := by
  have least := entryBytes_ge encodable digests
  simp only [emptyBatchBytes] at room ⊢
  obtain ⟨body, appended, length⟩ := appendRecords_complete encodable
    (header batch.records.kind 0 batch.databaseId batch.startExclusive batch.endInclusive
      batch.records.entries.length) (by rw [length_header]; omega)
  have counted : batch.records.entries.length ≤ (maxBatchBytes - emptyBatchBytes) / 80 := by
    simp only [emptyBatchBytes]
    omega
  refine ⟨_, encode_eq_ok.mpr
    ⟨validateInterval_eq_ok.mpr ⟨named, small.ne, ends, counted⟩, _, appended, rfl⟩, ?_⟩
  rw [setField_header, withCrc]
  simp only [List.length_append, length_header, length_leBytes, length]
  omega

end Checksums

end BlopDb.Engine.Exchange
