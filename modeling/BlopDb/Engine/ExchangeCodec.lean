/-
# Batches round trip

A batch that encodes decodes to itself with the effects of each outcome in
address order, and bytes that decode are the encoding of what they decode to.
The records inside a decoded logical batch form one hash chain.
-/

import BlopDb.Engine.Exchange

namespace BlopDb.Engine.Exchange

open BlopDb.Lib
open Storage (Digest sha256 maxU64)
open Storage.Metadata (maxRecordLength)
open Storage.Wal (recordMagic withCrc uintAt_of_slice length_val)
open Vm (OutcomeRecord)

/-! ## Blobs -/

theorem readBlob_eq_ok {input bytes rest : Bytes} :
    readBlob input = .ok (bytes, rest) ↔ input = framed bytes ++ rest ∧ bytes.length < 2 ^ 32 := by
  simp only [readBlob, bind_eq_ok, Prod.exists, readNat_eq_ok, takeBytes_eq_ok]
  constructor
  · rintro ⟨length, after, ⟨rfl, small⟩, rfl, rfl⟩
    exact ⟨by simp [framed], by omega⟩
  · rintro ⟨rfl, small⟩
    exact ⟨bytes.length, bytes ++ rest, ⟨by simp [framed], by omega⟩, rfl, rfl⟩

/-- A blob is appended while it leaves room for the checksum. -/
theorem appendBlob_eq_ok {output blob result : Bytes} :
    appendBlob output blob = .ok result ↔
      output.length + (4 + blob.length) + 4 ≤ maxBatchBytes ∧ result = output ++ framed blob := by
  simp only [appendBlob, bind_eq_ok, refuse_eq_ok, exists_const, pure_eq_ok, Except.ok.injEq,
    @eq_comm _ _ result]
  refine and_congr_left fun _ => ?_
  simp only [maxBatchBytes]
  omega

section Outcomes

/-- The integers and arrays of an outcome record have their fixed widths. -/
structure Representable (record : OutcomeRecord) : Prop where
  sequence : record.sequence < 2 ^ 64
  digest : record.recordDigest.length = 32
  outcome : Vm.Outcome.Representable record.outcome

/-- An outcome record with its effects in address order. -/
def canonical (record : OutcomeRecord) : OutcomeRecord :=
  { record with outcome := Vm.Outcome.canonical record.outcome }

theorem encodeOutcome_eq_ok {record : OutcomeRecord} {bytes : Bytes} :
    encodeOutcome record = .ok bytes ↔
      Vm.Outcome.encodeOutcome record.sequence record.recordDigest record.recordKind
        record.outcome = .ok bytes := mapError_eq_ok

theorem length_encodeBody {sequence kind : Nat} {outcome : Vm.Outcome} {body : Bytes}
    (encoded : Vm.Outcome.encodeBody sequence kind outcome = .ok body) : 32 ≤ body.length := by
  cases outcome with
  | aborted abort =>
      simp only [Vm.Outcome.encodeBody, bind_eq_ok, pure_eq_ok, Except.ok.injEq] at encoded
      obtain ⟨-, -, rfl⟩ := encoded
      simp
  | success ty value effects =>
      simp only [Vm.Outcome.encodeBody, bind_eq_ok, pure_eq_ok, Except.ok.injEq,
        raise_eq_ok, Vm.Outcome.blob] at encoded
      obtain ⟨_, -, -, -, -, -, _, -, _, -, _, -, returned, ⟨-, -, rfl⟩, -, -, _, -, rfl⟩ := encoded
      simp only [List.length_append, length_leBytes]
      omega

/-- An encoded outcome is neither shorter nor longer than a batch expects. -/
theorem length_encodeOutcome {record : OutcomeRecord} {bytes : Bytes}
    (digest : record.recordDigest.length = 32) (encoded : encodeOutcome record = .ok bytes) :
    76 ≤ bytes.length ∧ bytes.length < 2 ^ 32 := by
  have written := encodeOutcome_eq_ok.mp encoded
  simp only [Vm.Outcome.encodeOutcome, bind_eq_ok, raise_eq_ok, refuse_eq_ok, exists_const,
    pure_eq_ok, Except.ok.injEq] at written
  obtain ⟨-, -, -, body, inner, short, rfl⟩ := written
  have := length_encodeBody inner
  simp only [List.length_append, length_leBytes, List.length_cons, List.length_nil, digest,
    Vm.Outcome.maxOutcomeBytes] at short ⊢
  omega

theorem decodeOutcome_of_encodeOutcome {record : OutcomeRecord} {bytes : Bytes}
    (represented : Representable record) (encoded : encodeOutcome record = .ok bytes) :
    Vm.Outcome.decodeOutcome bytes = .ok (canonical record) :=
  Vm.Outcome.decodeOutcome_encodeOutcome represented.sequence represented.digest represented.outcome
    (encodeOutcome_eq_ok.mp encoded)

end Outcomes

/-! ## Log records -/

section Logs

variable [Crc32c]

/-- The fields of a framed record, behind its header. -/
theorem slice_frame {sequence kind : Nat} {predecessor : Digest} {body : Bytes} {offset width : Nat}
    (inside : offset + width ≤ 64) :
    slice (frame sequence predecessor kind body) offset width =
      slice (recordHeader sequence predecessor kind body.length) offset width := by
  rw [frame, List.append_assoc, slice_append_left _ (by rw [length_recordHeader]; exact inside)]

/-- The checksum and the repeated length at the end of a framed record. -/
theorem trailer_frame (sequence kind : Nat) (predecessor : Digest) (body : Bytes) :
    (frame sequence predecessor kind body).take (body.length + 64) =
        recordHeader sequence predecessor kind body.length ++ body ∧
      slice (frame sequence predecessor kind body) (body.length + 64) 4 =
        leBytes 4 (Crc32c.checksum (recordHeader sequence predecessor kind body.length ++ body)) ∧
      slice (frame sequence predecessor kind body) (body.length + 68) 4 =
        leBytes 4 (body.length + recordOverhead) := by
  have length : (recordHeader sequence predecessor kind body.length ++ body).length =
      body.length + 64 := by
    rw [List.length_append, length_recordHeader, Nat.add_comm]
  refine ⟨?_, ?_, ?_⟩
  · rw [frame, ← length, List.take_left]
  · rw [frame, slice_append_right _ _ length.le, length, Nat.sub_self,
      slice_zero_append _ (length_leBytes _ _)]
  · rw [frame, slice_append_right _ _ (by omega), length, slice_append_right _ _ (by simp),
      length_leBytes, show body.length + 68 - (body.length + 64) - 4 = 0 by omega,
      slice_self (length_leBytes _ _)]

omit [Crc32c] in
/-- Bytes that end with a checksum and a length. -/
theorem eq_trailer {bytes : Bytes} {length : Nat} (exact : bytes.length = length + 72) :
    bytes = slice bytes 0 64 ++ slice bytes 64 length ++
      (slice bytes (length + 64) 4 ++ slice bytes (length + 68) 4) := by
  have start : bytes = bytes.drop 0 := rfl
  have done : bytes.drop (length + 72) = [] := List.drop_of_length_le exact.le
  nth_rewrite 1 [start]
  rw [drop_eq_slice_append bytes 0 64, drop_eq_slice_append bytes (0 + 64) length,
    drop_eq_slice_append bytes (0 + 64 + length) 4, drop_eq_slice_append bytes (0 + 64 + length + 4) 4,
    show 0 + 64 + length + 4 + 4 = length + 72 by omega, done, List.append_nil, Nat.zero_add,
    Nat.add_comm 64 length, List.append_assoc]

variable [Sha256]

/-- A log record is accepted exactly when it is a framed record with the
sequence, kind and digest of its outcome, behind the given record. -/
theorem validateLog_eq_ok {bytes : Bytes} {outcome : OutcomeRecord} {predecessor : Option Digest}
    {digest : Digest} :
    validateLog bytes outcome predecessor = .ok digest ↔
      ∃ before body, (∀ given ∈ predecessor, given = before) ∧
        bytes = frame outcome.sequence before outcome.recordKind body ∧
        outcome.sequence < 2 ^ 64 ∧ (1 ≤ outcome.recordKind ∧ outcome.recordKind ≤ 3) ∧
        body.length + recordOverhead ≤ maxRecordLength ∧
        outcome.recordDigest = (sha256 bytes).1 ∧ digest = sha256 bytes := by
  simp only [validateLog, bind_eq_ok, refuse_eq_ok, exists_const, pure_eq_ok, Except.ok.injEq,
    not_or, not_not]
  constructor
  · rintro ⟨⟨least, most⟩, checked, ⟨magic, size, version, total, repeated, length, numbered, kinded,
      known, flags, reserved, chained⟩, digested, rfl⟩
    obtain ⟨count, exact⟩ : ∃ count, bytes.length = count + 72 := ⟨bytes.length - 72, by omega⟩
    have within {offset width : Nat} (inside : offset + width ≤ 64) :
        slice (slice bytes 0 64) offset width = slice bytes offset width := slice_take inside
    have field {offset width : Nat} (inside : offset + width ≤ 64) :
        uintAt width (slice bytes 0 64) offset = uintAt width bytes offset :=
      congrArg leNat (within inside)
    have headed : slice bytes 0 64 =
        recordHeader outcome.sequence (arrayAt 32 bytes 28) outcome.recordKind count := by
      refine eq_recordHeader (by rw [length_slice]; omega) ?_ ?_ ?_ ?_ ?_ ?_ ?_ ?_ ?_ ?_
      · rw [within (by norm_num), magic]
      · rw [field (by norm_num), size]
      · rw [field (by norm_num), version]
      · rw [field (by norm_num), total, exact, recordOverhead]
      · rw [field (by norm_num), length, exact, Nat.add_sub_cancel]
      · rw [field (by norm_num), numbered]
      · rw [field (by norm_num), kinded]
      · rw [within (by norm_num), flags]
      · rw [within (by norm_num), arrayAt_val (by omega)]
      · rw [within (by norm_num), reserved]
    have sized : (slice bytes 64 count).length = count := by
      rw [length_slice]
      omega
    have taken : bytes.take (count + 64) = slice bytes 0 64 ++ slice bytes 64 count := by
      rw [slice, slice, List.drop_zero, Nat.add_comm, List.take_add]
    refine ⟨arrayAt 32 bytes 28, slice bytes 64 count, ?_, ?_, ?_, ?_, ?_, digested.symm, rfl⟩
    · intro given isGiven
      obtain rfl := Option.mem_def.mp isGiven
      have same : slice bytes 28 32 = given.1 := by simpa using chained
      exact (arrayAt_eq same).symm
    · rw [show bytes.length - 8 = count + 64 by omega, taken] at checked
      rw [show bytes.length - 4 = count + 68 by omega, exact] at repeated
      rw [frame, sized, ← headed, checked, recordOverhead, ← repeated,
        ← slice_eq_leBytes (by omega), ← slice_eq_leBytes (by omega)]
      exact eq_trailer exact
    · rw [← numbered]
      exact uintAt_lt 8 bytes 16
    · rw [← kinded]
      exact known
    · rw [sized, recordOverhead]
      omega
  · rintro ⟨before, body, chained, rfl, numbered, kinded, short, digested, rfl⟩
    simp only [recordOverhead, maxRecordLength] at short
    have total := length_frame outcome.sequence before outcome.recordKind body
    obtain ⟨taken, checksum, repeated⟩ :=
      trailer_frame outcome.sequence outcome.recordKind before body
    obtain ⟨magic, size, version, whole, length, number, kind, flags, linked, reserved⟩ :=
      recordHeader_slices outcome.sequence before outcome.recordKind body.length
    rw [← slice_frame (by norm_num)] at magic size version whole length number kind flags linked reserved
    rw [recordOverhead] at total
    have isKind := uintAt_of_slice kind (by omega)
    refine ⟨⟨by omega, by simp only [maxRecordLength]; omega⟩, ?_, ⟨magic, ?_, ?_, ?_, ?_, ?_, ?_, isKind,
      ?_, flags, reserved, ?_⟩, digested.symm, rfl⟩
    · rw [total, show body.length + 72 - 8 = body.length + 64 by omega, taken,
        uintAt_of_slice checksum (Crc32c.checksum_lt _)]
    · exact uintAt_of_slice size (by norm_num)
    · exact uintAt_of_slice version (by norm_num)
    · rw [uintAt_of_slice whole (by simp only [recordOverhead]; omega), total, recordOverhead]
    · rw [total, show body.length + 72 - 4 = body.length + 68 by omega,
        uintAt_of_slice repeated (by simp only [recordOverhead]; omega), recordOverhead]
    · rw [uintAt_of_slice length (by omega), total, Nat.add_sub_cancel]
    · exact uintAt_of_slice number (by omega)
    · rw [isKind]
      exact kinded
    · cases predecessor with
      | none => simp
      | some given =>
          have same := chained given rfl
          simp [linked, same]

/-! ## Records -/

/-- The records are of a kind: exactly those of kind two have log bytes. -/
def Kinded (kind : Nat) (entries : List Entry) : Prop :=
  ∀ entry ∈ entries, entry.1.isSome = decide (kind = 2)

/-- A record with its effects in address order. -/
def canonicalEntry (entry : Entry) : Entry := (entry.1, canonical entry.2)

/-- The least length of a record of a kind. -/
def minimum (kind : Nat) : Nat := if kind = 1 then 80 else 156

/-- Appended log bytes read back, and leave room for the checksum. -/
theorem appendLog_sound {outcome : OutcomeRecord} {predecessor predecessor' : Option Digest}
    {log : Option Bytes} {output output' : Bytes} {kind : Nat} (kinded : log.isSome = decide (kind = 2))
    (room : output.length + 4 ≤ maxBatchBytes)
    (appended : appendLog outcome predecessor output log = .ok (predecessor', output')) :
    ∃ part, output' = output ++ part ∧ output'.length + 4 ≤ maxBatchBytes ∧
      checkLog outcome predecessor log = .ok predecessor' ∧
      (if kind = 2 then 76 else 0) ≤ part.length ∧
      ∀ rest, readLog kind (part ++ rest) = .ok (log, rest) := by
  cases log with
  | none =>
      obtain ⟨rfl, rfl⟩ := Prod.mk.inj (Except.ok.inj appended)
      have other : kind ≠ 2 := by simpa using kinded
      exact ⟨[], (List.append_nil _).symm, room, rfl, by simp [other], fun rest => if_neg other⟩
  | some log =>
      have isLogical : kind = 2 := by simpa using kinded
      simp only [appendLog, bind_eq_ok, appendBlob_eq_ok, pure_eq_ok, Except.ok.injEq,
        Prod.mk.injEq] at appended
      obtain ⟨digest, valid, _, ⟨fits, rfl⟩, rfl, rfl⟩ := appended
      obtain ⟨before, body, -, framedLog, -, -, short, -, -⟩ := validateLog_eq_ok.mp valid
      have long : 72 ≤ log.length := by
        rw [framedLog, length_frame, recordOverhead]
        omega
      simp only [maxBatchBytes] at fits
      refine ⟨framed log, rfl, ?_, ?_, ?_, fun rest => ?_⟩
      · rw [List.length_append, length_framed]
        exact fits
      · rw [checkLog, valid]
        rfl
      · rw [if_pos isLogical, length_framed]
        omega
      · rw [readLog, if_pos isLogical, readBlob_eq_ok.mpr ⟨rfl, by omega⟩]
        rfl

/-- Appended records read back with their effects in order. -/
theorem appendRecords_sound {entries : List Entry} {expected kind : Nat}
    {predecessor : Option Digest} {output result : Bytes} (known : kind = 1 ∨ kind = 2)
    (represented : ∀ entry ∈ entries, Representable entry.2) (kinded : Kinded kind entries)
    (room : output.length + 4 ≤ maxBatchBytes)
    (appended : appendRecords entries expected predecessor output = .ok result) :
    ∃ body, result = output ++ body ∧ result.length + 4 ≤ maxBatchBytes ∧
      entries.length * minimum kind ≤ body.length ∧
      ∀ rest, readRecords kind entries.length expected predecessor (body ++ rest) =
        .ok (entries.map canonicalEntry, rest) := by
  induction entries generalizing expected predecessor output with
  | nil =>
      obtain rfl := Except.ok.inj appended
      exact ⟨[], (List.append_nil _).symm, room, by simp, fun rest => rfl⟩
  | cons entry entries ih =>
      obtain ⟨log, outcome⟩ := entry
      simp only [appendRecords, bind_eq_ok, raise_eq_ok, refuse_eq_ok, Prod.exists, exists_const,
        not_not, appendBlob_eq_ok] at appended
      obtain ⟨predecessor', output', logged, rfl, encoded, written, _, ⟨fits, rfl⟩, appended⟩ := appended
      have represented' := represented (log, outcome) List.mem_cons_self
      obtain ⟨part, rfl, room', checked, least, readLog'⟩ :=
        appendLog_sound (kinded (log, outcome) List.mem_cons_self) room logged
      obtain ⟨long, small⟩ := length_encodeOutcome represented'.digest written
      obtain ⟨body, rfl, room'', rest_le, read⟩ := ih
        (fun entry member => represented entry (List.mem_cons_of_mem _ member))
        (fun entry member => kinded entry (List.mem_cons_of_mem _ member))
        (by rw [List.length_append, length_framed]; exact fits) appended
      refine ⟨part ++ (framed encoded ++ body), by simp only [List.append_assoc], room'', ?_, ?_⟩
      · simp only [List.length_cons, List.length_append, length_framed, Nat.succ_mul]
        have : minimum kind ≤ part.length + (4 + encoded.length) := by
          unfold minimum
          rcases known with rfl | rfl
          · rw [if_pos rfl]
            omega
          · rw [if_neg (by norm_num)]
            rw [if_pos rfl] at least
            omega
        omega
      · intro rest
        have checked' : checkLog (canonical outcome) predecessor log = .ok predecessor' := checked
        have numbered : (canonical outcome).sequence = outcome.sequence := rfl
        simp only [List.length_cons, readRecords, List.append_assoc, readLog', ok_bind,
          readBlob_eq_ok.mpr ⟨rfl, small⟩, decodeOutcome_of_encodeOutcome represented' written,
          Except.mapError, numbered, ne_eq, not_true_eq_false, refuse_false, checked', read,
          pure_eq_ok, List.map_cons, canonicalEntry]

/-- Read log bytes are appended as they were. -/
theorem readLog_sound {outcome : OutcomeRecord} {predecessor predecessor' : Option Digest}
    {log : Option Bytes} {input rest : Bytes} {kind : Nat}
    (read : readLog kind input = .ok (log, rest))
    (checked : checkLog outcome predecessor log = .ok predecessor') :
    ∃ part, input = part ++ rest ∧ log.isSome = decide (kind = 2) ∧
      ∀ output : Bytes, output.length + part.length + 4 ≤ maxBatchBytes →
        appendLog outcome predecessor output log = .ok (predecessor', output ++ part) := by
  unfold readLog at read
  split_ifs at read with isLogical
  · simp only [bind_eq_ok, Prod.exists, readBlob_eq_ok, pure_eq_ok, Except.ok.injEq,
      Prod.mk.injEq] at read
    obtain ⟨log, rest', ⟨rfl, -⟩, rfl, rfl⟩ := read
    simp only [checkLog, bind_eq_ok, pure_eq_ok, Except.ok.injEq] at checked
    obtain ⟨digest, valid, rfl⟩ := checked
    refine ⟨framed log, rfl, by simp [isLogical], fun output fits => ?_⟩
    rw [length_framed] at fits
    rw [appendLog, valid, ok_bind, appendBlob_eq_ok.mpr ⟨fits, rfl⟩]
    rfl
  · obtain ⟨rfl, rfl⟩ := Prod.mk.inj (Except.ok.inj read)
    obtain rfl := Except.ok.inj checked
    exact ⟨[], rfl, by simp [isLogical], fun output _ => by rw [List.append_nil]; rfl⟩

/-- Read records are appended as they were. -/
theorem readRecords_sound {kind count expected : Nat} {predecessor : Option Digest}
    {input rest : Bytes} {entries : List Entry}
    (read : readRecords kind count expected predecessor input = .ok (entries, rest)) :
    ∃ body, input = body ++ rest ∧ entries.length = count ∧ Kinded kind entries ∧
      ∀ output : Bytes, output.length + body.length + 4 ≤ maxBatchBytes →
        appendRecords entries expected predecessor output = .ok (output ++ body) := by
  induction count generalizing expected predecessor input entries with
  | zero =>
      obtain ⟨rfl, rfl⟩ := Prod.mk.inj (Except.ok.inj read)
      exact ⟨[], rfl, rfl, fun _ member => (List.not_mem_nil member).elim,
        fun output _ => by rw [List.append_nil]; rfl⟩
  | succ count ih =>
      simp only [readRecords, bind_eq_ok, Prod.exists, refuse_eq_ok, exists_const, not_not,
        readBlob_eq_ok, mapError_eq_ok, pure_eq_ok, Except.ok.injEq, Prod.mk.injEq] at read
      obtain ⟨log, _, logged, encoded, after, ⟨rfl, small⟩, outcome, decoded, rfl, predecessor', checked,
        entries, _, read, rfl, rfl⟩ := read
      obtain ⟨part, rfl, isKind, appendLog'⟩ := readLog_sound logged checked
      obtain ⟨body, rfl, counted, kinded, append⟩ := ih read
      have written : encodeOutcome outcome = .ok encoded :=
        encodeOutcome_eq_ok.mpr (Vm.Outcome.encodeOutcome_decodeOutcome decoded)
      refine ⟨part ++ (framed encoded ++ body), by simp only [List.append_assoc],
        congrArg (· + 1) counted, ?_, fun output fits => ?_⟩
      · intro entry member
        rcases List.mem_cons.mp member with rfl | member
        · exact isKind
        · exact kinded entry member
      · simp only [List.length_append, length_framed] at fits
        have first : appendBlob (output ++ part) encoded = .ok (output ++ part ++ framed encoded) :=
          appendBlob_eq_ok.mpr ⟨by rw [List.length_append]; omega, rfl⟩
        rw [appendRecords, appendLog' output (by omega)]
        simp only [raise_ok, ok_bind, ne_eq, not_true_eq_false, refuse_false, written, first]
        rw [append _ (by simp only [List.length_append, length_framed]; omega)]
        simp only [List.append_assoc]

/-! ## Chains -/

/-- Log records from a sequence on, each framed with the sequence and kind of its
outcome and behind the digest of the record before it. -/
def Chained : Option Digest → Nat → List LogicalRecord → Prop
  | _, _, [] => True
  | predecessor, sequence, record :: records =>
      record.outcome.sequence = sequence ∧
        record.outcome.recordDigest = (sha256 record.logRecord).1 ∧
        (∃ before body, (∀ given ∈ predecessor, given = before) ∧
          record.logRecord = frame sequence before record.outcome.recordKind body) ∧
        Chained (some (sha256 record.logRecord)) (sequence + 1) records

theorem readRecords_chained {count expected : Nat} {predecessor : Option Digest}
    {input rest : Bytes} {entries : List Entry}
    (read : readRecords 2 count expected predecessor input = .ok (entries, rest)) :
    Chained predecessor expected (logicalRecords entries) ∧
      (logicalRecords entries).length = count := by
  induction count generalizing expected predecessor input entries with
  | zero =>
      obtain ⟨rfl, rfl⟩ := Prod.mk.inj (Except.ok.inj read)
      exact ⟨trivial, rfl⟩
  | succ count ih =>
      simp only [readRecords, readLog, if_true, bind_eq_ok, Prod.exists, refuse_eq_ok, exists_const,
        not_not, pure_eq_ok, Except.ok.injEq, Prod.mk.injEq] at read
      obtain ⟨_, _, ⟨log, _, -, rfl, rfl⟩, _, _, -, outcome, -, rfl, predecessor', checked, entries, _,
        read, rfl, rfl⟩ := read
      simp only [checkLog, bind_eq_ok, pure_eq_ok, Except.ok.injEq] at checked
      obtain ⟨digest, valid, rfl⟩ := checked
      obtain ⟨before, body, linked, framedLog, -, -, -, digested, rfl⟩ := validateLog_eq_ok.mp valid
      obtain ⟨chained, counted⟩ := ih read
      exact ⟨⟨rfl, digested, ⟨before, body, linked, framedLog⟩, chained⟩, congrArg (· + 1) counted⟩

end Logs

/-! ## Headers -/

@[simp]
theorem length_batchMagic : batchMagic.length = 8 := by decide

@[simp]
theorem length_header (kind length : Nat) (database : Fixed 16) (start stop count : Nat) :
    (header kind length database start stop count).length = 56 := by
  simp [header, length_val]

theorem header_slices (kind length : Nat) (database : Fixed 16) (start stop count : Nat) :
    slice (header kind length database start stop count) 0 8 = batchMagic ∧
      slice (header kind length database start stop count) 8 2 = leBytes 2 1 ∧
      slice (header kind length database start stop count) 10 1 = leBytes 1 kind ∧
      slice (header kind length database start stop count) 11 1 = zeros 1 ∧
      slice (header kind length database start stop count) 12 4 = leBytes 4 length ∧
      slice (header kind length database start stop count) 16 16 = database.1 ∧
      slice (header kind length database start stop count) 32 8 = leBytes 8 start ∧
      slice (header kind length database start stop count) 40 8 = leBytes 8 stop ∧
      slice (header kind length database start stop count) 48 4 = leBytes 4 count ∧
      slice (header kind length database start stop count) 52 4 = zeros 4 := by
  simp [header, slice_append_right, slice_zero_append, slice_self]

/-- Fifty-six bytes with the fields of a header are that header. -/
theorem eq_header {bytes : Bytes} {kind length start stop count : Nat} {database : Fixed 16}
    (exact : bytes.length = 56) (magic : slice bytes 0 8 = batchMagic)
    (version : slice bytes 8 2 = leBytes 2 1) (kinded : uintAt 1 bytes 10 = kind)
    (flag : uintAt 1 bytes 11 = 0) (total : uintAt 4 bytes 12 = length)
    (named : slice bytes 16 16 = database.1) (started : uintAt 8 bytes 32 = start)
    (stopped : uintAt 8 bytes 40 = stop) (counted : uintAt 4 bytes 48 = count)
    (reserved : slice bytes 52 4 = zeros 4) :
    bytes = header kind length database start stop count := by
  have field {offset width : Nat} (inside : offset + width ≤ 56) :
      slice bytes offset width = leBytes width (uintAt width bytes offset) :=
    slice_eq_leBytes (exact ▸ inside)
  have begin : bytes = bytes.drop 0 := rfl
  have done : bytes.drop 56 = [] := List.drop_of_length_le exact.le
  rw [begin, drop_eq_slice_append bytes 0 8, drop_eq_slice_append bytes _ 2,
    drop_eq_slice_append bytes _ 1, drop_eq_slice_append bytes _ 1, drop_eq_slice_append bytes _ 4,
    drop_eq_slice_append bytes _ 16, drop_eq_slice_append bytes _ 8, drop_eq_slice_append bytes _ 8,
    drop_eq_slice_append bytes _ 4, drop_eq_slice_append bytes _ 4]
  norm_num only
  rw [magic, version, field (by norm_num : 10 + 1 ≤ 56), kinded, field (by norm_num : 11 + 1 ≤ 56),
    flag, field (by norm_num : 12 + 4 ≤ 56), total, named, field (by norm_num : 32 + 8 ≤ 56), started,
    field (by norm_num : 40 + 8 ≤ 56), stopped, field (by norm_num : 48 + 4 ≤ 56), counted, reserved,
    done, List.append_nil]
  rfl

theorem setField_append {left old field : Bytes} {offset : Nat} (right : Bytes)
    (past : left.length = offset) (same : old.length = field.length) :
    setField (left ++ (old ++ right)) offset field = left ++ (field ++ right) := by
  rw [setField, ← past, List.take_left, ← same, ← List.drop_drop, List.drop_left, List.drop_left]

/-- The length replaces its placeholder. -/
theorem setField_header (kind length : Nat) (database : Fixed 16) (start stop count : Nat)
    (body : Bytes) :
    setField (header kind 0 database start stop count ++ body) 12 (leBytes 4 length) =
      header kind length database start stop count ++ body := by
  have set := @setField_append (batchMagic ++ (leBytes 2 1 ++ (leBytes 1 kind ++ zeros 1)))
    (leBytes 4 0) (leBytes 4 length) 12
    (database.1 ++ (leBytes 8 start ++ (leBytes 8 stop ++ (leBytes 4 count ++ (zeros 4 ++ body)))))
    (by simp) (by simp)
  simpa only [header, List.append_assoc] using set

/-! ## Batches -/

/-- The integers and arrays of a batch have their fixed widths. -/
structure FeedBatch.Representable (batch : FeedBatch) : Prop where
  startExclusive : batch.startExclusive < 2 ^ 64
  endInclusive : batch.endInclusive < 2 ^ 64
  outcomes : ∀ entry ∈ batch.records.entries, Exchange.Representable entry.2

/-- Records with the effects of each outcome in address order. -/
def FeedRecords.canonical : FeedRecords → FeedRecords
  | resolved records => resolved (records.map Exchange.canonical)
  | logical records =>
      logical (records.map fun record => { record with outcome := Exchange.canonical record.outcome })

/-- A batch with the effects of each outcome in address order. -/
def FeedBatch.canonical (batch : FeedBatch) : FeedBatch :=
  { batch with records := batch.records.canonical }

theorem FeedRecords.kinded (records : FeedRecords) : Kinded records.kind records.entries := by
  intro entry member
  cases records with
  | resolved records =>
      obtain ⟨_, -, rfl⟩ := List.mem_map.mp member
      rfl
  | logical records =>
      obtain ⟨_, -, rfl⟩ := List.mem_map.mp member
      rfl

theorem FeedRecords.kind_cases (records : FeedRecords) : records.kind = 1 ∨ records.kind = 2 := by
  cases records with
  | resolved => exact .inl rfl
  | logical => exact .inr rfl

theorem logicalRecords_map {α : Type} (values : List α) (log : α → Bytes)
    (outcome : α → OutcomeRecord) :
    logicalRecords (values.map fun value => (some (log value), outcome value)) =
      values.map fun value => ⟨log value, outcome value⟩ := by
  induction values with
  | nil => rfl
  | cons value values ih =>
      rw [List.map_cons, List.map_cons, ← ih]
      rfl

theorem FeedRecords.ofEntries_canonical (records : FeedRecords) :
    ofEntries records.kind (records.entries.map canonicalEntry) = records.canonical := by
  cases records with
  | resolved records =>
      rw [kind, ofEntries, if_pos rfl, entries, List.map_map, List.map_map]
      rfl
  | logical records =>
      have listed : (records.map fun record => ((some record.logRecord, record.outcome) : Entry)).map
          canonicalEntry = records.map fun record =>
            (some record.logRecord, Exchange.canonical record.outcome) := by
        rw [List.map_map]
        rfl
      rw [kind, ofEntries, if_neg (by norm_num), entries, listed, logicalRecords_map]
      rfl

/-- Records of a kind list the entries they were made of. -/
theorem FeedRecords.ofEntries_sound {kind : Nat} (known : kind = 1 ∨ kind = 2) {list : List Entry}
    (kinded : Kinded kind list) :
    (ofEntries kind list).entries = list ∧ (ofEntries kind list).kind = kind := by
  rcases known with rfl | rfl
  · refine ⟨?_, rfl⟩
    rw [ofEntries, if_pos rfl, entries, List.map_map]
    refine (List.map_congr_left fun entry member => ?_).trans (List.map_id list)
    obtain ⟨log, outcome⟩ := entry
    have missing : log = none := by simpa using kinded _ member
    rw [missing]
    rfl
  · refine ⟨?_, rfl⟩
    rw [ofEntries, if_neg (by norm_num), entries]
    induction list with
    | nil => rfl
    | cons entry list ih =>
        obtain ⟨log, outcome⟩ := entry
        have present : log.isSome = true := by simpa using kinded _ List.mem_cons_self
        obtain ⟨log, rfl⟩ := Option.isSome_iff_exists.mp present
        have rest := ih fun entry member => kinded entry (List.mem_cons_of_mem _ member)
        exact congrArg (((some log, outcome) : Entry) :: ·) rest

theorem validateInterval_eq_ok {database : Fixed 16} {start stop count : Nat} {done : Unit} :
    validateInterval database start stop count = .ok done ↔
      database.1 ≠ zeros 16 ∧ stop ≠ maxU64 ∧ stop = start + count ∧
        count ≤ (maxBatchBytes - emptyBatchBytes) / 80 := by
  simp only [validateInterval, refuse_eq_ok, not_or, not_not, not_lt, gt_iff_lt, ne_eq]
  refine and_congr_right fun _ => and_congr_right fun _ => and_congr_left fun _ => ?_
  omega

section Batches

variable [Crc32c] [Sha256]

/-- The bytes of a batch around its encoded records. -/
def batchBytes (kind : Nat) (database : Fixed 16) (start stop count : Nat) (body : Bytes) : Bytes :=
  withCrc (header kind (body.length + 60) database start stop count ++ body)

omit [Sha256] in
theorem length_batchBytes (kind : Nat) (database : Fixed 16) (start stop count : Nat) (body : Bytes) :
    (batchBytes kind database start stop count body).length = body.length + 60 := by
  simp only [batchBytes, withCrc, List.length_append, length_header, length_leBytes]
  omega

/-- Encoding puts the records of a batch behind its header. -/
theorem encode_eq_ok {batch : FeedBatch} {bytes : Bytes} :
    batch.encode = .ok bytes ↔
      validateInterval batch.databaseId batch.startExclusive batch.endInclusive
          batch.records.entries.length = .ok () ∧
        ∃ result, appendRecords batch.records.entries (batch.startExclusive + 1) none
            (header batch.records.kind 0 batch.databaseId batch.startExclusive batch.endInclusive
              batch.records.entries.length) = .ok result ∧
          bytes = withCrc (setField result 12 (leBytes 4 (result.length + 4))) := by
  simp only [FeedBatch.encode, bind_eq_ok, raise_eq_ok, pure_eq_ok, Except.ok.injEq,
    @eq_comm _ _ bytes]
  constructor
  · rintro ⟨⟨⟩, valid, result, appended, rfl⟩
    exact ⟨valid, result, appended, rfl⟩
  · rintro ⟨valid, result, appended, rfl⟩
    exact ⟨(), valid, result, appended, rfl⟩

omit [Sha256] in
/-- The fields of a batch, and its records. -/
theorem slice_batchBytes {kind start stop count : Nat} {database : Fixed 16} {body : Bytes} :
    (∀ {offset width}, offset + width ≤ 56 →
      slice (batchBytes kind database start stop count body) offset width =
        slice (header kind (body.length + 60) database start stop count) offset width) ∧
      slice (batchBytes kind database start stop count body) 56 body.length = body ∧
      (batchBytes kind database start stop count body).take (body.length + 56) =
        header kind (body.length + 60) database start stop count ++ body ∧
      slice (batchBytes kind database start stop count body) (body.length + 56) 4 =
        leBytes 4 (Crc32c.checksum
          (header kind (body.length + 60) database start stop count ++ body)) := by
  have length : (header kind (body.length + 60) database start stop count ++ body).length =
      body.length + 56 := by
    rw [List.length_append, length_header, Nat.add_comm]
  refine ⟨fun inside => ?_, ?_, ?_, ?_⟩
  · rw [batchBytes, withCrc, List.append_assoc,
      slice_append_left _ (by rw [length_header]; exact inside)]
  · rw [batchBytes, withCrc, List.append_assoc, slice_append_right _ _ (length_header ..).le,
      length_header, Nat.sub_self, slice_zero_append _ rfl]
  · rw [batchBytes, withCrc, ← length, List.take_left]
  · rw [batchBytes, withCrc, slice_append_right _ _ length.le, length, Nat.sub_self,
      slice_self (length_leBytes _ _)]

omit [Sha256] in
/-- Exchanged bytes are a checked part and its checksum. -/
theorem checkFrame_eq_ok {bytes magic : Bytes} {least most : Nat} {done : Unit} :
    checkFrame bytes least most magic = .ok done ↔
      (least ≤ bytes.length ∧ bytes.length ≤ most) ∧
        Crc32c.checksum (bytes.take (bytes.length - 4)) = uintAt 4 bytes (bytes.length - 4) ∧
        slice bytes 0 8 = magic ∧ slice bytes 8 2 = leBytes 2 1 := by
  simp only [checkFrame, bind_eq_ok, refuse_eq_ok, exists_const, not_not, not_or]

/-- Decoding accepts exactly the bytes around records that read. -/
theorem decode_eq_ok {bytes : Bytes} {batch : FeedBatch} :
    FeedBatch.decode bytes = .ok batch ↔
      ∃ kind body entries, (kind = 1 ∨ kind = 2) ∧
        bytes = batchBytes kind batch.databaseId batch.startExclusive batch.endInclusive entries.length
          body ∧
        body.length + 60 ≤ maxBatchBytes ∧ batch.startExclusive < 2 ^ 64 ∧
        batch.endInclusive < 2 ^ 64 ∧
        validateInterval batch.databaseId batch.startExclusive batch.endInclusive entries.length =
          .ok () ∧
        entries.length ≤ body.length / minimum kind ∧
        readRecords kind entries.length (batch.startExclusive + 1) none body = .ok (entries, []) ∧
        batch.records = .ofEntries kind entries := by
  constructor
  · intro decoded
    simp only [FeedBatch.decode, bind_eq_ok, checkFrame_eq_ok, refuse_eq_ok, exists_const, not_not,
      not_or, Prod.exists, pure_eq_ok, Except.ok.injEq, gt_iff_lt, not_lt, emptyBatchBytes,
      ne_eq] at decoded
    obtain ⟨⟨⟨least, most⟩, checked, magic, version⟩, ⟨kinded, flag, reserved, total⟩, ⟨⟩, valid, enough,
      entries, _, read, rfl, rfl⟩ := decoded
    obtain ⟨size, exact⟩ : ∃ size, bytes.length = size + 60 := ⟨bytes.length - 60, by omega⟩
    rw [show bytes.length - 4 - 56 = size by omega] at read enough
    rw [show bytes.length - 4 = size + 56 by omega] at checked
    obtain ⟨body, same, counted, -, -⟩ := readRecords_sound read
    have within {offset width : Nat} (inside : offset + width ≤ 56) :
        slice (slice bytes 0 56) offset width = slice bytes offset width := slice_take inside
    have field {offset width : Nat} (inside : offset + width ≤ 56) :
        uintAt width (slice bytes 0 56) offset = uintAt width bytes offset :=
      congrArg leNat (within inside)
    have sized : (slice bytes 56 size).length = size := by
      rw [length_slice]
      omega
    have headed : slice bytes 0 56 = header (uintAt 1 bytes 10) (size + 60) (arrayAt 16 bytes 16)
        (uintAt 8 bytes 32) (uintAt 8 bytes 40) entries.length := by
      refine eq_header (by rw [length_slice]; omega) ?_ ?_ ?_ ?_ ?_ ?_ ?_ ?_ ?_ ?_
      · rw [within (by norm_num), magic]
      · rw [within (by norm_num), version]
      · exact field (by norm_num)
      · rw [field (by norm_num), flag]
      · rw [field (by norm_num), total, exact]
      · rw [within (by norm_num), arrayAt_val (by omega)]
      · exact field (by norm_num)
      · exact field (by norm_num)
      · rw [field (by norm_num), counted]
      · rw [within (by norm_num), reserved]
    have taken : bytes.take (size + 56) = slice bytes 0 56 ++ slice bytes 56 size := by
      rw [slice, slice, List.drop_zero, Nat.add_comm, List.take_add]
    have tail : bytes.drop (size + 56) = leBytes 4 (uintAt 4 bytes (size + 56)) := by
      rw [← slice_eq_leBytes (by omega), slice, List.take_of_length_le]
      rw [List.length_drop]
      omega
    refine ⟨uintAt 1 bytes 10, slice bytes 56 size, entries, by omega, ?_, by omega,
      uintAt_lt 8 bytes 32, uintAt_lt 8 bytes 40, ?_, ?_, ?_, rfl⟩
    · rw [batchBytes, sized, ← headed, ← taken, withCrc, checked, ← tail, List.take_append_drop]
    · rw [counted]
      exact valid
    · rw [counted]
      exact enough
    · rw [counted]
      exact read
  · rintro ⟨kind, body, entries, known, rfl, most, started, stopped, valid, enough, read, records⟩
    obtain ⟨database, start, stop, _⟩ := batch
    obtain rfl := records
    simp only [maxBatchBytes] at most
    simp only at started stopped valid read
    have counted := (validateInterval_eq_ok.mp valid).2.2.2
    simp only [maxBatchBytes, emptyBatchBytes] at counted
    have total := length_batchBytes kind database start stop entries.length body
    obtain ⟨within, inside, taken, checksum⟩ :=
      @slice_batchBytes _ kind start stop entries.length database body
    obtain ⟨magic, version, kinded, flag, length, named, starts, stops, counts, reserved⟩ :=
      header_slices kind (body.length + 60) database start stop entries.length
    rw [← within (by norm_num)] at magic version kinded flag length named starts stops counts reserved
    have isKind := uintAt_of_slice kinded (by omega)
    have isFlag : uintAt 1 (batchBytes kind database start stop entries.length body) 11 = 0 := by
      rw [uintAt, flag]
      rfl
    have isTotal := uintAt_of_slice length (by omega)
    have isStart := uintAt_of_slice starts (by omega)
    have isStop := uintAt_of_slice stops (by omega)
    have isCount := uintAt_of_slice counts (by omega)
    have framed : checkFrame (batchBytes kind database start stop entries.length body) emptyBatchBytes
        maxBatchBytes batchMagic = .ok () := by
      refine checkFrame_eq_ok.mpr ⟨⟨?_, ?_⟩, ?_, magic, version⟩
      · rw [total, emptyBatchBytes]
        omega
      · rw [total, maxBatchBytes]
        exact most
      · rw [total, show body.length + 60 - 4 = body.length + 56 by omega, taken,
          uintAt_of_slice checksum (Crc32c.checksum_lt _)]
    have fields : ¬ (¬ (1 ≤ kind ∧ kind ≤ 2) ∨ False ∨ False ∨ False) := by
      rcases known with rfl | rfl <;> norm_num
    have few : ¬ entries.length > body.length / (if kind = 1 then 80 else 156) := not_lt.mpr enough
    rw [FeedBatch.decode, framed]
    simp only [ok_bind, isKind, isFlag, reserved, isTotal, total, refuse_of_not _ fields, isStart,
      isStop, isCount, arrayAt_eq named, valid, show body.length + 60 - 4 - 56 = body.length by omega,
      inside, refuse_of_not _ few, read, ne_eq, not_true_eq_false, refuse_false, pure_eq_ok]

/-- A batch that encodes is within the limit and decodes to itself with the
effects of each outcome in address order. -/
theorem decode_encode {batch : FeedBatch} {bytes : Bytes} (represented : batch.Representable)
    (encoded : batch.encode = .ok bytes) :
    bytes.length ≤ maxBatchBytes ∧ FeedBatch.decode bytes = .ok batch.canonical := by
  obtain ⟨valid, result, appended, rfl⟩ := encode_eq_ok.mp encoded
  obtain ⟨body, rfl, room, least, read⟩ := appendRecords_sound batch.records.kind_cases
    represented.outcomes batch.records.kinded (by rw [length_header, maxBatchBytes]; norm_num) appended
  rw [List.length_append, length_header] at room
  have bytes_eq : withCrc (setField (header batch.records.kind 0 batch.databaseId
      batch.startExclusive batch.endInclusive batch.records.entries.length ++ body) 12 (leBytes 4
        ((header batch.records.kind 0 batch.databaseId batch.startExclusive batch.endInclusive
          batch.records.entries.length ++ body).length + 4))) =
      batchBytes batch.records.kind batch.databaseId batch.startExclusive batch.endInclusive
        batch.records.entries.length body := by
    rw [setField_header, batchBytes, List.length_append, length_header,
      show 56 + body.length + 4 = body.length + 60 by omega]
  rw [bytes_eq]
  refine ⟨by rw [length_batchBytes]; omega, decode_eq_ok.mpr ⟨batch.records.kind, body,
    batch.records.entries.map canonicalEntry, batch.records.kind_cases, ?_, by omega,
    represented.startExclusive, represented.endInclusive, ?_, ?_, ?_,
    batch.records.ofEntries_canonical.symm⟩⟩
  · rw [List.length_map]
    rfl
  · rw [List.length_map]
    exact valid
  · rw [List.length_map, Nat.le_div_iff_mul_le (by unfold minimum; split <;> norm_num)]
    exact least
  · have exact := read []
    rw [List.append_nil] at exact
    rw [List.length_map]
    exact exact

/-- Bytes that decode are the encoding of what they decode to. -/
theorem encode_decode {batch : FeedBatch} {bytes : Bytes}
    (decoded : FeedBatch.decode bytes = .ok batch) : batch.encode = .ok bytes := by
  obtain ⟨kind, body, entries, known, rfl, most, -, -, valid, -, read, records⟩ :=
    decode_eq_ok.mp decoded
  obtain ⟨body', same, -, kinded, append⟩ := readRecords_sound read
  rw [List.append_nil] at same
  subst same
  obtain ⟨listed, isKind⟩ := FeedRecords.ofEntries_sound known kinded
  rw [← records] at listed isKind
  refine encode_eq_ok.mpr ⟨by rw [listed]; exact valid, header kind 0 batch.databaseId
    batch.startExclusive batch.endInclusive entries.length ++ body, ?_, ?_⟩
  · rw [listed, isKind]
    exact append _ (by rw [length_header]; omega)
  · rw [setField_header, batchBytes, List.length_append, length_header,
      show 56 + body.length + 4 = body.length + 60 by omega]

/-- Encoding and decoding of batches are inverse up to the order of effects, the
encoding is at most 256 MiB long, and the records of a decoded logical batch are
one hash chain over the consecutive sequences of its interval. -/
theorem batches_round_trip :
    (∀ (batch : FeedBatch) (bytes : Bytes), batch.Representable → batch.encode = .ok bytes →
      bytes.length ≤ 256 * 1024 * 1024 ∧ FeedBatch.decode bytes = .ok batch.canonical) ∧
    (∀ (bytes : Bytes) (batch : FeedBatch), FeedBatch.decode bytes = .ok batch →
      batch.encode = .ok bytes) ∧
    (∀ (bytes : Bytes) (batch : FeedBatch) (records : List LogicalRecord),
      FeedBatch.decode bytes = .ok batch → batch.records = .logical records →
      Chained none (batch.startExclusive + 1) records ∧
        batch.endInclusive = batch.startExclusive + records.length) := by
  refine ⟨fun batch bytes represented encoded => decode_encode represented encoded,
    fun bytes batch decoded => encode_decode decoded, fun bytes batch records decoded isLogical => ?_⟩
  obtain ⟨kind, body, entries, known, -, -, -, -, valid, -, read, made⟩ := decode_eq_ok.mp decoded
  rw [isLogical] at made
  rcases known with rfl | rfl
  · rw [FeedRecords.ofEntries, if_pos rfl] at made
    cases made
  · rw [FeedRecords.ofEntries, if_neg (by norm_num)] at made
    obtain rfl := FeedRecords.logical.inj made
    obtain ⟨chained, counted⟩ := readRecords_chained read
    rw [counted]
    exact ⟨chained, (validateInterval_eq_ok.mp valid).2.2.1⟩

end Batches

namespace Sample

scoped instance : Crc32c := castagnoli

/-- The digest of the one log record below. -/
def digest : Bytes :=
  [0x26, 0xaf, 0x32, 0x07, 0xf5, 0x23, 0x30, 0x6e, 0x55, 0x4a, 0x69, 0x91,
    0x17, 0x3b, 0xff, 0xab, 0x52, 0xf6, 0x80, 0x85, 0x6c, 0x99, 0xe4, 0xc9,
    0x06, 0x1b, 0xd2, 0xcb, 0x6b, 0xf5, 0xf9, 0xa8]

scoped instance : Sha256 := ⟨fun _ => digest, fun _ => rfl⟩

/-- An aborted first transaction with an empty body. -/
def outcome : OutcomeRecord := ⟨1, digest, 1, .aborted ⟨.explicitAbort, 0, 7, 0⟩⟩

/-- A batch of that record. -/
def batch : FeedBatch :=
  ⟨filled 16 1, 0, 1, .logical [⟨frame 1 (filled 32 0) 1 [], outcome⟩]⟩

/-- The batch encodes, decodes to itself and is a chain of one record. -/
theorem one_record_round_trip :
    ∃ bytes, batch.encode = .ok bytes ∧ bytes.length ≤ 256 * 1024 * 1024 ∧
      FeedBatch.decode bytes = .ok batch ∧
      Chained none 1 [⟨frame 1 ⟨zeros 32, rfl⟩ 1 [], outcome⟩] := by
  have logged : validateLog (frame 1 ⟨zeros 32, rfl⟩ 1 []) outcome none = .ok ⟨digest, rfl⟩ :=
    validateLog_eq_ok.mpr ⟨⟨zeros 32, rfl⟩, [], fun _ given => (by cases given), rfl, by decide,
      by decide, by decide, rfl, rfl⟩
  obtain ⟨encoded, written, short⟩ : ∃ encoded, encodeOutcome outcome = .ok encoded ∧
      encoded.length = 76 := ⟨_, rfl, by decide⟩
  have length := length_frame 1 ⟨zeros 32, rfl⟩ 1 []
  have appended (output : Bytes) (small : output.length = 56) :
      appendRecords batch.records.entries 1 none output =
        .ok (output ++ framed (frame 1 ⟨zeros 32, rfl⟩ 1 []) ++ framed encoded) := by
    have first : appendBlob output (frame 1 ⟨zeros 32, rfl⟩ 1 []) = .ok _ :=
      appendBlob_eq_ok.mpr ⟨by rw [small, length]; decide, rfl⟩
    have second : appendBlob (output ++ framed (frame 1 ⟨zeros 32, rfl⟩ 1 [])) encoded = .ok _ :=
      appendBlob_eq_ok.mpr
        ⟨by rw [List.length_append, length_framed, small, length, short]; decide, rfl⟩
    have numbered : outcome.sequence = 1 := rfl
    have zeroed : filled 32 0 = ⟨zeros 32, rfl⟩ := rfl
    simp only [batch, zeroed, FeedRecords.entries, List.map_cons, List.map_nil, appendRecords, appendLog,
      logged, ok_bind, first, pure_eq_ok, raise_ok, numbered, ne_eq, not_true_eq_false, refuse_false,
      written, second]
  have encodes := encode_eq_ok.mpr ⟨by decide, _, appended _ (length_header ..), rfl⟩
  have represented : batch.Representable := by
    refine ⟨by decide, by decide, fun entry member => ?_⟩
    obtain rfl := List.mem_singleton.mp member
    exact ⟨by decide, rfl, show (7 : Nat) < 2 ^ 32 by norm_num⟩
  obtain ⟨bounded, decoded⟩ := batches_round_trip.1 batch _ represented encodes
  exact ⟨_, encodes, bounded, decoded, (batches_round_trip.2.2 _ batch _ decoded rfl).1⟩

end Sample

end BlopDb.Engine.Exchange
