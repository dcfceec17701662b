/-
# Log record envelopes

An envelope frames the body of a record between a header that names its
sequence, kind and predecessor and a trailer with a checksum and the repeated
length.  Log validation accepts exactly such bytes: whatever it accepts is the
envelope of some body under the expected sequence and predecessor.
-/

import BlopDb.Storage.Framing
import BlopDb.Vm.Value

namespace BlopDb.Engine

open BlopDb.Lib
open Storage (Digest sha256 maxU64)
open Storage.Metadata (maxRecordLength policyLength)
open Storage.Wal (recordMagic validateRecord readCommitted checkVersion uintAt_of_slice length_val)

/-- The bytes of an envelope beside the body. -/
def recordOverhead : Nat := 72

/-- The header of a record. -/
def recordHeader (sequence : Nat) (predecessor : Digest) (kind length : Nat) : Bytes :=
  recordMagic ++ (leBytes 2 64 ++ (leBytes 2 1 ++ (leBytes 4 (length + recordOverhead) ++
    (leBytes 4 length ++ (leBytes 8 sequence ++ (leBytes 1 kind ++ (zeros 3 ++
      (predecessor.1 ++ zeros 4))))))))

section Checksums

variable [Crc32c]

/-- A header, a body and a trailer. -/
def frame (sequence : Nat) (predecessor : Digest) (kind : Nat) (body : Bytes) : Bytes :=
  recordHeader sequence predecessor kind body.length ++ body ++
    (leBytes 4 (Crc32c.checksum (recordHeader sequence predecessor kind body.length ++ body)) ++
      leBytes 4 (body.length + recordOverhead))

/-- Frame the body of a record. -/
def envelope (sequence : Nat) (predecessor : Digest) (kind : Nat) (body : Bytes) :
    Except Vm.Error Bytes := do
  refuse (body.length + recordOverhead > maxRecordLength) (.invalid "log record exceeds 64 MiB")
  refuse (sequence = 0 ∨ sequence = maxU64 ∨ ¬ (1 ≤ kind ∧ kind ≤ 3))
    (.invalid "invalid log record sequence or kind")
  return frame sequence predecessor kind body

/-! ## Layout -/

omit [Crc32c] in
@[simp]
theorem length_recordMagic : recordMagic.length = 4 := by decide

omit [Crc32c] in
@[simp]
theorem length_recordHeader (sequence : Nat) (predecessor : Digest) (kind length : Nat) :
    (recordHeader sequence predecessor kind length).length = 64 := by
  simp [recordHeader]

theorem length_frame (sequence : Nat) (predecessor : Digest) (kind : Nat) (body : Bytes) :
    (frame sequence predecessor kind body).length = body.length + recordOverhead := by
  simp only [frame, List.length_append, length_recordHeader, length_leBytes, recordOverhead]
  omega

omit [Crc32c] in
/-- The fields of a header at their offsets. -/
theorem recordHeader_slices (sequence : Nat) (predecessor : Digest) (kind length : Nat) :
    slice (recordHeader sequence predecessor kind length) 0 4 = recordMagic ∧
      slice (recordHeader sequence predecessor kind length) 4 2 = leBytes 2 64 ∧
      slice (recordHeader sequence predecessor kind length) 6 2 = leBytes 2 1 ∧
      slice (recordHeader sequence predecessor kind length) 8 4 =
        leBytes 4 (length + recordOverhead) ∧
      slice (recordHeader sequence predecessor kind length) 12 4 = leBytes 4 length ∧
      slice (recordHeader sequence predecessor kind length) 16 8 = leBytes 8 sequence ∧
      slice (recordHeader sequence predecessor kind length) 24 1 = leBytes 1 kind ∧
      slice (recordHeader sequence predecessor kind length) 25 3 = zeros 3 ∧
      slice (recordHeader sequence predecessor kind length) 28 32 = predecessor.1 ∧
      slice (recordHeader sequence predecessor kind length) 60 4 = zeros 4 := by
  simp [recordHeader, slice_append_right, slice_zero_append, slice_self]

omit [Crc32c] in
theorem drop_eq_slice_append (bytes : Bytes) (offset width : Nat) :
    bytes.drop offset = slice bytes offset width ++ bytes.drop (offset + width) := by
  rw [slice, ← List.drop_drop, List.take_append_drop]

omit [Crc32c] in
theorem slice_eq_leBytes {bytes : Bytes} {offset width : Nat}
    (inside : offset + width ≤ bytes.length) :
    slice bytes offset width = leBytes width (uintAt width bytes offset) := by
  have length : (slice bytes offset width).length = width := by
    rw [length_slice]
    omega
  have inverse := leBytes_leNat (slice bytes offset width)
  rw [length] at inverse
  exact inverse.symm

omit [Crc32c] in
/-- Sixty-four bytes with the fields of a header are that header. -/
theorem eq_recordHeader {header : Bytes} {sequence kind length : Nat} {predecessor : Digest}
    (exact : header.length = 64) (magic : slice header 0 4 = recordMagic)
    (size : uintAt 2 header 4 = 64) (version : uintAt 2 header 6 = 1)
    (total : uintAt 4 header 8 = length + recordOverhead) (body : uintAt 4 header 12 = length)
    (numbered : uintAt 8 header 16 = sequence) (kinded : uintAt 1 header 24 = kind)
    (flags : slice header 25 3 = zeros 3) (chained : slice header 28 32 = predecessor.1)
    (reserved : slice header 60 4 = zeros 4) :
    header = recordHeader sequence predecessor kind length := by
  have field {offset width : Nat} (inside : offset + width ≤ 64) :
      slice header offset width = leBytes width (uintAt width header offset) :=
    slice_eq_leBytes (exact ▸ inside)
  have start : header = header.drop 0 := rfl
  have done : header.drop 64 = [] := List.drop_of_length_le exact.le
  rw [start, drop_eq_slice_append header 0 4, drop_eq_slice_append header _ 2,
    drop_eq_slice_append header _ 2, drop_eq_slice_append header _ 4,
    drop_eq_slice_append header _ 4, drop_eq_slice_append header _ 8,
    drop_eq_slice_append header _ 1, drop_eq_slice_append header _ 3,
    drop_eq_slice_append header _ 32, drop_eq_slice_append header _ 4]
  norm_num only
  rw [magic, field (by norm_num : 4 + 2 ≤ 64), size, field (by norm_num : 6 + 2 ≤ 64), version,
    field (by norm_num : 8 + 4 ≤ 64), total, field (by norm_num : 12 + 4 ≤ 64), body,
    field (by norm_num : 16 + 8 ≤ 64), numbered, field (by norm_num : 24 + 1 ≤ 64), kinded, flags,
    chained, reserved, done, recordHeader, List.append_nil]

/-! ## Validation -/

theorem envelope_eq_ok {sequence kind : Nat} {predecessor : Digest} {body bytes : Bytes} :
    envelope sequence predecessor kind body = .ok bytes ↔
      body.length + recordOverhead ≤ maxRecordLength ∧ sequence ≠ 0 ∧ sequence ≠ maxU64 ∧
        (1 ≤ kind ∧ kind ≤ 3) ∧ bytes = frame sequence predecessor kind body := by
  simp only [envelope, bind_eq_ok, refuse_eq_ok, exists_const, pure_eq_ok, Except.ok.injEq, not_or,
    not_not, not_lt, gt_iff_lt, and_assoc, @eq_comm _ _ bytes]

variable [Sha256]

/-- The bounds that validation puts on the fields of a record. -/
structure Recorded (sequence kind : Nat) (body : Bytes) : Prop where
  numbered : sequence < 2 ^ 64
  kinded : 1 ≤ kind ∧ kind ≤ 3
  short : body.length + recordOverhead ≤ maxRecordLength
  policy : kind = 3 → body.length = policyLength

/-- A framed record is accepted, whatever follows it. -/
theorem validateRecord_frame {sequence kind : Nat} {body : Bytes}
    (recorded : Recorded sequence kind body) (predecessor : Digest) (rest : Bytes)
    {remaining : Nat} (inside : body.length + recordOverhead ≤ remaining) :
    validateRecord (frame sequence predecessor kind body ++ rest) remaining sequence predecessor =
      .ok (body.length + recordOverhead, sha256 (frame sequence predecessor kind body)) := by
  obtain ⟨numbered, kinded, short, policy⟩ := recorded
  simp only [recordOverhead, maxRecordLength] at short inside
  obtain ⟨magic, size, version, total, length, number, kindField, flags, chained, reserved⟩ :=
    recordHeader_slices sequence predecessor kind body.length
  have size' := uintAt_of_slice size (by norm_num)
  have version' := uintAt_of_slice version (by norm_num)
  have total' := uintAt_of_slice total (by simp only [recordOverhead]; omega)
  have length' := uintAt_of_slice length (by omega)
  have number' := uintAt_of_slice number (by omega)
  have kind' := uintAt_of_slice kindField (by omega)
  have crc := Crc32c.checksum_lt (recordHeader sequence predecessor kind body.length ++ body)
  have checked := uintAt_of_slice (slice_zero_append (leBytes 4 (body.length + recordOverhead))
    (length_leBytes 4 (Crc32c.checksum (recordHeader sequence predecessor kind body.length ++ body))))
    crc
  have repeated : uintAt 4 (leBytes 4 (Crc32c.checksum
      (recordHeader sequence predecessor kind body.length ++ body)) ++
        leBytes 4 (body.length + recordOverhead)) 4 = body.length + recordOverhead := by
    refine uintAt_of_slice ?_ (by simp only [recordOverhead]; omega)
    rw [slice_append_right _ _ (by simp)]
    simp [slice_self]
  have readHeader := takeBytes_append_of_length (Storage.Error.corrupt "truncated committed log prefix")
    (body ++ (leBytes 4 (Crc32c.checksum (recordHeader sequence predecessor kind body.length ++ body)) ++
      (leBytes 4 (body.length + recordOverhead) ++ rest)))
    (length_recordHeader sequence predecessor kind body.length)
  have readBody := takeBytes_append (Storage.Error.corrupt "truncated committed log prefix") body
    (leBytes 4 (Crc32c.checksum (recordHeader sequence predecessor kind body.length ++ body)) ++
      (leBytes 4 (body.length + recordOverhead) ++ rest))
  have readTrailer : readCommitted (leBytes 4 (Crc32c.checksum
      (recordHeader sequence predecessor kind body.length ++ body)) ++
        (leBytes 4 (body.length + recordOverhead) ++ rest)) 8 =
      .ok (leBytes 4 (Crc32c.checksum (recordHeader sequence predecessor kind body.length ++ body)) ++
        leBytes 4 (body.length + recordOverhead), rest) :=
    takeBytes_eq_ok.mpr ⟨by rw [List.append_assoc], by simp⟩
  have bounds : ¬ (body.length + recordOverhead ≠ 72 + body.length ∨
      body.length + recordOverhead > maxRecordLength ∨ body.length + recordOverhead > remaining) := by
    simp only [recordOverhead, maxRecordLength]
    omega
  have known : ¬ (¬ (1 ≤ kind ∧ kind ≤ 3) ∨ False) := by simp [kinded]
  have sized : ¬ (kind = 3 ∧ body.length ≠ policyLength) := by
    rintro ⟨isPolicy, wrong⟩
    exact wrong (policy isPolicy)
  unfold validateRecord
  simp only [frame, List.append_assoc] at readHeader ⊢
  rw [refuse_of_not _ (show ¬ remaining < 72 by omega), ok_bind]
  simp only [readCommitted] at readTrailer ⊢
  simp only [readHeader, ok_bind, total', length', refuse_of_not _ bounds, readBody, readTrailer,
    checked, repeated, magic, size', version', kind', flags, reserved, number', chained, checkVersion,
    ne_eq, not_true_eq_false, or_self, refuse_false, refuse_of_not _ known, refuse_of_not _ sized,
    pure_eq_ok]

/-- Whatever is accepted is a framed record under the expected sequence and
predecessor, and its digest covers exactly these bytes. -/
theorem validateRecord_sound {input : Bytes} {remaining sequence length : Nat}
    {predecessor digest : Digest}
    (accepted : validateRecord input remaining sequence predecessor = .ok (length, digest)) :
    ∃ kind body rest, Recorded sequence kind body ∧ length = body.length + recordOverhead ∧
      length ≤ remaining ∧ input = frame sequence predecessor kind body ++ rest ∧
      digest = sha256 (frame sequence predecessor kind body) := by
  simp only [validateRecord, checkVersion, bind_eq_ok, refuse_eq_ok, Prod.exists, exists_const,
    pure_eq_ok, Except.ok.injEq, Prod.mk.injEq, not_or, not_not] at accepted
  obtain ⟨-, header, _, readHeader, ⟨total, most, inside⟩, body, _, readBody, trailer, rest,
    readTrailer, checked, repeated, ⟨magic, size⟩, version, ⟨kinded, flags, reserved⟩, policy,
    ⟨numbered, chained⟩, rfl, rfl⟩ := accepted
  obtain ⟨rfl, exact⟩ := takeBytes_eq_ok.mp readHeader
  obtain ⟨rfl, exactBody⟩ := takeBytes_eq_ok.mp readBody
  obtain ⟨rfl, exactTrailer⟩ := takeBytes_eq_ok.mp readTrailer
  have whole : uintAt 4 header 8 = body.length + recordOverhead := by
    rw [total, exactBody, recordOverhead, Nat.add_comm]
  have isHeader := eq_recordHeader exact magic size version whole exactBody.symm numbered rfl flags
    chained reserved
  have isTrailer : trailer = leBytes 4 (uintAt 4 trailer 0) ++ leBytes 4 (uintAt 4 trailer 4) := by
    rw [← slice_eq_leBytes (by omega), ← slice_eq_leBytes (by omega)]
    have start : trailer = trailer.drop 0 := rfl
    have done : trailer.drop 8 = [] := List.drop_of_length_le exactTrailer.le
    nth_rewrite 1 [start]
    rw [drop_eq_slice_append trailer 0 4, drop_eq_slice_append trailer _ 4]
    norm_num only
    rw [done, List.append_nil]
  have framed : header ++ body ++ trailer =
      frame sequence predecessor (uintAt 1 header 24) body := by
    rw [isTrailer, ← checked, repeated, whole, frame, ← isHeader]
  refine ⟨uintAt 1 header 24, body, rest, ⟨?_, kinded, ?_, ?_⟩, whole, not_lt.mp inside,
    ?_, ?_⟩
  · rw [← numbered]
    exact uintAt_lt 8 header 16
  · rw [← whole]
    exact not_lt.mp most
  · intro isPolicy
    rw [exactBody]
    exact not_not.mp fun wrong => policy ⟨isPolicy, wrong⟩
  · rw [← framed, List.append_assoc, List.append_assoc]
  · rw [framed]

omit [Sha256] in
/-- Records are self-delimiting: equal inputs begin with equal records. -/
theorem frame_append_inj {sequence sequence' kind kind' : Nat} {predecessor predecessor' : Digest}
    {body body' rest rest' : Bytes} (recorded : Recorded sequence kind body)
    (recorded' : Recorded sequence' kind' body')
    (same : frame sequence predecessor kind body ++ rest =
      frame sequence' predecessor' kind' body' ++ rest') :
    (sequence = sequence' ∧ predecessor = predecessor' ∧ kind = kind' ∧ body = body') ∧
      rest = rest' := by
  obtain ⟨numbered, kinded, short, -⟩ := recorded
  obtain ⟨numbered', kinded', short', -⟩ := recorded'
  simp only [recordOverhead, maxRecordLength] at short short'
  simp only [frame, List.append_assoc] at same
  obtain ⟨headers, contents⟩ := List.append_inj same (by simp)
  obtain ⟨-, -, -, -, length, number, kindField, -, chained, -⟩ :=
    recordHeader_slices sequence predecessor kind body.length
  obtain ⟨-, -, -, -, length', number', kindField', -, chained', -⟩ :=
    recordHeader_slices sequence' predecessor' kind' body'.length
  rw [headers] at length number kindField chained
  have lengths : body.length = body'.length :=
    leBytes_inj (by omega) (by omega) (length.symm.trans length')
  obtain ⟨bodies, trailers⟩ := List.append_inj contents lengths
  obtain ⟨-, repeated⟩ := List.append_inj trailers (by simp)
  obtain ⟨-, rests⟩ := List.append_inj repeated (by simp)
  exact ⟨⟨leBytes_inj (by omega) (by omega) (number.symm.trans number'),
    Subtype.ext (chained.symm.trans chained'),
    leBytes_inj (by omega) (by omega) (kindField.symm.trans kindField'), bodies⟩, rests⟩

end Checksums

end BlopDb.Engine
