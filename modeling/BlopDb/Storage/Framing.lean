/-
# Framed groups

What an append writes is what a reader accepts: headers decode to what was
encoded, and the records of a framed group come back in order.
-/

import BlopDb.Storage.Reading

namespace BlopDb.Storage.Wal

open BlopDb.Lib
open Metadata (blockBytes maxGroupRecords groupOverhead maxRecordLength segmentHeaderLength)

/-! ## Headers -/

section Headers

theorem uintAt_of_slice {bytes : Bytes} {width offset number : Nat}
    (field : slice bytes offset width = leBytes width number) (fits : number < 256 ^ width) :
    uintAt width bytes offset = number := by
  rw [uintAt, field, leNat_leBytes width number fits]

@[simp]
theorem length_groupMagic : groupMagic.length = 8 := by decide

@[simp]
theorem length_segmentMagic : segmentMagic.length = 8 := by decide

@[simp]
theorem length_val {length : Nat} (array : Fixed length) : array.1.length = length := array.2

theorem length_fields (header : GroupHeader) : header.fields.length = 108 := by
  simp [GroupHeader.fields]

/-- The bounds of a valid header fit its fields. -/
theorem GroupHeader.Valid.fits {header : GroupHeader} (valid : header.Valid) :
    header.bytes < 256 ^ 8 ∧ header.first < 256 ^ 8 ∧ header.count < 256 ^ 4 := by
  obtain ⟨_, few, _, range, _, most⟩ := valid
  unfold maxGroupRecords at few
  unfold groupOverhead maxRecordLength at most
  refine ⟨?_, ?_, ?_⟩ <;> norm_num at range ⊢ <;> omega

variable [Crc32c]

theorem length_withCrc (bytes : Bytes) : (withCrc bytes).length = bytes.length + 4 := by
  simp [withCrc]

theorem slice_withCrc {bytes : Bytes} {offset width : Nat} (inside : offset + width ≤ bytes.length) :
    slice (withCrc bytes) offset width = slice bytes offset width :=
  slice_append_left _ inside

theorem crc_withCrc {bytes : Bytes} {length : Nat} (exact : bytes.length = length) :
    Crc32c.checksum ((withCrc bytes).take length) = uintAt 4 (withCrc bytes) length := by
  have field : slice (withCrc bytes) length 4 = leBytes 4 (Crc32c.checksum bytes) := by
    rw [withCrc, slice_append_right _ _ exact.le, exact, Nat.sub_self, slice_self (length_leBytes _ _)]
  rw [uintAt_of_slice field (Crc32c.checksum_lt bytes), withCrc, List.take_append_of_le_length exact.ge,
    List.take_of_length_le exact.le]

/-- An encoded group header decodes to what it encodes. -/
theorem GroupHeader.decode_fields {header : GroupHeader} (valid : header.Valid) :
    GroupHeader.decode (withCrc header.fields) = .ok header := by
  have length := length_fields header
  obtain ⟨bytes, first, count⟩ := valid.fits
  have field : ∀ {offset width : Nat} {value : Bytes}, slice header.fields offset width = value →
      offset + width ≤ 108 → slice (withCrc header.fields) offset width = value :=
    fun isValue inside => (slice_withCrc (length ▸ inside)).trans isValue
  have magic : slice header.fields 0 8 = groupMagic := by
    simp [GroupHeader.fields, slice_zero_append]
  have version : slice header.fields 8 2 = leBytes 2 1 := by
    simp [GroupHeader.fields, slice_append_right, slice_zero_append]
  have reserved : slice header.fields 10 2 = zeros 2 ∧ slice header.fields 36 4 = zeros 4 ∧
      slice header.fields 104 4 = zeros 4 := by
    simp [GroupHeader.fields, slice_append_right, slice_zero_append, slice_self]
  have numbers : slice header.fields 12 4 = leBytes 4 headerBytes ∧
      slice header.fields 16 8 = leBytes 8 header.bytes ∧
      slice header.fields 24 8 = leBytes 8 header.first ∧
      slice header.fields 32 4 = leBytes 4 header.count := by
    simp [GroupHeader.fields, slice_append_right, slice_zero_append]
  have digests : slice header.fields 40 32 = header.predecessor.1 ∧
      slice header.fields 72 32 = header.lastDigest.1 := by
    simp [GroupHeader.fields, slice_append_right, slice_zero_append]
  have version' := uintAt_of_slice (field version (by norm_num)) (by norm_num)
  have size := uintAt_of_slice (field numbers.1 (by norm_num)) (by decide)
  have isBytes := uintAt_of_slice (field numbers.2.1 (by norm_num)) bytes
  have isFirst := uintAt_of_slice (field numbers.2.2.1 (by norm_num)) first
  have isCount := uintAt_of_slice (field numbers.2.2.2 (by norm_num)) count
  have isPredecessor := arrayAt_eq (field digests.1 (by norm_num))
  have isLast := arrayAt_eq (field digests.2 (by norm_num))
  unfold GroupHeader.decode checkVersion
  simp only [refuse_of_not _ (not_not.mpr (crc_withCrc length)), field magic (by norm_num), version', size,
    field reserved.1 (by norm_num), field reserved.2.1 (by norm_num), field reserved.2.2 (by norm_num),
    isBytes, isFirst, isCount, isPredecessor, isLast, ne_eq, not_true_eq_false, or_self, ok_bind,
    refuse_false, refuse_of_not _ (not_not.mpr valid)]
  rfl

omit [Crc32c] in
/-- The fields of a segment header that a reader compares. -/
theorem segmentFields_slices (database : Fixed 16) (segment : SegmentDescriptor) :
    slice (segmentFields database segment) 0 8 = segmentMagic ∧
      slice (segmentFields database segment) 8 2 = leBytes 2 1 ∧
      slice (segmentFields database segment) 10 2 = leBytes 2 segmentHeaderLength ∧
      slice (segmentFields database segment) 12 4 = zeros 4 ∧
      slice (segmentFields database segment) 16 16 = database.1 ∧
      slice (segmentFields database segment) 32 8 = leBytes 8 segment.segmentId ∧
      slice (segmentFields database segment) 40 8 = leBytes 8 segment.firstSequence ∧
      slice (segmentFields database segment) 48 32 = segment.predecessorDigest.1 ∧
      slice (segmentFields database segment) 80 12 = zeros 12 := by
  simp [segmentFields, slice_append_right, slice_zero_append, slice_self]

omit [Crc32c] in
theorem length_segmentFields (database : Fixed 16) (segment : SegmentDescriptor) :
    (segmentFields database segment).length = 92 := by
  simp [segmentFields]

/-- The header of a segment without its padding. -/
def segmentHead (database : Fixed 16) (segment : SegmentDescriptor) : Bytes :=
  segmentFields database segment ++
    leBytes 4 (Crc32c.checksum (segmentFields database segment ++ zeros 4))

theorem length_segmentHead (database : Fixed 16) (segment : SegmentDescriptor) :
    (segmentHead database segment).length = segmentHeaderLength := by
  simp [segmentHead, length_segmentFields, segmentHeaderLength]

theorem segmentHeader_eq (database : Fixed 16) (segment : SegmentDescriptor) :
    segmentHeader database segment =
      segmentHead database segment ++ zeros (blockBytes - segmentHeaderLength) := by
  rw [segmentHeader, segmentHead, List.append_assoc]

theorem length_segmentHeader (database : Fixed 16) (segment : SegmentDescriptor) :
    (segmentHeader database segment).length = blockBytes := by
  rw [segmentHeader_eq, List.length_append, length_segmentHead, length_zeros]
  decide

/-- An encoded segment header passes the checks of its segment. -/
theorem validate_segmentHead {database : Fixed 16} {segment : SegmentDescriptor}
    (id : segment.segmentId < 2 ^ 64) (first : segment.firstSequence < 2 ^ 64) :
    validateSegmentHeader (segmentHead database segment) database segment = .ok () := by
  have length := length_segmentFields database segment
  have field : ∀ {offset width : Nat} {value : Bytes},
      slice (segmentFields database segment) offset width = value → offset + width ≤ 92 →
        slice (segmentHead database segment) offset width = value :=
    fun isValue inside => (slice_append_left _ (length ▸ inside)).trans isValue
  obtain ⟨magic, version, size, flags, isDatabase, isId, isFirst, isPredecessor, reserved⟩ :=
    segmentFields_slices database segment
  have version' := uintAt_of_slice (field version (by norm_num)) (by norm_num)
  have size' : uintAt 2 (segmentHead database segment) 10 = 96 :=
    uintAt_of_slice (field size (by norm_num)) (by decide)
  have flags' : uintAt 4 (segmentHead database segment) 12 = 0 :=
    uintAt_of_slice ((field flags (by norm_num)).trans (by decide)) (by norm_num)
  have isId' := uintAt_of_slice (field isId (by norm_num)) (lt_of_lt_of_le id (by norm_num))
  have isFirst' := uintAt_of_slice (field isFirst (by norm_num)) (lt_of_lt_of_le first (by norm_num))
  have crc : segmentCrcValid (segmentHead database segment) = true := by
    have isCrc : slice (segmentHead database segment) 92 4 =
        leBytes 4 (Crc32c.checksum (segmentFields database segment ++ zeros 4)) := by
      rw [segmentHead, slice_append_right _ _ length.le, length, Nat.sub_self, slice_self (length_leBytes _ _)]
    rw [segmentCrcValid, uintAt_of_slice isCrc (Crc32c.checksum_lt _), segmentHead,
      List.take_append_of_le_length length.ge, List.take_of_length_le length.le]
    exact decide_eq_true rfl
  unfold validateSegmentHeader checkVersion
  simp only [crc, field magic (by norm_num), version', size', flags', field isDatabase (by norm_num), isId',
    isFirst', field isPredecessor (by norm_num), field reserved (by norm_num), ne_eq, not_true_eq_false,
    or_self, ok_bind, refuse_false, Bool.true_eq_false]

/-- A file that starts with an encoded header block opens its segment. -/
theorem opens_segmentHeader {database : Fixed 16} {segment : SegmentDescriptor} (more : Bytes)
    (id : segment.segmentId < 2 ^ 64) (first : segment.firstSequence < 2 ^ 64) :
    Opens database (segmentHeader database segment ++ more) segment := by
  refine ⟨segmentHead database segment, zeros (blockBytes - segmentHeaderLength) ++ more, more, ?_,
    validate_segmentHead id first, readPadding_eq_ok.mpr ⟨Nat.sub_le _ _, rfl⟩⟩
  refine takeBytes_eq_ok.mpr ⟨?_, length_segmentHead database segment⟩
  rw [segmentHeader_eq, List.append_assoc]

end Headers

/-! ## Records of a group -/

section Group

variable [Crc32c] [Sha256]

/-- Valid records that follow each other, from the place behind a sequence and a
digest to the place behind the last of them. -/
inductive Consecutive : Nat → Digest → List Record → Nat → Digest → Prop
  | nil (sequence : Nat) (digest : Digest) : Consecutive sequence digest [] sequence digest
  | cons {previous last : Nat} {digest final : Digest} {record : Record} {rest : List Record}
      (next : record.sequence = previous + 1) (bound : record.sequence < maxU64)
      (valid : validateRecord record.bytes record.bytes.length record.sequence digest =
        .ok (record.bytes.length, record.digest))
      (more : Consecutive record.sequence record.digest rest last final) :
      Consecutive previous digest (record :: rest) last final

/-- The bytes of records. -/
def recordBytes (records : List Record) : Bytes := records.flatMap Record.bytes

theorem Consecutive.last_eq {previous last : Nat} {digest final : Digest} {records : List Record}
    (consecutive : Consecutive previous digest records last final) : last = previous + records.length := by
  induction consecutive with
  | nil => rfl
  | cons next _ _ _ ih =>
      rw [ih, next, List.length_cons]
      omega

/-- Opening a group and reading is reading inside the group. -/
theorem nextRecord_open {reader opened : Reader} {group : Group}
    (opening : openGroup reader = .ok (opened, group)) :
    nextRecord reader = nextRecord { opened with group := some group } := by
  rw [nextRecord, opening, nextRecord]
  rfl

/-- The records of a group are read in order, and the reader leaves the group
behind the last one. -/
theorem readRecords_group {previous last physical left : Nat} {digest final : Digest}
    {records : List Record} {reader : Reader} {group : Group} {more : Bytes}
    (consecutive : Consecutive previous digest records last final) (nonempty : records ≠ [])
    (inside : reader.group = some group) (count : group.records = records.length)
    (size : group.remaining = (recordBytes records).length) (ends : group.header.lastDigest = final)
    (isPhysical : groupBytes group.header.bytes = .ok physical)
    (input : reader.input = recordBytes records ++ (trailer group.header.bytes
      (sha256 (group.hashed ++ recordBytes records)) ++ (zeros (physical - group.header.bytes) ++ more)))
    (sequence : reader.sequence = previous + 1) (predecessor : reader.predecessor = digest)
    (within : last ≤ reader.last)
    (remaining : reader.remaining = (recordBytes records).length + trailerBytes +
      (physical - group.header.bytes) + left)
    (whole : last = reader.last → left = 0 ∧ final = reader.lastDigest) :
    readRecords records.length reader = .ok (records,
      ⟨more, left, last + 1, final, reader.last, reader.lastDigest, none⟩) := by
  have padding : physical - group.header.bytes ≤ blockBytes := by
    rw [(groupBytes_eq_ok isPhysical).1]
    unfold Metadata.divCeil blockBytes
    omega
  induction consecutive generalizing reader group with
  | nil => exact absurd rfl nonempty
  | @cons previous last digest final record rest next bound valid tail ih =>
      have opening : openGroup reader = .ok (reader, group) := by
        rw [openGroup, inside]
      have flat : recordBytes (record :: rest) = record.bytes ++ recordBytes rest := rfl
      rw [flat] at input size remaining
      rw [List.length_append] at size remaining
      rw [List.append_assoc] at input
      have read : readCanonical reader.input group.remaining reader.sequence reader.predecessor =
          .ok (record, recordBytes rest ++ (trailer group.header.bytes
            (sha256 (group.hashed ++ (record.bytes ++ recordBytes rest))) ++
              (zeros (physical - group.header.bytes) ++ more))) := by
        refine readCanonical_eq_ok.mpr ⟨input, by rw [sequence, next], by omega, ?_⟩
        rw [sequence, predecessor, ← next]
        exact valid
      cases rest with
      | nil =>
          cases tail
          have closing : closeGroup (reader.advance (group.advance record) record (recordBytes [] ++
              (trailer group.header.bytes (sha256 (group.hashed ++ (record.bytes ++ recordBytes []))) ++
                (zeros (physical - group.header.bytes) ++ more)))) (group.advance record) record.digest =
              .ok ⟨more, left, record.sequence + 1, record.digest, reader.last, reader.lastDigest, none⟩ := by
            refine closeGroup_eq_ok.mpr ⟨physical, more, ?_, ends.symm, isPhysical, padding, ?_, ?_⟩
            · show group.remaining - record.bytes.length = 0
              rw [size, Nat.add_sub_cancel_left]
              rfl
            · show trailer group.header.bytes (sha256 (group.hashed ++ (record.bytes ++ []))) ++
                (zeros (physical - group.header.bytes) ++ more) = _
              rw [List.append_nil]
              rfl
            · have rest : reader.remaining - record.bytes.length - trailerBytes -
                  (physical - group.header.bytes) = left := by
                have empty : (recordBytes []).length = 0 := rfl
                omega
              unfold Reader.advance
              simp only [Group.advance, rest, sequence, next]
          refine readRecords_succ.mpr ⟨record, _, [], nextRecord_eq_ok.mpr ⟨reader, group, _, opening, read,
            ?_, ?_⟩, rfl, rfl⟩
          · rw [leaveGroup, if_pos (show (group.advance record).records = 0 by
              rw [Group.advance, count]; rfl)]
            exact closing
          · intro past
            have past : record.sequence + 1 > reader.last := past
            obtain ⟨drained, isLast⟩ := whole (by omega)
            exact ⟨drained, rfl, isLast⟩
      | cons following others =>
          have advanced := @ih (reader.advance (group.advance record) record (recordBytes (following :: others) ++
              (trailer group.header.bytes (sha256 (group.hashed ++ (record.bytes ++
                recordBytes (following :: others)))) ++ (zeros (physical - group.header.bytes) ++ more))))
            (group.advance record) (List.cons_ne_nil _ _) rfl (by rw [Group.advance, count]; rfl)
            (by
              show group.remaining - record.bytes.length = _
              omega) ends isPhysical
            (by
              show _ = recordBytes (following :: others) ++ (trailer group.header.bytes (sha256
                ((group.hashed ++ record.bytes) ++ recordBytes (following :: others))) ++ _)
              rw [List.append_assoc]
              rfl)
            (by
              show reader.sequence + 1 = record.sequence + 1
              rw [sequence, next]) rfl within
            (by
              show reader.remaining - record.bytes.length = _
              have same : (group.advance record).header.bytes = group.header.bytes := rfl
              omega) whole padding
          refine readRecords_succ.mpr ⟨record, _, _, nextRecord_eq_ok.mpr ⟨reader, group, _, opening, read,
            ?_, ?_⟩, advanced, rfl⟩
          · rw [leaveGroup, if_neg (show (group.advance record).records ≠ 0 by
              rw [Group.advance, count]; exact Nat.succ_ne_zero _)]
          · intro past
            have past : reader.sequence + 1 > reader.last := past
            have final := tail.last_eq
            rw [List.length_cons] at final
            omega

/-- The header of a group of records. -/
def groupHeader (previous : Nat) (digest final : Digest) (records : List Record) : GroupHeader :=
  ⟨groupOverhead + (recordBytes records).length, previous + 1, records.length, digest, final⟩

/-- The bytes of a group of records. -/
def groupFrame (header : GroupHeader) (records : List Record) (physical : Nat) : Bytes :=
  frame (withCrc header.fields) (records.map Record.bytes) header.bytes physical

theorem groupFrame_eq (header : GroupHeader) (records : List Record) (physical : Nat) :
    groupFrame header records physical = withCrc header.fields ++ (recordBytes records ++
      (trailer header.bytes (sha256 (withCrc header.fields ++ recordBytes records)) ++
        zeros (physical - header.bytes))) := by
  rw [groupFrame, frame, recordBytes, List.flatMap_def]

/-- A framed group is as long as its padded length. -/
theorem length_groupFrame {previous physical : Nat} {digest final : Digest} {records : List Record}
    (isPhysical : groupBytes (groupHeader previous digest final records).bytes = .ok physical) :
    (groupFrame (groupHeader previous digest final records) records physical).length = physical := by
  have long := le_divCeil (groupHeader previous digest final records).bytes
  rw [← (groupBytes_eq_ok isPhysical).1] at long
  rw [groupFrame_eq]
  simp only [List.length_append, length_withCrc, length_fields, length_trailer, length_zeros]
  have total : (groupHeader previous digest final records).bytes =
    groupOverhead + (recordBytes records).length := rfl
  have overhead : groupOverhead = 112 + trailerBytes := by decide
  omega

/-- A framed group is read back. -/
theorem readRecords_frame {previous last physical left : Nat} {digest final lastDigest : Digest}
    {records : List Record} {more : Bytes} {limit : Nat}
    (consecutive : Consecutive previous digest records last final) (nonempty : records ≠ [])
    (valid : (groupHeader previous digest final records).Valid)
    (isPhysical : groupBytes (groupHeader previous digest final records).bytes = .ok physical)
    (within : last ≤ limit) (whole : last = limit → left = 0 ∧ final = lastDigest) :
    readRecords records.length ⟨groupFrame (groupHeader previous digest final records) records physical ++
        more, physical + left, previous + 1, digest, limit, lastDigest, none⟩ =
      .ok (records, ⟨more, left, last + 1, final, limit, lastDigest, none⟩) := by
  generalize isHeader : groupHeader previous digest final records = header at valid isPhysical ⊢
  have long := le_divCeil header.bytes
  rw [← (groupBytes_eq_ok isPhysical).1] at long
  have total : header.bytes = groupOverhead + (recordBytes records).length := by
    rw [← isHeader]
    rfl
  have overhead : groupOverhead = headerBytes + trailerBytes := by decide
  have count : header.count = records.length := by
    rw [← isHeader]
    rfl
  have isLast := consecutive.last_eq
  have opening : openGroup ⟨groupFrame header records physical ++ more, physical + left, previous + 1,
      digest, limit, lastDigest, none⟩ = .ok (⟨recordBytes records ++ (trailer header.bytes
        (sha256 (withCrc header.fields ++ recordBytes records)) ++
          (zeros (physical - header.bytes) ++ more)), physical + left - headerBytes, previous + 1,
      digest, limit, lastDigest, none⟩, ⟨header, header.bytes - groupOverhead, header.count,
        withCrc header.fields⟩) := by
    refine (openGroup_eq_ok rfl).mpr ⟨withCrc header.fields, _, header, physical, takeBytes_eq_ok.mpr
      ⟨?_, ?_⟩, GroupHeader.decode_fields valid, isPhysical, ?_, Nat.le_add_right _ _, ?_, ?_, ?_, rfl, rfl⟩
    · show groupFrame header records physical ++ more = _
      rw [groupFrame_eq]
      simp only [List.append_assoc]
    · rw [length_withCrc, length_fields]
      rfl
    · show groupOverhead ≤ physical + left
      omega
    · rw [← isHeader]
      rfl
    · rw [← isHeader]
      rfl
    · have first : header.first = previous + 1 := by
        rw [← isHeader]
        rfl
      show header.first + header.count - 1 ≤ limit
      omega
  obtain ⟨fewer, isCount⟩ : ∃ fewer, records.length = fewer + 1 :=
    ⟨records.length - 1, by have := List.length_pos_of_ne_nil nonempty; omega⟩
  have read := @readRecords_group _ _ previous last physical left digest final records
    ⟨recordBytes records ++ (trailer header.bytes
        (sha256 (withCrc header.fields ++ recordBytes records)) ++
          (zeros (physical - header.bytes) ++ more)), physical + left - headerBytes, previous + 1,
      digest, limit, lastDigest, some ⟨header, header.bytes - groupOverhead, header.count,
        withCrc header.fields⟩⟩ ⟨header, header.bytes - groupOverhead, header.count,
        withCrc header.fields⟩ more consecutive nonempty rfl count (by simp only; omega)
    (by rw [← isHeader]; rfl) isPhysical rfl rfl rfl within (by simp only; omega) whole
  rw [isCount] at read ⊢
  rw [readRecords, nextRecord_open opening]
  exact read

omit [Sha256] in
theorem Opens.append {database : Fixed 16} {file : Bytes} {segment : SegmentDescriptor}
    (opens : Opens database file segment) (more : Bytes) : Opens database (file ++ more) segment := by
  obtain ⟨header, input, rest, read, valid, padding⟩ := opens
  obtain ⟨short, rfl⟩ := readPadding_eq_ok.mp padding
  refine ⟨header, _, rest ++ more, readCommitted_append read, valid, readPadding_eq_ok.mpr ⟨short, ?_⟩⟩
  rw [List.append_assoc]

/-- A framed group behind a committed prefix is read and accepted. -/
theorem accepts_frame {database : Fixed 16} {before more : Bytes} {segment extended : SegmentDescriptor}
    {records : List Record} {last physical : Nat} {final : Digest}
    (opens : Opens database before segment) (exact : before.length = segment.committedBytes)
    (block : blockBytes ≤ segment.committedBytes) (aligned : segment.committedBytes % blockBytes = 0)
    (begins : segment.firstSequence ≤ segment.lastSequence + 1)
    (consecutive : Consecutive segment.lastSequence segment.lastDigest records last final)
    (nonempty : records ≠ [])
    (valid : (groupHeader segment.lastSequence segment.lastDigest final records).Valid)
    (isPhysical : groupBytes (groupHeader segment.lastSequence segment.lastDigest final records).bytes =
      .ok physical)
    (isExtended : extended = { segment with
      committedBytes := segment.committedBytes + physical, lastSequence := last, lastDigest := final })
    (descriptor : Metadata.Descriptor extended) :
    readSuffix (before ++ (groupFrame (groupHeader segment.lastSequence segment.lastDigest final records)
        records physical ++ more)) database extended segment.committedBytes (segment.lastSequence + 1)
        segment.lastDigest = .ok records ∧
      Accepts database (before ++ (groupFrame (groupHeader segment.lastSequence segment.lastDigest final
        records) records physical ++ more)) segment extended := by
  have isLast := consecutive.last_eq
  have some := List.length_pos_of_ne_nil nonempty
  have length := length_groupFrame isPhysical
  have committed : extended.committedBytes = segment.committedBytes + physical := by rw [isExtended]
  have last' : extended.lastSequence = last := by rw [isExtended]
  have final' : extended.lastDigest = final := by rw [isExtended]
  have first' : extended.firstSequence = segment.firstSequence := by rw [isExtended]
  have same : SameSegment segment extended := by
    rw [isExtended]
    exact ⟨rfl, rfl, rfl⟩
  generalize isHeader : groupHeader segment.lastSequence segment.lastDigest final records = header
    at valid isPhysical length ⊢
  have read : readSuffix (before ++ (groupFrame header records physical ++ more)) database extended
      segment.committedBytes (segment.lastSequence + 1) segment.lastDigest = .ok records := by
    refine readSuffix_eq_ok.mpr ⟨_, ⟨[], 0, last + 1, final, last, final, none⟩, suffix_eq_ok.mpr
      ⟨descriptor, (opens.append _).same same, block, by omega, by omega, by omega, aligned, rfl⟩, ?_⟩
    · have input : ((before ++ (groupFrame header records physical ++ more)).drop
          segment.committedBytes).take (extended.committedBytes - segment.committedBytes) =
          groupFrame header records physical ++ [] := by
        rw [← exact, List.drop_left, committed, ← exact, Nat.add_sub_cancel_left, List.append_nil,
          List.take_append_of_le_length length.ge, List.take_of_length_le length.le]
      have count : extended.lastSequence + 1 - (segment.lastSequence + 1) = records.length := by omega
      rw [input, count, last', final', committed, Nat.add_sub_cancel_left, ← isHeader]
      rw [← isHeader] at valid isPhysical
      exact readRecords_frame consecutive nonempty valid isPhysical le_rfl fun _ => ⟨rfl, rfl⟩
  refine ⟨read, ⟨header, physical, ?_, isPhysical, ?_, ?_, ?_, ?_⟩, eachSuffix_eq_ok.mpr ⟨records, read, ?_⟩⟩
  · have field : slice (before ++ (groupFrame header records physical ++ more)) segment.committedBytes
        headerBytes = withCrc header.fields := by
      rw [slice_append_right _ _ exact.le, exact, Nat.sub_self, groupFrame_eq, List.append_assoc]
      exact slice_zero_append _ (by rw [length_withCrc, length_fields]; rfl)
    rw [field]
    exact GroupHeader.decode_fields valid
  · rw [List.length_append, List.length_append, exact, length]
    omega
  · rw [← isHeader]
    rfl
  · rw [← isHeader]
    rfl
  · rw [isExtended, ← isHeader]
    have sequence : segment.lastSequence + 1 + records.length - 1 = last := by omega
    simp only [groupHeader, sequence]
  · exact List.foldlM_pure

/-! ## Gathered records -/

/-- What an append validated. -/
theorem gather_eq_ok {records : List (Nat × Bytes)} {start gathered : Gathered}
    (h : gather records start = .ok gathered) :
    ∃ list, Consecutive start.next.durableSequence start.next.durableDigest list
        gathered.next.durableSequence gathered.next.durableDigest ∧
      records = list.map (fun record => (record.sequence, record.bytes)) ∧
      gathered.group = start.group ++ list.map Record.bytes ∧
      gathered.digests = start.digests ++ list.map Record.digest ∧
      gathered.length = start.length + (recordBytes list).length ∧
      gathered.next = { start.next with
        durableSequence := gathered.next.durableSequence
        durableDigest := gathered.next.durableDigest } ∧
      (start.group.length ≤ maxGroupRecords → gathered.group.length ≤ maxGroupRecords) := by
  induction records generalizing start with
  | nil =>
      cases h
      exact ⟨[], .nil _ _, rfl, (List.append_nil _).symm, (List.append_nil _).symm, rfl, rfl, id⟩
  | cons record rest ih =>
      obtain ⟨sequence, bytes⟩ := record
      obtain ⟨_, place, h⟩ := bind_eq_ok.mp h
      obtain ⟨⟨consumed, digest⟩, valid, h⟩ := bind_eq_ok.mp h
      obtain ⟨_, whole, h⟩ := bind_eq_ok.mp h
      obtain ⟨_, _, h⟩ := bind_eq_ok.mp h
      obtain ⟨list, consecutive, rfl, group, digests, length, next, few⟩ := ih h
      have place := refuse_eq_ok.mp place
      simp only [not_or, not_not, ge_iff_le, not_le] at place
      obtain ⟨room, bound, follows⟩ := place
      have whole : consumed = bytes.length := not_not.mp (refuse_eq_ok.mp whole)
      subst whole
      refine ⟨⟨sequence, digest, bytes⟩ :: list, .cons follows.symm bound valid consecutive, rfl, ?_, ?_,
        ?_, next, fun small => few ?_⟩
      · rw [group, List.append_assoc]
        rfl
      · rw [digests, List.append_assoc]
        rfl
      · rw [length]
        show start.length + bytes.length + _ = start.length + (bytes ++ recordBytes list).length
        rw [List.length_append]
        omega
      · rw [List.length_append]
        exact Nat.succ_le_of_lt (lt_of_le_of_ne small room)

end Group

end BlopDb.Storage.Wal
