/-
# Metadata codecs are exact

Validation never overflows, whatever the fields are: every addition comes behind the
check that bounds it.  A decoder that accepts bytes has read exactly the fields its
encoder appends, and it reads its own encoding back.
-/

import BlopDb.Lib.Fields
import BlopDb.Lib.Safe
import BlopDb.Storage.MetadataCodec
import BlopDb.Storage.MetadataSpec
import BlopDb.Vm.OutcomeCodec

namespace BlopDb.Storage

open BlopDb.Lib

/-- The numbers of a descriptor are 64-bit numbers. -/
structure SegmentDescriptor.Representable (segment : SegmentDescriptor) : Prop where
  segmentId : segment.segmentId < 2 ^ 64
  firstSequence : segment.firstSequence < 2 ^ 64
  lastSequence : segment.lastSequence < 2 ^ 64
  committedBytes : segment.committedBytes < 2 ^ 64

/-- The numbers of a manifest are 64-bit numbers. -/
structure Manifest.Representable (manifest : Manifest) : Prop where
  generation : manifest.generation < 2 ^ 64
  pageFileId : manifest.pageFileId < 2 ^ 64
  pageCount : manifest.pageCount < 2 ^ 64
  checkpointSequence : manifest.checkpointSequence < 2 ^ 64
  durableSequence : manifest.durableSequence < 2 ^ 64
  historyFloor : manifest.historyFloor < 2 ^ 64
  logFloor : manifest.logFloor < 2 ^ 64
  nextCursorId : manifest.nextCursorId < 2 ^ 64
  nextSegmentId : manifest.nextSegmentId < 2 ^ 64
  nextPageFileId : manifest.nextPageFileId < 2 ^ 64
  roots : ∀ root ∈ manifest.roots.toList, root < 2 ^ 64
  segments : ∀ segment ∈ manifest.segments, segment.Representable

namespace Metadata

/-! ## Validation -/

section Wide

variable {ε : Type} {left right : Nat}

theorem addWide_of_lt (small : left + right < 2 ^ 128) :
    (addWide left right : Except (Fault ε) Nat) = .ok (left + right) := if_pos small

theorem mulWide_of_lt (small : left * right < 2 ^ 128) :
    (mulWide left right : Except (Fault ε) Nat) = .ok (left * right) := if_pos small

end Wide

theorem divCeil_le (number divisor : Nat) : divCeil number divisor ≤ number + divisor := by
  unfold divCeil
  exact (Nat.div_le_self _ _).trans (Nat.sub_le _ _)

/-- A refusal of either of two conditions refuses one after the other. -/
theorem refuse_or {ε : Type} (first second : Prop) [Decidable first] [Decidable second] (error : ε) :
    refuse (first ∨ second) error = refuse first error >>= fun _ => refuse second error := by
  by_cases holds : first
  · rw [refuse_of _ (.inl holds), refuse_of _ holds, error_bind]
  · rw [refuse_of_not _ holds, ok_bind]
    by_cases other : second
    · rw [refuse_of _ (.inr other), refuse_of _ other]
    · rw [refuse_of_not _ other, refuse_of_not _ (by tauto)]

/-- The record range of a descriptor is small enough for every product. -/
theorem Checked.validateDescriptor_eq (segment : SegmentDescriptor) :
    Checked.validateDescriptor segment = raise id (Metadata.validateDescriptor segment) := by
  unfold Checked.validateDescriptor Metadata.validateDescriptor
  simp only [raise_bind]
  refine bind_congr_ok fun _ _ => bind_congr_ok fun _ range => ?_
  obtain ⟨-, ⟨-, last⟩, ordered⟩ : ValidId segment.firstSequence ∧ ValidId segment.lastSequence ∧
      segment.firstSequence ≤ segment.lastSequence := by
    simpa only [raise_eq_ok, refuse_eq_ok, not_or, not_not, not_lt, gt_iff_lt] using range
  simp only [maxU64] at last
  have few : segment.lastSequence - segment.firstSequence + 1 < 2 ^ 64 := by omega
  rw [subChecked_of_le ordered, ok_bind, addChecked_of_lt few, ok_bind]
  generalize segment.lastSequence - segment.firstSequence + 1 = records at few
  have groups : divCeil records maxGroupRecords * groupOverhead ≤ (records + 64) * 168 :=
    Nat.mul_le_mul_right 168 (divCeil_le records 64)
  have least : divCeil (records * 72 + divCeil records maxGroupRecords * groupOverhead) blockBytes * blockBytes ≤
      (records * 72 + divCeil records maxGroupRecords * groupOverhead + 4096) * 4096 :=
    Nat.mul_le_mul_right 4096 (divCeil_le _ 4096)
  have most : records * divCeil (maxRecordLength + groupOverhead) blockBytes = records * 16385 := rfl
  have block : blockBytes = 4096 := rfl
  have total : records * divCeil (maxRecordLength + groupOverhead) blockBytes * blockBytes =
    records * 16385 * 4096 := rfl
  rw [mulWide_of_lt (by omega), ok_bind, mulWide_of_lt (by omega), ok_bind, addWide_of_lt (by omega), ok_bind,
    mulWide_of_lt (by omega), ok_bind, mulWide_of_lt (by omega), ok_bind, mulWide_of_lt (by omega),
    ok_bind, addWide_of_lt (by omega), ok_bind, addWide_of_lt (by omega), ok_bind]
  by_cases aligned : segment.committedBytes % blockBytes ≠ 0
  · rw [if_pos aligned, refuse_of _ (.inl aligned)]
    rfl
  · rw [if_neg aligned, refuse_or, refuse_of_not _ aligned, ok_bind]
    rfl

/-- No sequence of the walk overflows: a checked descriptor ends below the largest one. -/
theorem Checked.validateSegments_eq {manifest : Manifest} (bound : manifest.checkpointSequence < maxU64)
    (segments : List SegmentDescriptor) (nextSequence previousId : Nat) (predecessor : Option Digest) :
    Checked.validateSegments manifest segments nextSequence previousId predecessor =
      raise id (Metadata.validateSegments manifest segments nextSequence previousId predecessor) := by
  simp only [maxU64] at bound
  induction segments generalizing nextSequence previousId predecessor with
  | nil => rfl
  | cons segment rest ih =>
      simp only [Checked.validateSegments, Metadata.validateSegments, raise_bind,
        Checked.validateDescriptor_eq]
      refine bind_congr_ok fun _ valid => bind_congr_ok fun _ _ => bind_congr_ok fun _ _ =>
        bind_congr_ok fun _ _ => ?_
      have last := (validateDescriptor_eq_ok.mp (raise_eq_ok.mp valid)).last.2
      simp only [maxU64] at last
      rw [addChecked_of_lt (by omega), ok_bind]
      refine bind_congr_ok fun _ _ => ?_
      rw [addChecked_of_lt (by omega), ok_bind]
      exact ih _ _ _

theorem Checked.floorDigest_eq {manifest : Manifest} (bound : manifest.checkpointSequence < maxU64) :
    Checked.floorDigest manifest = .ok (Metadata.floorDigest manifest) := by
  simp only [maxU64] at bound
  unfold Checked.floorDigest Metadata.floorDigest
  by_cases first : manifest.logFloor = 1
  · rw [if_pos first, if_pos first]
  · rw [if_neg first, if_neg first, addChecked_of_lt (by omega), ok_bind, pure_eq_ok]

theorem Checked.validateFrontiers_eq (manifest : Manifest) :
    Checked.validateFrontiers manifest = raise id (Metadata.validateFrontiers manifest) := by
  unfold Checked.validateFrontiers Metadata.validateFrontiers
  simp only [raise_bind]
  refine bind_congr_ok fun _ frontiers => ?_
  obtain ⟨durable, -, checkpoint⟩ : manifest.durableSequence < maxU64 ∧
      manifest.historyFloor ≤ manifest.checkpointSequence ∧
      manifest.checkpointSequence ≤ manifest.durableSequence := by
    simpa only [raise_eq_ok, refuse_eq_ok, not_or, not_le, not_lt, gt_iff_lt, ge_iff_le] using frontiers
  simp only [maxU64] at durable
  rw [addChecked_of_lt (by omega), refuse_or (manifest.logFloor = 0), raise_bind]
  simp only [ok_bind, bind_assoc]

theorem Checked.validateLog_eq {manifest : Manifest} (frontiers : Frontiers manifest) :
    Checked.validateLog manifest = raise id (Metadata.validateLog manifest) := by
  have durable := frontiers.durable
  have checkpoint := lt_of_le_of_lt frontiers.checkpoint durable
  unfold Checked.validateLog Metadata.validateLog
  simp only [maxU64] at durable
  rw [addChecked_of_lt (by omega)]
  by_cases empty : manifest.segments = []
  · rw [if_pos empty, if_pos empty, refuse_or, raise_bind]
    simp only [ok_bind]
  · rw [if_neg empty, if_neg empty, Checked.floorDigest_eq checkpoint, ok_bind,
      Checked.validateSegments_eq checkpoint, raise_bind]
    simp only [ok_bind]

/-- Validation returns what it returns over unbounded numbers, for all fields. -/
theorem Checked.validateManifest_eq (manifest : Manifest) :
    Checked.validateManifest manifest = raise id (Metadata.validateManifest manifest) := by
  unfold Checked.validateManifest Metadata.validateManifest
  simp only [raise_bind, Checked.validateFrontiers_eq]
  refine bind_congr_ok fun _ _ => bind_congr_ok fun _ frontiers => ?_
  exact Checked.validateLog_eq (validateFrontiers_eq_ok.mp (raise_eq_ok.mp frontiers))

/-! ## Common fields -/

theorem fixedAt_of_le {ε : Type} {length offset : Nat} {bytes : Bytes} (inside : offset + length ≤ bytes.length) :
    (fixedAt length bytes offset : Except (Fault ε) (Fixed length)) = .ok (arrayAt length bytes offset) := by
  have exact : (slice bytes offset length).length = length := by
    rw [length_slice]
    omega
  rw [fixedAt, readAt_of_le inside, ok_bind, dif_pos exact, arrayAt, dif_pos exact]

/-- A check that passes or reports. -/
theorem check {bad : Prop} [Decidable bad] (error : Error) :
    Safe (raise id (refuse bad error)) (fun _ => ¬ bad) fun _ => True :=
  .raise (fun _ passed => refuse_eq_ok.mp passed) fun _ _ => trivial

theorem length_metadataPrefix {magic : Bytes} (exact : magic.length = 8) (length : Nat) :
    (metadataPrefix magic length).length = 16 := by
  simp [metadataPrefix, exact]

section Sealed

variable [Crc32c]

/-- A magic, the length of the whole, contents and a checksum. -/
def sealed (magic contents : Bytes) : Bytes :=
  appendCrc (metadataPrefix magic (contents.length + 20) ++ contents)

theorem length_sealed {magic : Bytes} (exact : magic.length = 8) (contents : Bytes) :
    (sealed magic contents).length = contents.length + 20 := by
  rw [sealed, appendCrc, List.length_append, List.length_append, length_metadataPrefix exact, length_leBytes]
  omega

/-- A field of the contents. -/
theorem slice_sealed {magic : Bytes} (exact : magic.length = 8) {contents : Bytes} {offset width : Nat}
    (past : 16 ≤ offset) (inside : offset + width ≤ contents.length + 16) :
    slice (sealed magic contents) offset width = slice contents (offset - 16) width := by
  have lead := length_metadataPrefix exact (contents.length + 20)
  rw [sealed, appendCrc, slice_append_left _ (by rw [List.length_append, lead]; omega),
    slice_append_right _ _ (by omega), lead]

/-- The fields at the front of the contents. -/
theorem fields_sealed {magic : Bytes} (exact : magic.length = 8) {parts : List Bytes} {widths : List Nat}
    (widthsOf : parts.map List.length = widths) (rest : Bytes) :
    fields widths 16 (sealed magic (parts.flatten ++ rest)) = parts := by
  have found := fields_flatten widthsOf (metadataPrefix magic ((parts.flatten ++ rest).length + 20))
    (rest ++ leBytes 4 (Crc32c.checksum
      (metadataPrefix magic ((parts.flatten ++ rest).length + 20) ++ (parts.flatten ++ rest))))
  rw [length_metadataPrefix exact] at found
  rw [sealed, appendCrc, List.append_assoc, List.append_assoc]
  exact found

/-- The common fields pass exactly on sealed contents of a legal length. -/
theorem checkMetadata_safe {bytes magic : Bytes} (format : String)
    {minimum maximum : Nat} (enough : 20 ≤ minimum) :
    Safe (checkMetadata bytes magic format minimum maximum)
      (fun _ => minimum ≤ bytes.length ∧ bytes.length ≤ maximum ∧ ∃ contents, bytes = sealed magic contents)
      fun _ => True := by
  refine (check _).bind fun _ length => ?_
  have length : minimum ≤ bytes.length ∧ bytes.length ≤ maximum := not_not.mp length
  refine .bind_subChecked (by omega) (.bind_of_eq (readAt_of_le (by omega)) (.bind_of_eq
    (numberAt_of_le (by omega)) ((check _).bind fun _ crc => .bind_of_eq (readAt_of_le (by omega))
    ((check _).bind fun _ found => .bind_of_eq (numberAt_of_le (by omega)) ((check _).bind fun _ version =>
    .bind_of_eq (numberAt_of_le (by omega)) ((check _).bind fun _ flags =>
    .bind_of_eq (numberAt_of_le (by omega)) ((check _).weaken fun _ total => ?_)))))))
  refine ⟨length.1, length.2, slice bytes 16 (bytes.length - 20), ?_⟩
  rw [not_not] at crc found version flags total
  have contents : (slice bytes 16 (bytes.length - 20)).length + 20 = bytes.length := by
    rw [length_slice]
    omega
  have parts : fields [8, 2, 2, 4, bytes.length - 20] 0 bytes =
      [magic, leBytes 2 1, leBytes 2 0, leBytes 4 bytes.length, slice bytes 16 (bytes.length - 20)] := by
    simp only [fields, Nat.zero_add, Nat.reduceAdd, found, slice_of_uintAt version (by omega),
      slice_of_uintAt flags (by omega), slice_of_uintAt total (by omega)]
  have covered : metadataPrefix magic bytes.length ++ slice bytes 16 (bytes.length - 20) =
      slice bytes 0 (bytes.length - 4) := by
    have cut := flatten_fields [8, 2, 2, 4, bytes.length - 20] 0 bytes
    have width : [8, 2, 2, 4, bytes.length - 20].sum = bytes.length - 4 := by
      simp only [List.sum_cons, List.sum_nil]
      omega
    rw [width, parts] at cut
    rw [← cut, metadataPrefix]
    simp
  rw [sealed, contents, covered, appendCrc, crc, leBytes_uintAt (by omega)]
  have cut := slice_add bytes 0 (bytes.length - 4) 4
  rw [Nat.zero_add] at cut
  rw [← cut, slice_self (by omega)]

/-- Sealed contents of a legal length pass. -/
theorem checkMetadata_sealed {magic : Bytes} (exact : magic.length = 8) (contents : Bytes) (format : String)
    {minimum maximum : Nat} (lower : minimum ≤ contents.length + 20) (upper : contents.length + 20 ≤ maximum)
    (small : maximum < 2 ^ 32) : checkMetadata (sealed magic contents) magic format minimum maximum = .ok () := by
  have length := length_sealed exact contents
  have lead := length_metadataPrefix exact (contents.length + 20)
  have covered : slice (sealed magic contents) 0 (contents.length + 16) =
      metadataPrefix magic (contents.length + 20) ++ contents := by
    rw [sealed, appendCrc, slice_zero_append]
    rw [List.length_append, lead]
    omega
  have crc : uintAt 4 (sealed magic contents) (contents.length + 16) =
      Crc32c.checksum (metadataPrefix magic (contents.length + 20) ++ contents) := by
    refine uintAt_of_field ?_ (Crc32c.checksum_lt _)
    rw [sealed, appendCrc, slice_append_right _ _ (by rw [List.length_append, lead]; omega), List.length_append,
      lead, show contents.length + 16 - (16 + contents.length) = 0 by omega, slice_self (length_leBytes _ _)]
  have parts : fields [8, 2, 2, 4] 0 (sealed magic contents) =
      [magic, leBytes 2 1, leBytes 2 0, leBytes 4 (contents.length + 20)] := by
    have front : sealed magic contents =
        [magic, leBytes 2 1, leBytes 2 0, leBytes 4 (contents.length + 20)].flatten ++ (contents ++
          leBytes 4 (Crc32c.checksum (metadataPrefix magic (contents.length + 20) ++ contents))) := by
      simp [sealed, appendCrc, metadataPrefix]
    rw [front]
    exact fields_zero (by simp [exact]) _
  simp only [fields, List.cons.injEq, Nat.zero_add, and_true] at parts
  obtain ⟨found, version, flags, total⟩ := parts
  rw [checkMetadata, length, refuse_of_not _ (by omega), raise_ok, ok_bind, subChecked_of_le (by omega), ok_bind,
    show contents.length + 20 - 4 = contents.length + 16 by omega, readAt_of_le (by omega), ok_bind,
    numberAt_of_le (by omega), ok_bind, covered, crc, refuse_of_not _ (by simp), raise_ok, ok_bind,
    readAt_of_le (by omega), ok_bind, found, refuse_of_not _ (by simp), raise_ok, ok_bind,
    numberAt_of_le (by omega), ok_bind, uintAt_of_field version (by norm_num), refuse_of_not _ (by simp), raise_ok,
    ok_bind, numberAt_of_le (by omega), ok_bind, uintAt_of_field flags (by norm_num), refuse_of_not _ (by simp),
    raise_ok, ok_bind, numberAt_of_le (by omega), ok_bind, uintAt_of_field total (by omega),
    refuse_of_not _ (by simp), raise_ok]

end Sealed

/-! ## Policies -/

theorem numbersAt_of_le {bytes : Bytes} {offsets : List Nat} (inside : ∀ offset ∈ offsets, offset + 8 ≤ bytes.length) :
    numbersAt bytes offsets = .ok (offsets.map (uintAt 8 bytes)) := by
  induction offsets with
  | nil => rfl
  | cons offset offsets ih =>
      obtain ⟨here, rest⟩ := List.forall_mem_cons.mp inside
      rw [numbersAt, numberAt_of_le here, ok_bind, ih rest, ok_bind, pure_eq_ok, List.map_cons]

theorem decodeValues_eq (bytes : Bytes) :
    LimitPolicy.decodeValues bytes = ((List.range 17).map fun index => 4 + index * 8).map (uintAt 8 bytes) := by
  rw [List.map_map]
  rfl

/-- Reading at fixed offsets never leaves a policy. -/
theorem read_eq_decode (bytes : Bytes) : LimitPolicy.read bytes = raise id (LimitPolicy.decode bytes) := by
  unfold LimitPolicy.read LimitPolicy.decode
  by_cases length : bytes.length ≠ policyLength
  · rw [refuse_of _ length, if_pos (show bytes.length ≠ 140 from length)]
    rfl
  have inside : bytes.length = 140 := not_not.mp length
  have offsets : ∀ offset ∈ (List.range 17).map fun index => 4 + index * 8, offset + 8 ≤ bytes.length := by
    intro offset member
    obtain ⟨index, known, rfl⟩ := List.mem_map.mp member
    have := List.mem_range.mp known
    omega
  rw [refuse_of_not _ length, if_neg (show ¬ bytes.length ≠ 140 from length), raise_ok, ok_bind,
    numberAt_of_le (by omega), ok_bind, show leNat (bytes.take 2) = uintAt 2 bytes 0 from rfl]
  by_cases version : uintAt 2 bytes 0 ≠ 1
  · rw [refuse_of _ version, if_pos version]
    rfl
  rw [refuse_of_not _ version, if_neg version, raise_ok, ok_bind, numberAt_of_le (by omega), ok_bind,
    show leNat ((bytes.drop 2).take 2) = uintAt 2 bytes 2 from rfl]
  by_cases reserved : uintAt 2 bytes 2 ≠ 0
  · rw [refuse_of _ reserved, if_pos reserved]
    rfl
  rw [refuse_of_not _ reserved, if_neg reserved, raise_ok, ok_bind, numbersAt_of_le offsets, ok_bind,
    ← decodeValues_eq]
  have count : (LimitPolicy.decodeValues bytes).length = 17 := by simp [LimitPolicy.decodeValues]
  by_cases legal : exceedsCeilings (LimitPolicy.decodeValues bytes) = false
  · rw [dif_pos legal, dif_pos ⟨count, legal⟩, raise_ok]
  · rw [dif_neg legal, dif_neg (fun both => legal both.2)]
    rfl

/-- Consecutive numbers are encoded as the range they were read from. -/
theorem flatMap_uintAt {bytes : Bytes} {start count : Nat} (inside : start + 8 * count ≤ bytes.length) :
    ((List.range count).map fun index => uintAt 8 bytes (start + index * 8)).flatMap (leBytes 8) =
      slice bytes start (8 * count) := by
  induction count with
  | zero => simp
  | succ count ih =>
      rw [List.range_succ, List.map_append, List.flatMap_append, ih (by omega), Nat.mul_succ, slice_add,
        Nat.mul_comm 8 count]
      simp only [List.map_cons, List.map_nil, List.flatMap_cons, List.flatMap_nil, List.append_nil]
      rw [leBytes_uintAt (by omega)]

/-- An accepted policy has the bytes it was read from. -/
theorem encode_of_decode {bytes : Bytes} {policy : LimitPolicy} (decoded : LimitPolicy.decode bytes = .ok policy) :
    policy.encode = bytes := by
  unfold LimitPolicy.decode at decoded
  split_ifs at decoded with length version reserved legal
  cases decoded
  have inside : bytes.length = 140 := not_not.mp length
  have versionField : slice bytes 0 2 = leBytes 2 1 := slice_of_uintAt (not_not.mp version) (by omega)
  have reservedField : slice bytes 2 2 = leBytes 2 0 := slice_of_uintAt (not_not.mp reserved) (by omega)
  have values : (LimitPolicy.decodeValues bytes).flatMap (leBytes 8) = slice bytes 4 136 :=
    flatMap_uintAt (by omega)
  rw [LimitPolicy.encode, values, ← versionField, ← reservedField, ← slice_add, ← slice_add, slice_self inside]

/-! ## Descriptors -/

/-- The fields of a descriptor. -/
def descriptorParts (segment : SegmentDescriptor) : List Bytes :=
  [leBytes 8 segment.segmentId, leBytes 8 segment.firstSequence, leBytes 8 segment.lastSequence,
    leBytes 8 segment.committedBytes, segment.predecessorDigest.1, segment.lastDigest.1]

theorem appendDescriptor_eq (segment : SegmentDescriptor) :
    appendDescriptor segment = (descriptorParts segment).flatten := by
  simp [appendDescriptor, descriptorParts]

theorem descriptorParts_widths (segment : SegmentDescriptor) :
    (descriptorParts segment).map List.length = [8, 8, 8, 8, 32, 32] := by
  simp [descriptorParts, segment.predecessorDigest.2, segment.lastDigest.2]

theorem length_appendDescriptor (segment : SegmentDescriptor) :
    (appendDescriptor segment).length = descriptorLength := by
  rw [appendDescriptor_eq, List.length_flatten, descriptorParts_widths]
  rfl

/-- An accepted descriptor has the bytes it was read from. -/
theorem decodeDescriptor_safe (bytes : Bytes) :
    Safe (SegmentDescriptor.decode bytes)
      (fun segment => segment.Representable ∧ Metadata.validateDescriptor segment = .ok () ∧
        appendDescriptor segment = bytes) fun _ => True := by
  refine (check _).bind fun _ length => ?_
  have length : bytes.length = 96 := not_not.mp length
  refine .bind_of_eq (numberAt_of_le (by omega)) (.bind_of_eq (numberAt_of_le (by omega))
    (.bind_of_eq (numberAt_of_le (by omega)) (.bind_of_eq (numberAt_of_le (by omega))
    (.bind_of_eq (fixedAt_of_le (by omega)) (.bind_of_eq (fixedAt_of_le (by omega)) ?_)))))
  simp only [Checked.validateDescriptor_eq, relay_raise]
  refine (Safe.raise (fun _ valid => valid) fun _ _ => trivial).bind fun _ valid => .ret ⟨?_, valid, ?_⟩
  · exact ⟨uintAt_lt 8 _ _, uintAt_lt 8 _ _, uintAt_lt 8 _ _, uintAt_lt 8 _ _⟩
  · rw [appendDescriptor_eq, descriptorParts]
    simp only [leBytes_uintAt (show 0 + 8 ≤ bytes.length by omega), leBytes_uintAt (show 8 + 8 ≤ bytes.length by omega),
      leBytes_uintAt (show 16 + 8 ≤ bytes.length by omega), leBytes_uintAt (show 24 + 8 ≤ bytes.length by omega),
      arrayAt_val (show 32 + 32 ≤ bytes.length by omega), arrayAt_val (show 64 + 32 ≤ bytes.length by omega)]
    exact (flatten_fields [8, 8, 8, 8, 32, 32] 0 bytes).trans (slice_self length)

theorem decodeDescriptor_append {segment : SegmentDescriptor} (representable : segment.Representable)
    (valid : Metadata.validateDescriptor segment = .ok ()) :
    SegmentDescriptor.decode (appendDescriptor segment) = .ok segment := by
  have length : (appendDescriptor segment).length = 96 := length_appendDescriptor segment
  have parts : fields [8, 8, 8, 8, 32, 32] 0 (appendDescriptor segment) = descriptorParts segment := by
    have found := fields_zero (descriptorParts_widths segment) []
    rwa [List.append_nil, ← appendDescriptor_eq] at found
  simp only [fields, descriptorParts, List.cons.injEq, Nat.zero_add, Nat.reduceAdd, and_true] at parts
  obtain ⟨id, first, last, committed, predecessor, digest⟩ := parts
  rw [SegmentDescriptor.decode, refuse_of_not _ (by simp [length, descriptorLength]), raise_ok, ok_bind,
    numberAt_of_le (by omega), ok_bind, numberAt_of_le (by omega), ok_bind, numberAt_of_le (by omega), ok_bind,
    numberAt_of_le (by omega), ok_bind, fixedAt_of_le (by omega), ok_bind, fixedAt_of_le (by omega), ok_bind,
    uintAt_of_field id representable.segmentId, uintAt_of_field first representable.firstSequence,
    uintAt_of_field last representable.lastSequence, uintAt_of_field committed representable.committedBytes,
    arrayAt_eq predecessor, arrayAt_eq digest]
  simp only [Checked.validateDescriptor_eq, valid, raise_ok, relay_ok, ok_bind, pure_eq_ok]

/-! ## Descriptor vectors -/

theorem fields_replicate (count width offset : Nat) (bytes : Bytes) :
    fields (List.replicate count width) offset bytes =
      (List.range count).map fun index => slice bytes (offset + index * width) width := by
  induction count generalizing offset with
  | zero => rfl
  | succ count ih =>
      rw [List.replicate_succ, fields, ih, List.range_succ_eq_map, List.map_cons, List.map_map, Nat.zero_mul,
        Nat.add_zero]
      refine congrArg _ (List.map_congr_left fun index _ => ?_)
      rw [Function.comp_apply, Nat.succ_mul, Nat.add_right_comm, Nat.add_assoc]

/-- The chunks of whole multiples are fields of one width. -/
theorem chunks_eq_fields {width count : Nat} {bytes : Bytes} (length : bytes.length = count * width)
    (positive : 0 < width) : chunks width bytes = fields (List.replicate count width) 0 bytes := by
  rw [chunks, length, Nat.mul_div_cancel _ positive, fields_replicate]
  simp only [Nat.zero_add]

theorem flatten_chunks {width count : Nat} {bytes : Bytes} (length : bytes.length = count * width)
    (positive : 0 < width) : (chunks width bytes).flatten = bytes := by
  rw [chunks_eq_fields length positive, flatten_fields, List.sum_replicate, smul_eq_mul, slice_self length]

theorem chunks_flatten {width : Nat} (positive : 0 < width) {blocks : List Bytes}
    (exact : ∀ block ∈ blocks, block.length = width) : chunks width blocks.flatten = blocks := by
  have widths : blocks.map List.length = List.replicate blocks.length width :=
    List.eq_replicate_iff.mpr ⟨List.length_map _, by simpa using exact⟩
  have length : blocks.flatten.length = blocks.length * width := by
    rw [List.length_flatten, widths, List.sum_replicate, smul_eq_mul]
  have found := fields_zero widths []
  rw [List.append_nil] at found
  rw [chunks_eq_fields length positive, found]

theorem decodeDescriptors_safe (parts : List Bytes) :
    Safe (decodeDescriptors parts)
      (fun segments => (∀ segment ∈ segments, segment.Representable) ∧ segments.map appendDescriptor = parts)
      fun _ => True := by
  induction parts with
  | nil => exact .ok ⟨List.forall_mem_nil _, rfl⟩
  | cons part parts ih =>
      refine (decodeDescriptor_safe part).bind fun segment ⟨representable, _, same⟩ =>
        ih.bind fun segments ⟨others, rest⟩ => .ret ⟨?_, ?_⟩
      · exact List.forall_mem_cons.mpr ⟨representable, others⟩
      · rw [List.map_cons, same, rest]

theorem decodeDescriptors_append {segments : List SegmentDescriptor}
    (representable : ∀ segment ∈ segments, segment.Representable)
    (valid : ∀ segment ∈ segments, Descriptor segment) :
    decodeDescriptors (segments.map appendDescriptor) = .ok segments := by
  induction segments with
  | nil => rfl
  | cons segment segments ih =>
      obtain ⟨here, rest⟩ := List.forall_mem_cons.mp representable
      obtain ⟨descriptor, others⟩ := List.forall_mem_cons.mp valid
      rw [List.map_cons, decodeDescriptors,
        decodeDescriptor_append here (validateDescriptor_eq_ok.mpr descriptor), ok_bind, ih rest others, ok_bind,
        pure_eq_ok]

/-! ## The current pointer -/

/-- What a current pointer encloses. -/
def currentParts (current : Current) : List Bytes :=
  [leBytes 8 current.generation, current.digest.1, leBytes 4 0]

theorem currentParts_widths (current : Current) : (currentParts current).map List.length = [8, 32, 4] := by
  simp [currentParts, current.digest.2]

theorem length_currentParts (current : Current) : (currentParts current).flatten.length = 44 := by
  rw [List.length_flatten, currentParts_widths]
  rfl

/-- What a genesis record encloses. -/
def genesisParts (genesis : Genesis) : List Bytes :=
  [genesis.databaseId.1, leBytes 4 policyLength, genesis.initialPolicy.encode]

theorem genesisParts_widths (genesis : Genesis) : (genesisParts genesis).map List.length = [16, 4, 140] := by
  simp [genesisParts, genesis.databaseId.2]

theorem length_genesisParts (genesis : Genesis) : (genesisParts genesis).flatten.length = 160 := by
  rw [List.length_flatten, genesisParts_widths]
  rfl

section Formats

variable [Crc32c]

/-- The fields written over zeros are the sealed contents. -/
theorem encodeCurrent_eq {current : Current} (valid : ValidId current.generation) :
    current.encode = .ok (sealed Current.magic (currentParts current).flatten) := by
  have digest := current.digest.2
  have layout : zeros 64 = zeros 8 ++ (zeros 2 ++ (zeros 2 ++ (zeros 4 ++ (zeros 8 ++ (zeros 32 ++
      (zeros 4 ++ zeros 4)))))) := by
    simp [← zeros_add]
  have first (right : Bytes) : (writeAt (zeros 8 ++ right) 0 Current.magic : Except (Fault Error) Bytes) =
      .ok (Current.magic ++ right) := writeAt_zero_append right rfl
  have second (right : Bytes) :
      (writeAt (Current.magic ++ (zeros 2 ++ right)) 8 (leBytes 2 1) : Except (Fault Error) Bytes) =
        .ok (Current.magic ++ (leBytes 2 1 ++ right)) := writeAt_field _ right rfl rfl
  have third (right : Bytes) :
      (writeAt (Current.magic ++ (leBytes 2 1 ++ (zeros 2 ++ (zeros 4 ++ right)))) 12 (leBytes 4 64) :
          Except (Fault Error) Bytes) =
        .ok (Current.magic ++ (leBytes 2 1 ++ (zeros 2 ++ (leBytes 4 64 ++ right)))) :=
    writeAt_field (Current.magic ++ (leBytes 2 1 ++ zeros 2)) right rfl rfl
  have fourth (right : Bytes) :
      (writeAt (Current.magic ++ (leBytes 2 1 ++ (zeros 2 ++ (leBytes 4 64 ++ (zeros 8 ++ right))))) 16
          (leBytes 8 current.generation) : Except (Fault Error) Bytes) =
        .ok (Current.magic ++ (leBytes 2 1 ++ (zeros 2 ++ (leBytes 4 64 ++
          (leBytes 8 current.generation ++ right))))) :=
    writeAt_field (Current.magic ++ (leBytes 2 1 ++ (zeros 2 ++ leBytes 4 64))) right rfl rfl
  have lead := length_metadataPrefix (show Current.magic.length = 8 from rfl) 64
  have fifth (right : Bytes) :
      (writeAt (metadataPrefix Current.magic 64 ++ (leBytes 8 current.generation ++ (zeros 32 ++ right))) 24
          current.digest.1 : Except (Fault Error) Bytes) =
        .ok (metadataPrefix Current.magic 64 ++ (leBytes 8 current.generation ++ (current.digest.1 ++ right))) := by
    have written : (writeAt (metadataPrefix Current.magic 64 ++ leBytes 8 current.generation ++
        (zeros 32 ++ right)) 24 current.digest.1 : Except (Fault Error) Bytes) =
          .ok (metadataPrefix Current.magic 64 ++ leBytes 8 current.generation ++ (current.digest.1 ++ right)) :=
      writeAt_field _ right (by rw [List.length_append, lead, length_leBytes]) digest.symm
    simp only [List.append_assoc] at written
    exact written
  have covered : (metadataPrefix Current.magic 64 ++ (currentParts current).flatten).length = 60 := by
    rw [List.length_append, lead, length_currentParts]
  have assembled : metadataPrefix Current.magic 64 ++ (leBytes 8 current.generation ++ (current.digest.1 ++
      (zeros 4 ++ zeros 4))) = metadataPrefix Current.magic 64 ++ (currentParts current).flatten ++ zeros 4 := by
    have reserved : leBytes 4 0 = zeros 4 := rfl
    simp [currentParts, reserved]
  rw [Current.encode, refuse_of_not _ (not_not.mpr valid), raise_ok, ok_bind, layout, first, ok_bind, second,
    ok_bind, third, ok_bind, fourth, ok_bind]
  rw [show Current.magic ++ (leBytes 2 1 ++ (zeros 2 ++ (leBytes 4 64 ++ (leBytes 8 current.generation ++
      (zeros 32 ++ (zeros 4 ++ zeros 4)))))) = metadataPrefix Current.magic 64 ++ (leBytes 8 current.generation ++
      (zeros 32 ++ (zeros 4 ++ zeros 4))) from rfl, fifth, ok_bind, assembled,
    readAt_of_le (by rw [List.length_append, covered]; omega), ok_bind, slice_zero_append _ covered]
  generalize contents : metadataPrefix Current.magic 64 ++ (currentParts current).flatten = before at covered
  have sealing : (writeAt (before ++ (zeros 4 ++ [])) 60 (leBytes 4 (Crc32c.checksum before)) :
      Except (Fault Error) Bytes) = .ok (before ++ (leBytes 4 (Crc32c.checksum before) ++ [])) :=
    writeAt_field before [] covered.symm (length_leBytes 4 _).symm
  rw [List.append_nil, List.append_nil] at sealing
  rw [sealing, sealed, length_currentParts, contents, appendCrc]

theorem decodeCurrent_safe (bytes : Bytes) :
    Safe (Current.decode bytes) (fun current => current.encode = .ok bytes ∧ bytes.length = 64) fun _ => True := by
  refine (checkMetadata_safe "current" (by decide)).bind fun _ ⟨lower, upper, contents, same⟩ => ?_
  have length : bytes.length = 64 := by omega
  refine .bind_of_eq (numberAt_of_le (by omega)) ((check _).bind fun _ reserved => .bind_of_eq
    (numberAt_of_le (by omega)) ((check _).bind fun _ valid => .bind_of_eq (fixedAt_of_le (by omega))
    (.ret ⟨?_, length⟩)))
  rw [not_not] at reserved valid
  rw [encodeCurrent_eq valid]
  have total : contents.length = 44 := by
    rw [same, length_sealed rfl] at length
    omega
  have parts : fields [8, 32, 4] 16 bytes =
      currentParts ⟨uintAt 8 bytes 16, arrayAt 32 bytes 24⟩ := by
    simp only [fields, currentParts, Nat.reduceAdd, leBytes_uintAt (show 16 + 8 ≤ bytes.length by omega),
      arrayAt_val (show 24 + 32 ≤ bytes.length by omega), slice_of_uintAt reserved (by omega)]
  have whole : (currentParts ⟨uintAt 8 bytes 16, arrayAt 32 bytes 24⟩).flatten = contents := by
    rw [← parts, flatten_fields, same, slice_sealed rfl le_rfl (by simp [total])]
    exact slice_self total
  rw [whole, same]

theorem decodeCurrent_encode {current : Current} (valid : ValidId current.generation) :
    Current.decode (sealed Current.magic (currentParts current).flatten) = .ok current := by
  have total := length_currentParts current
  have length := length_sealed (show Current.magic.length = 8 from rfl) (currentParts current).flatten
  rw [total] at length
  have parts := fields_sealed (show Current.magic.length = 8 from rfl) (currentParts_widths current) []
  rw [List.append_nil] at parts
  have passes : checkMetadata (sealed Current.magic (currentParts current).flatten) Current.magic "current" 64 64 =
      .ok () := checkMetadata_sealed rfl _ _ (by omega) (by omega) (by norm_num)
  have bounded : current.generation < 2 ^ 64 := by
    have := valid.2
    simp only [maxU64] at this
    omega
  generalize sealed Current.magic (currentParts current).flatten = bytes at length parts passes ⊢
  simp only [fields, currentParts, List.cons.injEq, Nat.reduceAdd, and_true] at parts
  obtain ⟨generation, digest, reserved⟩ := parts
  rw [Current.decode, passes, ok_bind, numberAt_of_le (by omega), ok_bind,
    uintAt_of_field reserved (by norm_num), refuse_of_not _ (by simp), raise_ok, ok_bind,
    numberAt_of_le (by omega), ok_bind, uintAt_of_field generation bounded,
    refuse_of_not _ (not_not.mpr valid), raise_ok, ok_bind, fixedAt_of_le (by omega), ok_bind, arrayAt_eq digest]
  rfl

/-! ## Genesis -/

theorem encodeGenesis_eq {genesis : Genesis} (nonzero : genesis.databaseId.1 ≠ zeros 16) :
    genesis.encode = .ok (sealed Genesis.magic (genesisParts genesis).flatten) := by
  rw [Genesis.encode, refuse_of_not _ nonzero, raise_ok, ok_bind, pure_eq_ok, sealed, length_genesisParts]
  simp [genesisParts, Genesis.encodedLength]

theorem decodeGenesis_safe (bytes : Bytes) :
    Safe (Genesis.decode bytes) (fun genesis => genesis.encode = .ok bytes) fun _ => True := by
  refine (checkMetadata_safe "genesis" (by decide)).bind fun _ ⟨lower, upper, contents, same⟩ => ?_
  have length : bytes.length = 180 := by
    simp only [Genesis.encodedLength] at lower upper
    omega
  refine .bind_of_eq (numberAt_of_le (by omega)) ((check _).bind fun _ blob => .bind_of_eq
    (fixedAt_of_le (by omega)) ((check _).bind fun _ nonzero => .bind_of_eq (readAt_of_le (by omega)) ?_))
  rw [read_eq_decode]
  refine (Safe.raise (fun _ decoded => encode_of_decode decoded) fun _ _ => trivial).bind fun policy encoded =>
    .ret ?_
  rw [not_not] at blob
  rw [encodeGenesis_eq nonzero]
  have total : contents.length = 160 := by
    rw [same, length_sealed rfl] at length
    omega
  have parts : fields [16, 4, 140] 16 bytes = genesisParts ⟨arrayAt 16 bytes 16, policy⟩ := by
    simp only [fields, genesisParts, Nat.reduceAdd, arrayAt_val (show 16 + 16 ≤ bytes.length by omega),
      slice_of_uintAt blob (by omega), encoded]
  have whole : (genesisParts ⟨arrayAt 16 bytes 16, policy⟩).flatten = contents := by
    rw [← parts, flatten_fields, same, slice_sealed rfl le_rfl (by simp [total])]
    exact slice_self total
  rw [whole, same]

theorem decodeGenesis_encode {genesis : Genesis} (nonzero : genesis.databaseId.1 ≠ zeros 16) :
    Genesis.decode (sealed Genesis.magic (genesisParts genesis).flatten) = .ok genesis := by
  have total := length_genesisParts genesis
  have length := length_sealed (show Genesis.magic.length = 8 from rfl) (genesisParts genesis).flatten
  rw [total] at length
  have parts := fields_sealed (show Genesis.magic.length = 8 from rfl) (genesisParts_widths genesis) []
  rw [List.append_nil] at parts
  have passes : checkMetadata (sealed Genesis.magic (genesisParts genesis).flatten) Genesis.magic "genesis"
      Genesis.encodedLength Genesis.encodedLength = .ok () :=
    checkMetadata_sealed rfl _ _ (by rw [total]; decide) (by rw [total]; decide) (by decide)
  generalize sealed Genesis.magic (genesisParts genesis).flatten = bytes at length parts passes ⊢
  simp only [fields, genesisParts, List.cons.injEq, Nat.reduceAdd, and_true] at parts
  obtain ⟨databaseId, blob, policy⟩ := parts
  rw [Genesis.decode, passes, ok_bind, numberAt_of_le (by omega), ok_bind,
    uintAt_of_field blob (by decide), refuse_of_not _ (by simp), raise_ok, ok_bind, fixedAt_of_le (by omega),
    ok_bind, arrayAt_eq databaseId, refuse_of_not _ nonzero, raise_ok, ok_bind, readAt_of_le (by omega), ok_bind,
    policy, read_eq_decode, LimitPolicy.decode_encode, raise_ok, ok_bind, pure_eq_ok]

/-! ## Manifests -/

/-- The fixed fields of a manifest behind the common ones. -/
def manifestParts (manifest : Manifest) : List Bytes :=
  [manifest.databaseId.1, manifest.genesisDigest.1, manifest.cursorNamespace.1, leBytes 8 manifest.generation,
    leBytes 8 manifest.pageFileId, leBytes 8 manifest.pageCount, leBytes 8 manifest.checkpointSequence,
    manifest.checkpointDigest.1, leBytes 8 manifest.durableSequence, manifest.durableDigest.1,
    leBytes 8 manifest.historyFloor, leBytes 8 manifest.logFloor, leBytes 8 manifest.nextCursorId,
    leBytes 8 manifest.nextSegmentId, leBytes 8 manifest.nextPageFileId, leBytes 8 manifest.roots.state,
    leBytes 8 manifest.roots.catalogue, leBytes 8 manifest.roots.policy, leBytes 8 manifest.roots.outcomes,
    leBytes 8 manifest.roots.cursors, leBytes 4 manifest.segments.length]

/-- The widths of the fixed fields. -/
def manifestWidths : List Nat :=
  [16, 32, 16, 8, 8, 8, 8, 32, 8, 32, 8, 8, 8, 8, 8, 8, 8, 8, 8, 8, 4]

/-- What a manifest encloses. -/
def manifestContents (manifest : Manifest) : Bytes :=
  (manifestParts manifest).flatten ++ (manifest.segments.map appendDescriptor).flatten

omit [Crc32c] in
theorem manifestParts_widths (manifest : Manifest) :
    (manifestParts manifest).map List.length = manifestWidths := by
  simp [manifestParts, manifestWidths, manifest.databaseId.2, manifest.genesisDigest.2,
    manifest.cursorNamespace.2, manifest.checkpointDigest.2, manifest.durableDigest.2]

omit [Crc32c] in
theorem length_descriptors (segments : List SegmentDescriptor) :
    (segments.map appendDescriptor).flatten.length = segments.length * descriptorLength := by
  have widths : (segments.map appendDescriptor).map List.length =
      List.replicate segments.length descriptorLength := by
    rw [List.map_map, List.eq_replicate_iff]
    refine ⟨List.length_map _, fun width member => ?_⟩
    obtain ⟨segment, -, rfl⟩ := List.mem_map.mp member
    exact length_appendDescriptor segment
  rw [List.length_flatten, widths, List.sum_replicate, smul_eq_mul]

omit [Crc32c] in
theorem length_manifestContents (manifest : Manifest) :
    (manifestContents manifest).length = 252 + manifest.segments.length * 96 := by
  rw [manifestContents, List.length_append, List.length_flatten, manifestParts_widths, length_descriptors]
  rfl

omit [Crc32c] in
theorem few_segments {manifest : Manifest} (valid : Valid manifest) :
    manifest.segments.length ≤ (maxManifestLength - manifestBaseLength) / descriptorLength := by
  have identified : validateIdentity manifest = .ok () := valid.identified
  obtain ⟨_, few, -⟩ := bind_eq_ok.mp identified
  exact not_lt.mp (refuse_eq_ok.mp few)

theorem encodeManifest_eq {manifest : Manifest} (valid : Valid manifest) :
    manifest.encode = .ok (sealed Manifest.magic (manifestContents manifest)) := by
  have few := few_segments valid
  simp only [maxManifestLength, manifestBaseLength, descriptorLength] at few
  have product : manifest.segments.length * descriptorLength < 2 ^ 64 := by
    simp only [descriptorLength]
    omega
  rw [Manifest.encode, Checked.validateManifest_eq, validateManifest_eq_ok.mpr valid, raise_ok, relay_ok, ok_bind,
    mulChecked_of_lt product, ok_bind, addChecked_of_lt (by simp only [manifestBaseLength, descriptorLength]; omega),
    ok_bind, pure_eq_ok, sealed, length_manifestContents]
  have total : manifestBaseLength + manifest.segments.length * descriptorLength =
      252 + manifest.segments.length * 96 + 20 := by
    simp only [manifestBaseLength, descriptorLength]
    omega
  rw [total]
  simp [manifestContents, manifestParts, Roots.toList, List.flatMap]

/-- The manifest at the fixed offsets, with decoded segments. -/
def readManifest (bytes : Bytes) (segments : List SegmentDescriptor) : Manifest :=
  { databaseId := arrayAt 16 bytes 16
    genesisDigest := arrayAt 32 bytes 32
    cursorNamespace := arrayAt 16 bytes 64
    generation := uintAt 8 bytes 80
    pageFileId := uintAt 8 bytes 88
    pageCount := uintAt 8 bytes 96
    checkpointSequence := uintAt 8 bytes 104
    checkpointDigest := arrayAt 32 bytes 112
    durableSequence := uintAt 8 bytes 144
    durableDigest := arrayAt 32 bytes 152
    historyFloor := uintAt 8 bytes 184
    logFloor := uintAt 8 bytes 192
    nextCursorId := uintAt 8 bytes 200
    nextSegmentId := uintAt 8 bytes 208
    nextPageFileId := uintAt 8 bytes 216
    roots := ⟨uintAt 8 bytes 224, uintAt 8 bytes 232, uintAt 8 bytes 240, uintAt 8 bytes 248, uintAt 8 bytes 256⟩
    segments }

omit [Crc32c] in
theorem readManifest_representable (bytes : Bytes) {segments : List SegmentDescriptor}
    (representable : ∀ segment ∈ segments, segment.Representable) :
    (readManifest bytes segments).Representable := by
  refine ⟨uintAt_lt 8 _ _, uintAt_lt 8 _ _, uintAt_lt 8 _ _, uintAt_lt 8 _ _, uintAt_lt 8 _ _, uintAt_lt 8 _ _,
    uintAt_lt 8 _ _, uintAt_lt 8 _ _, uintAt_lt 8 _ _, uintAt_lt 8 _ _, ?_, representable⟩
  simp only [readManifest, Roots.toList, List.forall_mem_cons]
  exact ⟨uintAt_lt 8 _ _, uintAt_lt 8 _ _, uintAt_lt 8 _ _, uintAt_lt 8 _ _, uintAt_lt 8 _ _,
    List.forall_mem_nil _⟩

omit [Crc32c] in
/-- The fields of what was read are the fields of the bytes. -/
theorem manifestParts_readManifest {bytes : Bytes} {segments : List SegmentDescriptor}
    (length : 268 ≤ bytes.length) (counted : uintAt 4 bytes 264 = segments.length) :
    manifestParts (readManifest bytes segments) = fields manifestWidths 16 bytes := by
  simp (disch := omega) only [fields, manifestWidths, manifestParts, readManifest, Nat.reduceAdd, leBytes_uintAt,
    arrayAt_val, slice_of_uintAt counted]

omit [Crc32c] in
/-- Bytes with the fields of a manifest are read as that manifest. -/
theorem readManifest_eq {bytes : Bytes} {manifest : Manifest} (representable : manifest.Representable)
    (parts : fields manifestWidths 16 bytes = manifestParts manifest) :
    readManifest bytes manifest.segments = manifest := by
  simp only [fields, manifestWidths, manifestParts, Nat.reduceAdd, List.cons.injEq, and_true] at parts
  obtain ⟨databaseId, genesisDigest, cursorNamespace, generation, pageFileId, pageCount, checkpointSequence,
    checkpointDigest, durableSequence, durableDigest, historyFloor, logFloor, nextCursorId, nextSegmentId,
    nextPageFileId, state, catalogue, policy, outcomes, cursors, -⟩ := parts
  have roots := representable.roots
  simp only [Roots.toList, List.forall_mem_cons] at roots
  simp only [readManifest, arrayAt_eq databaseId, arrayAt_eq genesisDigest, arrayAt_eq cursorNamespace,
    uintAt_of_field generation representable.generation, uintAt_of_field pageFileId representable.pageFileId,
    uintAt_of_field pageCount representable.pageCount,
    uintAt_of_field checkpointSequence representable.checkpointSequence, arrayAt_eq checkpointDigest,
    uintAt_of_field durableSequence representable.durableSequence, arrayAt_eq durableDigest,
    uintAt_of_field historyFloor representable.historyFloor, uintAt_of_field logFloor representable.logFloor,
    uintAt_of_field nextCursorId representable.nextCursorId,
    uintAt_of_field nextSegmentId representable.nextSegmentId,
    uintAt_of_field nextPageFileId representable.nextPageFileId, uintAt_of_field state roots.1,
    uintAt_of_field catalogue roots.2.1, uintAt_of_field policy roots.2.2.1,
    uintAt_of_field outcomes roots.2.2.2.1, uintAt_of_field cursors roots.2.2.2.2.1]

/-- No offset leaves bytes that are long enough. -/
theorem decodeManifest_of_le {bytes : Bytes} (lower : 272 ≤ bytes.length) :
    Manifest.decode bytes = do
      checkMetadata bytes Manifest.magic "manifest" manifestBaseLength maxManifestLength
      raise id (refuse (((Encoding.checkedMul (uintAt 4 bytes 264) descriptorLength).bind fun length =>
          Encoding.checkedAdd length manifestBaseLength) ≠ some bytes.length)
        (.corrupt "invalid manifest segment vector length"))
      let segments ← decodeDescriptors (chunks descriptorLength (slice bytes 268 (bytes.length - 4 - 268)))
      raise .corrupt (Metadata.validateManifest (readManifest bytes segments))
      return readManifest bytes segments := by
  have stop : 4 ≤ bytes.length := by omega
  have start : 268 ≤ bytes.length - 4 := by omega
  have inside : 268 + (bytes.length - 4 - 268) ≤ bytes.length := by omega
  simp (disch := omega) only [Manifest.decode, ok_bind, numberAt_of_le, fixedAt_of_le,
    subChecked_of_le stop, subChecked_of_le start, readAt_of_le inside, Checked.validateManifest_eq, relay_raise]
  rfl

omit [Crc32c] in
/-- The counted length of a manifest is its number of descriptors. -/
theorem counted_length {count length : Nat}
    (counted : ((Encoding.checkedMul count descriptorLength).bind fun length =>
      Encoding.checkedAdd length manifestBaseLength) = some length) : length = 272 + count * 96 := by
  obtain ⟨product, multiplied, added⟩ := Option.bind_eq_some_iff.mp counted
  have product := (Vm.checkedMul_eq_some.mp multiplied).2
  have added := (Vm.checkedAdd_eq_some.mp added).2
  simp only [descriptorLength, manifestBaseLength] at product added
  omega

/-- An accepted manifest is valid and has the bytes it was read from. -/
theorem decodeManifest_safe (bytes : Bytes) :
    Safe (Manifest.decode bytes)
      (fun manifest => manifest.Representable ∧ Valid manifest ∧
        bytes = sealed Manifest.magic (manifestContents manifest)) fun _ => True := by
  by_cases long : 272 ≤ bytes.length
  · rw [decodeManifest_of_le long]
    refine (checkMetadata_safe "manifest" (by decide)).bind fun _ ⟨_, _, contents, same⟩ =>
      (check _).bind fun _ counted => (decodeDescriptors_safe _).bind fun segments ⟨representable, read⟩ =>
      (Safe.raise (fun _ valid => validateManifest_eq_ok.mp valid) fun _ _ => trivial).bind fun _ valid =>
      .ret ⟨readManifest_representable bytes representable, valid, ?_⟩
    have total := counted_length (not_not.mp counted)
    have vector : (slice bytes 268 (bytes.length - 4 - 268)).length =
        uintAt 4 bytes 264 * descriptorLength := by
      rw [length_slice]
      simp only [descriptorLength]
      omega
    have known : uintAt 4 bytes 264 = segments.length := by
      have lengths := congrArg List.length read
      rw [List.length_map, chunks, List.length_map, List.length_range, vector,
        Nat.mul_div_cancel _ (by decide)] at lengths
      exact lengths.symm
    have length : contents.length + 20 = bytes.length := by
      rw [same, length_sealed rfl]
    have whole : slice bytes 16 252 ++ slice bytes 268 (bytes.length - 4 - 268) = contents := by
      have joined := slice_add bytes 16 252 (bytes.length - 4 - 268)
      rw [← joined, show 252 + (bytes.length - 4 - 268) = contents.length by omega, same,
        slice_sealed rfl le_rfl (by omega)]
      exact slice_self rfl
    have parts := manifestParts_readManifest (show 268 ≤ bytes.length by omega) known
    rw [manifestContents, parts, flatten_fields, show (readManifest bytes segments).segments = segments from rfl, read,
      flatten_chunks vector (by decide), show manifestWidths.sum = 252 from rfl, whole, same]
  · have short : checkMetadata bytes Manifest.magic "manifest" manifestBaseLength maxManifestLength =
        .error (.raised (.corrupt "invalid metadata length")) := by
      rw [checkMetadata, refuse_of _ (by simp only [manifestBaseLength]; omega)]
      rfl
    rw [Manifest.decode, short, error_bind]
    exact .raised trivial

/-- An encoded manifest is read back. -/
theorem decodeManifest_encode {manifest : Manifest} (representable : manifest.Representable)
    (valid : Valid manifest) :
    Manifest.decode (sealed Manifest.magic (manifestContents manifest)) = .ok manifest := by
  have few := few_segments valid
  simp only [maxManifestLength, manifestBaseLength, descriptorLength] at few
  have contents := length_manifestContents manifest
  have length := length_sealed (show Manifest.magic.length = 8 from rfl) (manifestContents manifest)
  rw [contents] at length
  have passes : checkMetadata (sealed Manifest.magic (manifestContents manifest)) Manifest.magic "manifest"
      manifestBaseLength maxManifestLength = .ok () := by
    refine checkMetadata_sealed rfl _ _ ?_ ?_ (by decide)
    · rw [contents]
      simp only [manifestBaseLength]
      omega
    · rw [contents]
      simp only [maxManifestLength]
      omega
  have parts : fields manifestWidths 16 (sealed Manifest.magic (manifestContents manifest)) = _ :=
    fields_sealed rfl (manifestParts_widths manifest) _
  have front : (manifestParts manifest).flatten.length = 252 := by
    rw [List.length_flatten, manifestParts_widths]
    rfl
  have blocks := length_descriptors manifest.segments
  simp only [descriptorLength] at blocks
  have vector : slice (sealed Manifest.magic (manifestContents manifest)) 268 (manifest.segments.length * 96) =
      (manifest.segments.map appendDescriptor).flatten := by
    rw [slice_sealed rfl (by omega) (by omega), manifestContents, slice_append_right _ _ (by omega), front,
      slice_self blocks]
  generalize sealed Manifest.magic (manifestContents manifest) = bytes at length passes parts vector ⊢
  have counter : uintAt 4 bytes 264 = manifest.segments.length := by
    have field := parts
    simp only [fields, manifestWidths, manifestParts, Nat.reduceAdd, List.cons.injEq, and_true] at field
    exact uintAt_of_field field.2.2.2.2.2.2.2.2.2.2.2.2.2.2.2.2.2.2.2.2 (by omega)
  have counted : ((Encoding.checkedMul manifest.segments.length descriptorLength).bind fun length =>
      Encoding.checkedAdd length manifestBaseLength) = some bytes.length := by
    refine Option.bind_eq_some_iff.mpr ⟨manifest.segments.length * 96, ?_, ?_⟩
    · exact Vm.checkedMul_eq_some.mpr ⟨by simp only [descriptorLength]; omega, rfl⟩
    · exact Vm.checkedAdd_eq_some.mpr ⟨by simp only [manifestBaseLength]; omega, by
        simp only [manifestBaseLength]
        omega⟩
  have width : bytes.length - 4 - 268 = manifest.segments.length * 96 := by omega
  have descriptors := decodeDescriptors_append representable.segments fun segment member => (valid.mem member).1
  rw [decodeManifest_of_le (by omega), passes, ok_bind, counter, refuse_of_not _ (not_not.mpr counted), raise_ok,
    ok_bind, width, vector, chunks_flatten (by decide) (by
      intro block member
      obtain ⟨segment, -, rfl⟩ := List.mem_map.mp member
      exact length_appendDescriptor segment), descriptors, ok_bind, readManifest_eq representable parts,
    validateManifest_eq_ok.mpr valid, raise_ok, ok_bind, pure_eq_ok]

/-! ## Exactness -/

/-- Valid values encode within a limit and decode to themselves, accepted bytes are the
encoding of what they decode to, and no bytes make the decoder panic. -/
structure Exact {α : Type} (encode : α → Except (Fault Error) Bytes) (decode : Bytes → Except (Fault Error) α)
    (valid : α → Prop) (limit : Nat) : Prop where
  encodes : ∀ value, valid value →
    ∃ bytes, encode value = .ok bytes ∧ bytes.length ≤ limit ∧ decode bytes = .ok value
  decodes : ∀ bytes value, decode bytes = .ok value → encode value = .ok bytes
  total : ∀ bytes, decode bytes ≠ .error .panic

theorem manifest_exact : Exact Manifest.encode Manifest.decode
    (fun manifest => manifest.Representable ∧ Checked.validateManifest manifest = .ok ()) maxManifestLength := by
  refine ⟨?_, ?_, fun bytes => (decodeManifest_safe bytes).ne_panic⟩
  · rintro manifest ⟨representable, validated⟩
    rw [Checked.validateManifest_eq] at validated
    have valid := validateManifest_eq_ok.mp (raise_eq_ok.mp validated)
    refine ⟨_, encodeManifest_eq valid, ?_, decodeManifest_encode representable valid⟩
    have few := few_segments valid
    rw [length_sealed rfl, length_manifestContents]
    simp only [maxManifestLength, manifestBaseLength, descriptorLength] at few ⊢
    omega
  · intro bytes manifest decoded
    obtain ⟨-, valid, same⟩ := (decodeManifest_safe bytes).of_ok decoded
    rw [encodeManifest_eq valid, same]

theorem genesis_exact : Exact Genesis.encode Genesis.decode (fun genesis => genesis.databaseId.1 ≠ zeros 16)
    Genesis.encodedLength := by
  refine ⟨fun genesis nonzero => ?_, fun bytes genesis decoded => (decodeGenesis_safe bytes).of_ok decoded,
    fun bytes => (decodeGenesis_safe bytes).ne_panic⟩
  refine ⟨_, encodeGenesis_eq nonzero, ?_, decodeGenesis_encode nonzero⟩
  rw [length_sealed rfl, length_genesisParts]
  decide

theorem current_exact : Exact Current.encode Current.decode (fun current => ValidId current.generation) 64 := by
  refine ⟨fun current valid => ?_, fun bytes current decoded => ((decodeCurrent_safe bytes).of_ok decoded).1,
    fun bytes => (decodeCurrent_safe bytes).ne_panic⟩
  refine ⟨_, encodeCurrent_eq valid, ?_, decodeCurrent_encode valid⟩
  rw [length_sealed rfl, length_currentParts]

omit [Crc32c] in
theorem descriptor_exact : Exact SegmentDescriptor.encode SegmentDescriptor.decode
    (fun segment => segment.Representable ∧ Checked.validateDescriptor segment = .ok ()) descriptorLength := by
  have encodes {segment : SegmentDescriptor} (valid : Metadata.validateDescriptor segment = .ok ()) :
      segment.encode = .ok (appendDescriptor segment) := by
    rw [SegmentDescriptor.encode, Checked.validateDescriptor_eq, valid, raise_ok, relay_ok, ok_bind, pure_eq_ok]
  refine ⟨?_, ?_, fun bytes => (decodeDescriptor_safe bytes).ne_panic⟩
  · rintro segment ⟨representable, validated⟩
    rw [Checked.validateDescriptor_eq] at validated
    have valid := raise_eq_ok.mp validated
    exact ⟨_, encodes valid, (length_appendDescriptor segment).le, decodeDescriptor_append representable valid⟩
  · intro bytes segment decoded
    obtain ⟨-, valid, same⟩ := (decodeDescriptor_safe bytes).of_ok decoded
    rw [encodes valid, same]

/-- Every metadata codec is exact, and validation of a manifest never panics. -/
theorem metadata_codecs_exact :
    Exact Manifest.encode Manifest.decode
        (fun manifest => manifest.Representable ∧ Checked.validateManifest manifest = .ok ()) maxManifestLength ∧
      Exact Genesis.encode Genesis.decode (fun genesis => genesis.databaseId.1 ≠ zeros 16)
        Genesis.encodedLength ∧
      Exact Current.encode Current.decode (fun current => ValidId current.generation) 64 ∧
      Exact SegmentDescriptor.encode SegmentDescriptor.decode
        (fun segment => segment.Representable ∧ Checked.validateDescriptor segment = .ok ()) descriptorLength ∧
      ∀ manifest, Checked.validateManifest manifest ≠ .error .panic := by
  refine ⟨manifest_exact, genesis_exact, current_exact, descriptor_exact, fun manifest => ?_⟩
  rw [Checked.validateManifest_eq]
  exact raise_ne_panic

end Formats

/-- The manifest of a store whose log reaches the last sequence and whose counters are
exhausted. -/
def lastManifest : Manifest :=
  { databaseId := filled 16 1
    genesisDigest := filled 32 0
    cursorNamespace := filled 16 2
    generation := maxU64 - 1
    pageFileId := maxU64 - 1
    pageCount := 2 ^ 48
    checkpointSequence := maxU64 - 1
    checkpointDigest := filled 32 3
    durableSequence := maxU64 - 1
    durableDigest := filled 32 3
    historyFloor := 0
    logFloor := maxU64 - 1
    nextCursorId := maxU64
    nextSegmentId := maxU64
    nextPageFileId := maxU64
    roots := ⟨1, 2, 3, 4, 0⟩
    segments := [⟨maxU64 - 1, maxU64 - 1, maxU64 - 1, 8192, filled 32 0, filled 32 3⟩] }

/-- It is encoded and read back under CRC-32C. -/
theorem lastManifest_round_trip :
    ∃ bytes, @Manifest.encode castagnoli lastManifest = .ok bytes ∧
      @Manifest.decode castagnoli bytes = .ok lastManifest := by
  have representable : lastManifest.Representable := by
    refine ⟨by decide, by decide, by decide, by decide, by decide, by decide, by decide, by decide, by decide,
      by decide, by decide, ?_⟩
    intro segment member
    rw [lastManifest, List.mem_singleton] at member
    subst member
    exact ⟨by decide, by decide, by decide, by decide⟩
  have valid : Checked.validateManifest lastManifest = .ok () := by decide +kernel
  obtain ⟨bytes, encoded, -, decoded⟩ :=
    (@metadata_codecs_exact castagnoli).1.encodes lastManifest ⟨representable, valid⟩
  exact ⟨bytes, encoded, decoded⟩

end Metadata

end BlopDb.Storage
