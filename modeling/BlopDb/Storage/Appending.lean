/-
# What an append plans

A successful plan frames valid consecutive records behind the durable frontier.
It extends the file of the active segment, or it starts a file under an unused
identity with a header block.
-/

import BlopDb.Storage.Framing

namespace BlopDb.Storage

open BlopDb.Lib

/-- The descriptor of a segment before its first group. -/
def SegmentDescriptor.base (segment : SegmentDescriptor) : SegmentDescriptor :=
  ⟨segment.segmentId, segment.firstSequence, segment.firstSequence - 1, Metadata.blockBytes,
    segment.predecessorDigest, segment.predecessorDigest⟩

/-- The segment of a group in a new file. -/
def Manifest.newSegment (manifest : Manifest) (id last : Nat) (final : Digest) (physical : Nat) :
    SegmentDescriptor :=
  ⟨id, manifest.durableSequence + 1, last, Metadata.blockBytes + physical, manifest.durableDigest, final⟩

/-- A segment with one more group. -/
def SegmentDescriptor.extend (segment : SegmentDescriptor) (last : Nat) (final : Digest)
    (physical : Nat) : SegmentDescriptor :=
  { segment with
    committedBytes := segment.committedBytes + physical, lastSequence := last, lastDigest := final }

/-- The manifest after a group. -/
def Manifest.advance (manifest : Manifest) (last : Nat) (final : Digest) (nextSegmentId : Nat)
    (segments : List SegmentDescriptor) : Manifest :=
  { manifest with
    durableSequence := last, durableDigest := final, nextSegmentId := nextSegmentId, segments := segments }

/-- The bytes of the group behind the durable frontier. -/
def Manifest.groupFrame [Crc32c] [Sha256] (manifest : Manifest) (records : List Wal.Record) (final : Digest)
    (physical : Nat) : Bytes :=
  Wal.groupFrame (Wal.groupHeader manifest.durableSequence manifest.durableDigest final records) records physical

namespace Wal

open Metadata (blockBytes maxGroupRecords groupOverhead maxRecordLength segmentHeaderLength)

/-- The identity that an append allocates is unused. -/
theorem allocate_eq_ok {files : Files} {fuel id result : Nat} (h : allocate files fuel id = .ok result) :
    id ≤ result ∧ Metadata.ValidId result ∧ files.find? result = none := by
  induction fuel generalizing id with
  | zero => cases h
  | succ fuel ih =>
      rw [allocate] at h
      split_ifs at h with bad taken
      · obtain ⟨later, rest⟩ := ih h
        exact ⟨by omega, rest⟩
      · cases h
        have bad := not_or.mp bad
        exact ⟨le_rfl, ⟨bad.1, not_le.mp bad.2⟩, Option.not_isSome_iff_eq_none.mp taken⟩

section Plans

variable [Crc32c] [Sha256]

/-- Records that form a group behind the durable frontier of a manifest. -/
structure Grouped (manifest : Manifest) (records : List Record) (last : Nat) (final : Digest)
    (physical : Nat) : Prop where
  consecutive : Consecutive manifest.durableSequence manifest.durableDigest records last final
  nonempty : records ≠ []
  header : (groupHeader manifest.durableSequence manifest.durableDigest final records).Valid
  size : groupBytes (groupHeader manifest.durableSequence manifest.durableDigest final records).bytes =
    .ok physical

/-- The two kinds of append. -/
inductive Plans (log : Log) (records : List Record) : Append → Prop
  | create {id last physical : Nat} {final : Digest} {digests : List Digest}
      (grouped : Grouped log.manifest records last final physical)
      (fresh : log.rotateNext = true ∨ log.manifest.segments = [])
      (unused : log.manifest.nextSegmentId ≤ id ∧ Metadata.ValidId id ∧ log.files.find? id = none)
      (valid : Metadata.Valid (log.manifest.advance last final (id + 1)
        (log.manifest.segments ++ [log.manifest.newSegment id last final physical]))) :
      Plans log records ⟨id, true, [],
        segmentHeader log.manifest.databaseId (log.manifest.newSegment id last final physical) ++
          log.manifest.groupFrame records final physical,
        log.manifest.advance last final (id + 1)
          (log.manifest.segments ++ [log.manifest.newSegment id last final physical]), digests⟩
  | extend {last physical : Nat} {final : Digest} {digests : List Digest}
      {before : List SegmentDescriptor} {segment : SegmentDescriptor} {file : Bytes}
      (grouped : Grouped log.manifest records last final physical)
      (active : log.manifest.segments = before ++ [segment])
      (found : log.files.find? segment.segmentId = some file)
      (exact : file.length = segment.committedBytes)
      (aligned : segment.committedBytes % blockBytes = 0)
      (valid : Metadata.Valid (log.manifest.advance last final log.manifest.nextSegmentId
        (before ++ [segment.extend last final physical]))) :
      Plans log records ⟨segment.segmentId, false, file, log.manifest.groupFrame records final physical,
        log.manifest.advance last final log.manifest.nextSegmentId
          (before ++ [segment.extend last final physical]), digests⟩

omit [Sha256] in
theorem encode_eq_ok {header : GroupHeader} {bytes : Bytes} (h : header.encode = .ok bytes) :
    header.Valid ∧ bytes = withCrc header.fields := by
  obtain ⟨_, valid, h⟩ := bind_eq_ok.mp h
  cases h
  exact ⟨not_not.mp (refuse_eq_ok.mp valid), rfl⟩

/-- A successful plan is one of the two kinds. -/
theorem planAppend_eq_ok {log : Log} {records : List (Nat × Bytes)} {append : Append}
    (h : planAppend log records = .ok append) :
    ∃ list, records = list.map (fun record => (record.sequence, record.bytes)) ∧
      append.digests = list.map Record.digest ∧ Plans log list append := by
  obtain ⟨gathered, gathering, h⟩ := bind_eq_ok.mp h
  obtain ⟨_, filled, h⟩ := bind_eq_ok.mp h
  obtain ⟨header, encoded, h⟩ := bind_eq_ok.mp h
  obtain ⟨physical, padded, h⟩ := bind_eq_ok.mp h
  obtain ⟨⟨before, block, next, segment⟩, opening, h⟩ := bind_eq_ok.mp h
  obtain ⟨_, _, h⟩ := bind_eq_ok.mp h
  obtain ⟨_, checked, h⟩ := bind_eq_ok.mp h
  cases h
  obtain ⟨list, consecutive, rfl, group, digests, length, isNext, _⟩ :=
    gather_eq_ok (mapError_eq_ok.mp gathering)
  obtain ⟨isValid, rfl⟩ := encode_eq_ok (mapError_eq_ok.mp encoded)
  have size := mapError_eq_ok.mp padded
  have opened := mapError_eq_ok.mp opening
  have valid := Metadata.validateManifest_eq_ok.mp (mapError_eq_ok.mp checked)
  have nonempty := refuse_eq_ok.mp filled
  clear gathering filled encoded padded opening checked
  obtain ⟨next', group', digests', length'⟩ := gathered
  simp only [List.nil_append] at group digests length consecutive isNext nonempty isValid size opened
  subst group digests length
  simp only [List.length_map] at isValid ⊢
  generalize next'.durableSequence = sequence at isNext consecutive
  generalize next'.durableDigest = final at isNext consecutive isValid ⊢
  subst isNext
  have grouped : Grouped log.manifest list sequence final physical :=
    ⟨consecutive, fun empty => nonempty (by rw [empty]; rfl), isValid, size⟩
  refine ⟨list, rfl, rfl, ?_⟩
  unfold openSegment at opened
  by_cases fresh : log.rotateNext = true ∨ log.manifest.segments = []
  · rw [if_pos fresh] at opened
    obtain ⟨id, allocated, opened⟩ := bind_eq_ok.mp opened
    cases opened
    rw [decide_eq_true fresh]
    exact .create grouped fresh (allocate_eq_ok allocated) valid
  · rw [if_neg fresh] at opened
    rw [decide_eq_false fresh]
    rcases List.eq_nil_or_concat' log.manifest.segments with empty | ⟨initial, active, last⟩
    · exact absurd (.inr empty) fresh
    · simp only [last, List.getLast?_concat, List.dropLast_concat] at opened
      cases found : log.files.find? active.segmentId with
      | none =>
          rw [found] at opened
          cases opened
      | some file =>
          rw [found] at opened
          obtain ⟨_, exact, opened⟩ := bind_eq_ok.mp opened
          obtain ⟨_, aligned, opened⟩ := bind_eq_ok.mp opened
          cases opened
          exact .extend grouped last found (not_not.mp (refuse_eq_ok.mp exact))
            (not_not.mp (refuse_eq_ok.mp aligned)) valid

/-- A plan that fails after it created a file leaves the header block of a
segment. -/
theorem planAppend_eq_error {log : Log} {records : List (Nat × Bytes)} {id : Nat} {block : Bytes}
    {error : Error} (h : planAppend log records = .error (some (id, block), error)) :
    ∃ segment : SegmentDescriptor, block = segmentHeader log.manifest.databaseId segment ∧
      segment.segmentId = id ∧ segment.firstSequence = log.manifest.durableSequence + 1 ∧
      segment.firstSequence < maxU64 ∧ log.manifest.nextSegmentId ≤ id ∧ Metadata.ValidId id ∧
      log.files.find? id = none := by
  have early : ∀ {α : Type} {x : Except Error α}, x.mapError (Prod.mk (none : Option (Nat × Bytes))) ≠
      .error (some (id, block), error) := by
    intro α x failed
    obtain ⟨reason, _, same⟩ := mapError_eq_error.mp failed
    cases same
  obtain failed | ⟨gathered, gathering, h⟩ := bind_eq_error.mp h
  · exact absurd failed early
  obtain failed | ⟨_, filled, h⟩ := bind_eq_error.mp h
  · cases (refuse_eq_error.mp failed).2
  obtain failed | ⟨header, encoded, h⟩ := bind_eq_error.mp h
  · exact absurd failed early
  obtain failed | ⟨physical, padded, h⟩ := bind_eq_error.mp h
  · exact absurd failed early
  obtain failed | ⟨⟨before, block', next, segment⟩, opening, h⟩ := bind_eq_error.mp h
  · exact absurd failed early
  have left : (if decide (log.rotateNext = true ∨ gathered.next.segments = []) then
      some (segment.segmentId, block') else none) = some (id, block) := by
    obtain failed | ⟨_, _, h⟩ := bind_eq_error.mp h
    · exact congrArg Prod.fst (refuse_eq_error.mp failed).2
    · obtain failed | ⟨_, _, h⟩ := bind_eq_error.mp h
      · obtain ⟨reason, _, same⟩ := mapError_eq_error.mp failed
        exact congrArg Prod.fst same
      · cases h
  split_ifs at left with fresh
  cases left
  have fresh := of_decide_eq_true fresh
  obtain ⟨list, consecutive, rfl, group, _, _, isNext, _⟩ := gather_eq_ok (mapError_eq_ok.mp gathering)
  have opened := mapError_eq_ok.mp opening
  rw [openSegment, if_pos fresh] at opened
  obtain ⟨id, allocated, opened⟩ := bind_eq_ok.mp opened
  cases opened
  obtain ⟨later, valid, unused⟩ := allocate_eq_ok allocated
  have sameDatabase : gathered.next.databaseId = log.manifest.databaseId := by
    rw [isNext]
  have sameNext : gathered.next.nextSegmentId = log.manifest.nextSegmentId := by
    rw [isNext]
  rw [sameDatabase]
  rw [sameNext] at later
  refine ⟨_, rfl, rfl, rfl, ?_, later, valid, unused⟩
  -- The group has a record, and its first sequence is in range.
  generalize gathered.next.durableSequence = last at consecutive
  generalize gathered.next.durableDigest = final at consecutive
  cases consecutive with
  | nil => exact absurd group (refuse_eq_ok.mp filled)
  | cons next bound _ _ => exact lt_of_eq_of_lt next.symm bound

end Plans

end Wal

end BlopDb.Storage
