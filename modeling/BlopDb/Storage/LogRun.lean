/-
# Runs of the log

Appends, rejected appends, requested rotations, and crashes followed by a
recovery from the same selected manifest.  A crash leaves some first part of
what the interrupted append writes, or, where recovery discards damage, bytes
that no reader accepts.  Recovery then returns the manifest of the acknowledged
groups, or also of the interrupted group when it is complete, and the log holds
exactly their records in order.
-/

import BlopDb.Storage.Content

namespace BlopDb.Storage.Wal

open BlopDb.Lib
open Metadata (blockBytes maxGroupRecords groupOverhead maxRecordLength segmentHeaderLength)
open Relation (ReflTransGen)

section Checksums

variable [Crc32c] [Sha256]

/-! ## Files of an append -/

section Appended

variable {recovery : TailRecovery} {database : Fixed 16} {file : Bytes}
  {manifest : Manifest} {base stop : SegmentDescriptor} {records : List Record} {last physical : Nat}
  {final : Digest}

/-- A group behind the end of a held segment. -/
theorem Held.accepts {more : Bytes} (held : Held recovery database file base stop false)
    (ends : manifest.durableSequence = stop.lastSequence ∧ manifest.durableDigest = stop.lastDigest)
    (aligned : stop.committedBytes % blockBytes = 0)
    (begins : stop.firstSequence ≤ stop.lastSequence + 1)
    (grouped : Grouped manifest records last final physical)
    (descriptor : Metadata.Descriptor (stop.extend last final physical)) :
    readSuffix (file ++ (manifest.groupFrame records final physical ++ more)) database
        (stop.extend last final physical) stop.committedBytes (stop.lastSequence + 1) stop.lastDigest =
        .ok records ∧
      Accepts database (file ++ (manifest.groupFrame records final physical ++ more)) stop
        (stop.extend last final physical) := by
  obtain ⟨same, below⟩ := chain_same held.chain
  obtain ⟨consecutive, nonempty, valid, isPhysical⟩ := grouped
  unfold Manifest.groupFrame
  rw [ends.1, ends.2] at consecutive valid isPhysical ⊢
  exact accepts_frame (held.opens.same same) (held.whole rfl) (le_trans held.block below) aligned begins
    consecutive nonempty valid isPhysical rfl descriptor

/-- A file with one more group. -/
theorem Held.extended (held : Held recovery database file base stop false)
    (ends : manifest.durableSequence = stop.lastSequence ∧ manifest.durableDigest = stop.lastDigest)
    (aligned : stop.committedBytes % blockBytes = 0)
    (begins : stop.firstSequence ≤ stop.lastSequence + 1)
    (grouped : Grouped manifest records last final physical)
    (descriptor : Metadata.Descriptor (stop.extend last final physical)) :
    Held recovery database (file ++ manifest.groupFrame records final physical) base
      (stop.extend last final physical) false := by
  have accepted := (@Held.accepts _ _ recovery database file manifest base stop records last physical final
    [] held ends aligned begins grouped descriptor).2
  rw [List.append_nil] at accepted
  have length : (file ++ manifest.groupFrame records final physical).length =
      (stop.extend last final physical).committedBytes := by
    rw [List.length_append, held.whole rfl, Manifest.groupFrame, length_groupFrame grouped.size]
    rfl
  exact ⟨held.opens.append _, held.block, (chain_append held.block held.chain).tail accepted,
    length.ge, stops_whole length, fun _ => length⟩

/-- A file whose last group was cut. -/
theorem Held.cut {length : Nat} (held : Held recovery database file base stop false)
    (ends : manifest.durableSequence = stop.lastSequence ∧ manifest.durableDigest = stop.lastDigest)
    (grouped : Grouped manifest records last final physical) (short : length < physical) :
    Held recovery database (file ++ (manifest.groupFrame records final physical).take length) base stop
      (decide (0 < length)) := by
  have exact := held.whole rfl
  have size : (manifest.groupFrame records final physical).length = physical := length_groupFrame grouped.size
  have total : (file ++ (manifest.groupFrame records final physical).take length).length =
      stop.committedBytes + length := by
    rw [List.length_append, exact, List.length_take, size, min_eq_left short.le]
  refine ⟨held.opens.append _, held.block, chain_append held.block held.chain, by omega, ?_, fun none => ?_⟩
  · rcases Nat.eq_zero_or_pos length with zero | positive
    · rw [decide_eq_false (by omega)]
      exact stops_whole (by omega)
    · rw [decide_eq_true positive]
      intro fuel found
      rw [scanGroups, if_neg (by omega)]
      by_cases few : (file ++ (manifest.groupFrame records final physical).take length).length -
          stop.committedBytes < headerBytes
      · rw [if_pos few]
        rfl
      · have head : slice (file ++ (manifest.groupFrame records final physical).take length)
            stop.committedBytes headerBytes = withCrc (groupHeader manifest.durableSequence
              manifest.durableDigest final records).fields := by
          rw [slice_append_right _ _ exact.le, exact, Nat.sub_self, slice_take (by omega),
            Manifest.groupFrame, groupFrame_eq]
          exact slice_zero_append _ (by rw [length_withCrc, length_fields]; rfl)
        have linked : ¬ ((groupHeader manifest.durableSequence manifest.durableDigest final records).first ≠
              stop.lastSequence + 1 ∨
            (groupHeader manifest.durableSequence manifest.durableDigest final records).predecessor ≠
              stop.lastDigest) := by
          rw [← ends.1, ← ends.2]
          exact not_or.mpr ⟨not_not.mpr rfl, not_not.mpr rfl⟩
        rw [if_neg few, head, GroupHeader.decode_fields grouped.header]
        simp only [refuse_of_not _ linked, ok_bind, grouped.size]
        rw [if_pos (by omega)]
        rfl
  · have zero := of_decide_eq_false none
    omega

/-- Bytes behind a segment that no reader accepts as its next group. -/
inductive Damaged (database : Fixed 16) (file : Bytes) (stop : SegmentDescriptor) : Prop
  | header {reason : String} (long : headerBytes ≤ file.length - stop.committedBytes)
      (bad : GroupHeader.decode (slice file stop.committedBytes headerBytes) = .error (.corrupt reason))
  | short {header : GroupHeader} {physical : Nat}
      (decoded : GroupHeader.decode (slice file stop.committedBytes headerBytes) = .ok header)
      (first : header.first = stop.lastSequence + 1) (linked : header.predecessor = stop.lastDigest)
      (size : groupBytes header.bytes = .ok physical)
      (long : headerBytes ≤ file.length - stop.committedBytes)
      (cut : file.length - stop.committedBytes < physical)
  | group {header : GroupHeader} {physical : Nat} {reason : String}
      (decoded : GroupHeader.decode (slice file stop.committedBytes headerBytes) = .ok header)
      (first : header.first = stop.lastSequence + 1) (linked : header.predecessor = stop.lastDigest)
      (size : groupBytes header.bytes = .ok physical)
      (fits : physical ≤ file.length - stop.committedBytes)
      (bad : eachSuffix (fun _ _ => .ok ()) file database { stop with
        committedBytes := stop.committedBytes + physical
        lastSequence := header.first + header.count - 1
        lastDigest := header.lastDigest } stop.committedBytes (stop.lastSequence + 1) stop.lastDigest () =
          .error (.corrupt reason))

theorem stops_damaged (damaged : Damaged database file stop) :
    Stops .discardInvalid database file stop true := by
  have positive : 0 < headerBytes := by decide
  intro fuel found
  cases damaged with
  | header long bad =>
      rw [scanGroups, if_neg (by omega), if_neg (by omega), bad]
      rfl
  | short decoded first linked size long cut =>
      have matched : ¬ (_ ≠ stop.lastSequence + 1 ∨ _ ≠ stop.lastDigest) :=
        not_or.mpr ⟨not_not.mpr first, not_not.mpr linked⟩
      rw [scanGroups, if_neg (by omega), if_neg (by omega), decoded]
      simp only [refuse_of_not _ matched, ok_bind, size]
      rw [if_pos cut]
      rfl
  | group decoded first linked size fits bad =>
      have long := headerBytes_le_physical decoded size
      have matched : ¬ (_ ≠ stop.lastSequence + 1 ∨ _ ≠ stop.lastDigest) :=
        not_or.mpr ⟨not_not.mpr first, not_not.mpr linked⟩
      rw [scanGroups, if_neg (by omega), if_neg (by omega), decoded]
      simp only [refuse_of_not _ matched, ok_bind, size]
      rw [if_neg (by omega), bad]
      rfl

/-- A file with damaged bytes behind its groups. -/
theorem Held.damaged {region : Bytes} (held : Held .discardInvalid database file base stop false)
    (damaged : Damaged database (file ++ region) stop) :
    Held .discardInvalid database (file ++ region) base stop true := by
  have exact := held.whole rfl
  refine ⟨held.opens.append _, held.block, chain_append held.block held.chain, ?_, stops_damaged damaged,
    nofun⟩
  rw [List.length_append]
  omega

end Appended

/-! ## New files of an append -/

section Created

variable {recovery : TailRecovery} {database : Fixed 16} {segment : SegmentDescriptor}

/-- The header block of a segment holds no group. -/
theorem held_header (first : FirstSequence segment) (bound : segment.segmentId < 2 ^ 64) :
    Held recovery database (segmentHeader database segment) segment.base segment.base false := by
  have opens := @opens_segmentHeader _ database segment [] bound (lt_trans first.2 (by decide))
  rw [List.append_nil] at opens
  exact ⟨opens, le_rfl, .refl, (length_segmentHeader database segment).ge,
    stops_whole (length_segmentHeader database segment), fun _ => length_segmentHeader database segment⟩

/-- Recovery empties a new file behind its header block. -/
theorem discarded_block {file : Bytes} {rest : Bool} (first : FirstSequence segment)
    (bound : segment.segmentId < 2 ^ 64)
    (held : Held recovery database (segmentHeader database segment ++ file) segment.base segment.base rest) :
    Discarded recovery database segment.segmentId (segmentHeader database segment ++ file)
      (if rest then some blockBytes else none) := by
  constructor
  · intro files found
    rw [readSegment_held held first found, if_pos rfl]
    rfl
  · have size := length_segmentHeader database segment
    have leftover := @leftover_header _ _ database segment blockBytes first bound le_rfl
    rw [List.take_of_length_le size.le] at leftover
    cases rest with
    | true =>
        show Leftover database segment.segmentId (setLen (segmentHeader database segment ++ file) blockBytes)
        rw [setLen_of_le (by rw [List.length_append]; omega), List.take_append_of_le_length size.ge,
          List.take_of_length_le size.le]
        exact leftover
    | false =>
        have total := held.whole rfl
        rw [List.length_append, size] at total
        have empty : file = [] := List.eq_nil_of_length_eq_zero (Nat.add_eq_left.mp total)
        show Leftover database segment.segmentId (segmentHeader database segment ++ file)
        rw [empty, List.append_nil]
        exact leftover

/-- A new file without an intact header block, or with damage behind it. -/
inductive DamagedNew (database : Fixed 16) (segment : SegmentDescriptor) (file : Bytes) : Prop
  | crc (long : segmentHeaderLength ≤ file.length)
      (bad : segmentCrcValid (file.take segmentHeaderLength) = false)
  | padding {rest : Bytes} {reason : String} (head : file = segmentHead database segment ++ rest)
      (long : blockBytes ≤ file.length)
      (bad : readPadding rest (blockBytes - segmentHeaderLength) = .error (.corrupt reason))
  | group {region : Bytes} (head : file = segmentHeader database segment ++ region)
      (damaged : Damaged database file segment.base)

theorem discarded_damaged {file : Bytes} (first : FirstSequence segment)
    (bound : segment.segmentId < 2 ^ 64) (damaged : DamagedNew database segment file) :
    ∃ truncate, Discarded .discardInvalid database segment.segmentId file truncate := by
  have emptied : Leftover database segment.segmentId (setLen file 0) := by
    rw [setLen_of_le (Nat.zero_le _), List.take_zero]
    exact leftover_short (by decide)
  cases damaged with
  | crc long bad =>
      refine ⟨some 0, fun files found => ?_, emptied⟩
      have read : readCommitted file segmentHeaderLength =
          .ok (file.take segmentHeaderLength, file.drop segmentHeaderLength) :=
        takeBytes_eq_ok.mpr ⟨(List.take_append_drop _ _).symm, List.length_take_of_le long⟩
      exact readSegment_eq_ok.mpr ⟨file, found, .damaged read bad rfl⟩
  | @padding rest reason head long bad =>
      refine ⟨some 0, fun files found => ?_, emptied⟩
      obtain ⟨valid, isFirst⟩ := @segmentHead_checks _ database segment first bound
      have read : readCommitted file segmentHeaderLength = .ok (segmentHead database segment, rest) :=
        takeBytes_eq_ok.mpr ⟨head, length_segmentHead database segment⟩
      exact readSegment_eq_ok.mpr ⟨file, found, .padding read valid isFirst long bad rfl⟩
  | group head damaged =>
      subst head
      exact ⟨_, discarded_block first bound ((held_header first bound).damaged damaged)⟩

end Created

/-! ## Changed directories -/

section Changed

variable {recovery : TailRecovery} {dirty rest : Bool} {selected middle : Manifest} {files : Files}
  {news : List SegmentDescriptor} {segment extended : SegmentDescriptor} {file : Bytes} {id : Nat}

omit [Crc32c] [Sha256] in
theorem grown_concat : grown middle (news ++ [segment]) = growManifest (grown middle news) segment := by
  rw [grown, List.foldl_append]
  rfl

omit [Crc32c] [Sha256] in
theorem links_concat :
    Links middle.durableSequence middle.durableDigest (news ++ [segment]) ↔
      Links middle.durableSequence middle.durableDigest news ∧
        segment.firstSequence = (grown middle news).durableSequence + 1 ∧
        segment.predecessorDigest = (grown middle news).durableDigest := by
  induction news generalizing middle with
  | nil =>
      show _ ∧ _ ∧ True ↔ True ∧ _ ∧ _
      simp [grown]
  | cons first others ih =>
      have rest := @ih (growManifest middle first)
      show _ ∧ _ ∧ Links first.lastSequence first.lastDigest (others ++ [segment]) ↔ (_ ∧ _ ∧ _) ∧ _
      have rest : Links first.lastSequence first.lastDigest (others ++ [segment]) ↔
          Links first.lastSequence first.lastDigest others ∧
            segment.firstSequence = (grown middle (first :: others)).durableSequence + 1 ∧
            segment.predecessorDigest = (grown middle (first :: others)).durableDigest := rest
      rw [rest]
      tauto

/-- The tail of the selected segments does not depend on later files. -/
theorem TailHeld.insert {present : Bytes} (sound : Metadata.Valid selected)
    (tail : TailHeld recovery false selected files middle) (later : selected.nextSegmentId ≤ id) :
    TailHeld recovery dirty selected (files.insert id present) middle := by
  obtain none | ⟨last, found, held, clean⟩ := tail
  · exact .empty none
  · have allocated := (sound.mem (last ▸ List.mem_concat_self)).2
    refine .held last ?_ held fun more => nomatch clean more
    rw [files.find?_insert_of_ne _ (lt_of_lt_of_le allocated later).ne']
    exact found

theorem NewHeld.insert {present : Bytes} (new : NewHeld recovery false selected files segment)
    (other : id ≠ segment.segmentId) :
    NewHeld recovery dirty selected (files.insert id present) segment := by
  obtain ⟨file, rest, found, held, clean⟩ := new.held
  refine ⟨new.later, new.bound, new.first, new.filled, file, rest, ?_, held, fun more => nomatch clean more⟩
  rw [files.find?_insert_of_ne _ other]
  exact found

/-- A layout with a further file without groups. -/
theorem Layout.insert_unused {truncate : Option Nat} (sound : Metadata.Valid selected)
    (layout : Layout recovery false selected files middle news) (unused : files.find? id = none)
    (later : selected.nextSegmentId ≤ id)
    (discarded : Discarded recovery selected.databaseId id file truncate)
    (isDirty : truncate ≠ none → dirty = true) :
    Layout recovery dirty selected (files.insert id file) middle news where
  tail := layout.tail.insert sound later
  links := layout.links
  sorted := layout.sorted
  new segment member := by
    have new := layout.new segment member
    refine new.insert ?_
    rintro rfl
    obtain ⟨_, _, found, _⟩ := new.held
    rw [unused] at found
    cases found
  other id' file' above bound found outside := by
    by_cases same : id = id'
    · subst same
      rw [files.find?_insert_self] at found
      cases found
      exact ⟨truncate, discarded, isDirty⟩
    · rw [files.find?_insert_of_ne _ same] at found
      obtain ⟨truncate', discarded', clean⟩ := layout.other id' file' above bound found outside
      exact ⟨truncate', discarded', fun cut => nomatch clean cut⟩
  valid := layout.valid

/-- A layout with a further segment in a new file. -/
theorem Layout.insert_new (sound : Metadata.Valid selected)
    (layout : Layout recovery false selected files middle news)
    (later : selected.nextSegmentId ≤ segment.segmentId)
    (bound : segment.segmentId < maxU64) (first : FirstSequence segment)
    (filled : segment.base ≠ segment)
    (held : Held recovery selected.databaseId file segment.base segment false)
    (linked : segment.firstSequence = (grown middle news).durableSequence + 1 ∧
      segment.predecessorDigest = (grown middle news).durableDigest)
    (after : ∀ other ∈ news, other.segmentId < segment.segmentId)
    (valid : Metadata.Valid (grown middle (news ++ [segment]))) :
    Layout recovery false selected (files.insert segment.segmentId file) middle (news ++ [segment]) where
  tail := layout.tail.insert sound later
  links := links_concat.mpr ⟨layout.links, linked⟩
  sorted := List.pairwise_append.mpr ⟨layout.sorted, List.pairwise_singleton _ _, fun other member last isLast =>
    List.mem_singleton.mp isLast ▸ after other member⟩
  new other member := by
    rcases List.mem_append.mp member with earlier | isLast
    · exact (layout.new other earlier).insert (after other earlier).ne'
    · cases List.mem_singleton.mp isLast
      exact ⟨later, bound, first, filled, file, false, files.find?_insert_self _ _, held, nofun⟩
  other id file' above below found outside := by
    have other : segment.segmentId ≠ id := outside segment List.mem_concat_self
    rw [files.find?_insert_of_ne _ other] at found
    exact layout.other id file' above below found fun candidate member =>
      outside candidate (List.mem_append_left _ member)
  valid := valid

/-- A layout with other groups in the file of the last new segment. -/
theorem Layout.replace_new (sound : Metadata.Valid selected)
    (layout : Layout recovery false selected files middle (news ++ [segment]))
    (same : SameSegment segment extended)
    (held : Held recovery selected.databaseId file segment.base extended rest)
    (clean : rest = true → dirty = true) (filled : extended.base ≠ extended)
    (valid : Metadata.Valid (grown middle (news ++ [extended]))) :
    Layout recovery dirty selected (files.insert segment.segmentId file) middle (news ++ [extended]) where
  tail := layout.tail.insert sound (layout.new segment List.mem_concat_self).later
  links := by
    obtain ⟨links, first, predecessor⟩ := links_concat.mp layout.links
    exact links_concat.mpr ⟨links, same.first.trans first, same.predecessor.trans predecessor⟩
  sorted := by
    obtain ⟨sorted, _, after⟩ := List.pairwise_append.mp layout.sorted
    refine List.pairwise_append.mpr ⟨sorted, List.pairwise_singleton _ _, fun other member last isLast => ?_⟩
    rw [List.mem_singleton.mp isLast, same.id]
    exact after other member segment List.mem_cons_self
  new other member := by
    have new := layout.new segment List.mem_concat_self
    rcases List.mem_append.mp member with earlier | isLast
    · have before := (List.pairwise_append.mp layout.sorted).2.2 other earlier segment List.mem_cons_self
      have held := layout.new other (List.mem_append_left _ earlier)
      rw [Bool.false_and] at held
      exact held.insert before.ne'
    · cases List.mem_singleton.mp isLast
      have isBase : extended.base = segment.base := by
        rw [SegmentDescriptor.base, SegmentDescriptor.base, same.id, same.first, same.predecessor]
      refine ⟨same.id ▸ new.later, same.id ▸ new.bound, ?_, filled, file, rest, ?_, isBase ▸ held, fun more => ?_⟩
      · rw [FirstSequence, same.first]
        exact new.first
      · rw [same.id]
        exact files.find?_insert_self _ _
      · rw [clean more, List.getLast?_concat]
        simp
  other id file' above below found outside := by
    have other : segment.segmentId ≠ id := same.id ▸ outside extended List.mem_concat_self
    rw [files.find?_insert_of_ne _ other] at found
    obtain ⟨truncate, discarded, clean⟩ := layout.other id file' above below found fun candidate member => by
      rcases List.mem_append.mp member with earlier | isLast
      · exact outside candidate (List.mem_append_left _ earlier)
      · rw [List.mem_singleton.mp isLast]
        exact other
    exact ⟨truncate, discarded, fun cut => nomatch clean cut⟩
  valid := valid

/-- A layout with other groups in the file of the selected last segment. -/
theorem Layout.replace_tail {before : List SegmentDescriptor} (sound : Metadata.Valid selected)
    (layout : Layout recovery false selected files middle [])
    (last : selected.segments = before ++ [segment])
    (held : Held recovery selected.databaseId file segment extended rest)
    (clean : rest = true → dirty = true)
    (valid : Metadata.Valid (selected.advance extended.lastSequence extended.lastDigest
      selected.nextSegmentId (before ++ [extended]))) :
    Layout recovery dirty selected (files.insert segment.segmentId file)
      (selected.advance extended.lastSequence extended.lastDigest selected.nextSegmentId
        (before ++ [extended])) [] where
  tail := .held last (files.find?_insert_self _ _) held fun more => by rw [clean more]; rfl
  links := trivial
  sorted := .nil
  new _ member := nomatch member
  other id file' above below found outside := by
    have allocated := (sound.mem (last ▸ List.mem_concat_self)).2
    rw [files.find?_insert_of_ne _ (lt_of_lt_of_le allocated above).ne] at found
    obtain ⟨truncate, discarded, clean⟩ := layout.other id file' above below found outside
    exact ⟨truncate, discarded, fun cut => nomatch clean cut⟩
  valid := valid

end Changed

/-! ## Acknowledged manifests -/

section Acknowledged

variable {recovery : TailRecovery} {dirty rest : Bool} {selected manifest middle : Manifest}
  {files : Files} {news before : List SegmentDescriptor} {segment extended : SegmentDescriptor}
  {file : Bytes}

/-- Recovery finds exactly the manifest in a directory, with nothing to discard. -/
def Acknowledged (selected : Manifest) (files : Files) (manifest : Manifest) : Prop :=
  ∃ middle news, grown middle news = manifest ∧
    ∀ recovery, Layout recovery false selected files middle news

/-- Recovery finds exactly the manifest in a directory. -/
def Recoverable (recovery : TailRecovery) (selected : Manifest) (files : Files)
    (manifest : Manifest) : Prop :=
  ∃ dirty middle news, grown middle news = manifest ∧
    Layout recovery dirty selected files middle news

theorem Acknowledged.valid (acknowledged : Acknowledged selected files manifest) :
    Metadata.Valid manifest := by
  obtain ⟨middle, news, rfl, layout⟩ := acknowledged
  exact (layout .strict).valid

theorem Acknowledged.recoverable (acknowledged : Acknowledged selected files manifest) :
    Recoverable recovery selected files manifest := by
  obtain ⟨middle, news, same, layout⟩ := acknowledged
  exact ⟨false, middle, news, same, layout recovery⟩

theorem Acknowledged.database (acknowledged : Acknowledged selected files manifest) :
    manifest.databaseId = selected.databaseId := by
  obtain ⟨middle, news, rfl, layout⟩ := acknowledged
  rw [grown_database, (layout .strict).tail.database]

theorem Layout.next_le (layout : Layout recovery dirty selected files middle news) :
    selected.nextSegmentId ≤ (grown middle news).nextSegmentId := by
  rcases List.eq_nil_or_concat' news with rfl | ⟨before, segment, rfl⟩
  · obtain none | ⟨last, found, held, clean⟩ := layout.tail
    · exact le_rfl
    · exact le_rfl
  · rw [grown_concat]
    have new := layout.new segment List.mem_concat_self
    exact le_trans new.later (Nat.le_succ _)

omit [Crc32c] [Sha256] in
theorem base_ne (descriptor : Metadata.Descriptor segment) : segment.base ≠ segment := by
  intro same
  have lower := descriptor.lower
  have block : segment.committedBytes = blockBytes := by
    rw [← same]
    rfl
  have positive : 0 < Metadata.minimumBytes (segment.lastSequence - segment.firstSequence + 1) := by
    unfold Metadata.minimumBytes Metadata.divCeil blockBytes maxGroupRecords groupOverhead
    omega
  omega

theorem TailHeld.inv (tail : TailHeld recovery dirty selected files middle)
    (last : selected.segments = before ++ [segment]) :
    ∃ stop file rest, files.find? segment.segmentId = some file ∧
      Held recovery selected.databaseId file segment stop rest ∧ (rest = true → dirty = true) ∧
      middle = selected.advance stop.lastSequence stop.lastDigest selected.nextSegmentId
        (before ++ [stop]) := by
  obtain none | ⟨last', found, held, clean⟩ := tail
  · rw [none] at last
    exact absurd last (by simp)
  · obtain ⟨rfl, same⟩ := List.append_inj' (last'.symm.trans last) rfl
    cases same
    exact ⟨_, _, _, found, held, clean, rfl⟩

/-- The file of the active segment can be replaced by one with other groups. -/
theorem Acknowledged.active (sound : Metadata.Valid selected)
    (acknowledged : Acknowledged selected files manifest)
    (isActive : manifest.segments = before ++ [segment])
    (found : files.find? segment.segmentId = some file) :
    ∃ base, (∀ recovery, Held recovery selected.databaseId file base segment false) ∧
      ∀ extended, SameSegment segment extended →
        Metadata.Valid (manifest.advance extended.lastSequence extended.lastDigest manifest.nextSegmentId
          (before ++ [extended])) →
        ∃ middle news, grown middle news = manifest.advance extended.lastSequence extended.lastDigest
            manifest.nextSegmentId (before ++ [extended]) ∧
          ∀ recovery dirty file' rest, Held recovery selected.databaseId file' base extended rest →
            (rest = true → dirty = true) →
            Layout recovery dirty selected (files.insert segment.segmentId file') middle news := by
  obtain ⟨middle, news, rfl, layout⟩ := acknowledged
  rcases List.eq_nil_or_concat' news with rfl | ⟨others, last, rfl⟩
  · rcases List.eq_nil_or_concat' selected.segments with empty | ⟨initial, root, last⟩
    · obtain _ | ⟨last, _, _, _⟩ := (layout .strict).tail
      · have active : selected.segments = before ++ [segment] := isActive
        rw [empty] at active
        exact absurd active (by simp)
      · rw [empty] at last
        exact absurd last (by simp)
    · obtain ⟨stop, _, _, _, held, _, rfl⟩ := (layout .strict).tail.inv last
      obtain ⟨rfl, same⟩ := List.append_inj' isActive rfl
      cases same
      have sameRoot := (chain_same held.chain).1
      refine ⟨root, fun recovery => ?_, fun extended same valid => ?_⟩
      · obtain ⟨stop, file', rest, found', held, clean, equal⟩ := (layout recovery).tail.inv last
        have isStop := (List.append_inj' (congrArg Manifest.segments equal) rfl).2
        cases isStop
        rw [sameRoot.id] at found
        cases found.symm.trans found'
        cases rest with
        | false => exact held
        | true => exact nomatch clean rfl
      · refine ⟨_, [], rfl, fun recovery dirty file' rest held clean => ?_⟩
        rw [sameRoot.id]
        exact (layout recovery).replace_tail sound last held clean valid
  · rw [grown_segments, ← List.append_assoc] at isActive
    obtain ⟨rfl, same⟩ := List.append_inj' isActive rfl
    cases same
    refine ⟨segment.base, fun recovery => ?_, fun extended same valid => ?_⟩
    · obtain ⟨file', rest, found', held, clean⟩ := ((layout recovery).new segment List.mem_concat_self).held
      cases found.symm.trans found'
      cases rest with
      | false => exact held
      | true => exact nomatch clean rfl
    · have next : growManifest (grown middle others) extended =
          (grown middle (others ++ [segment])).advance extended.lastSequence extended.lastDigest
            (grown middle (others ++ [segment])).nextSegmentId
            (middle.segments ++ others ++ [extended]) := by
        rw [grown_concat, growManifest, growManifest, grown_segments, same.id]
        rfl
      rw [← grown_concat] at next
      have descriptor := (valid.mem (show extended ∈ (Manifest.advance _ _ _ _
        (middle.segments ++ others ++ [extended])).segments from List.mem_concat_self)).1
      refine ⟨middle, others ++ [extended], next, fun recovery dirty file' rest held clean => ?_⟩
      exact (layout recovery).replace_new sound same held clean (base_ne descriptor) (next ▸ valid)

variable {log : Log} {list : List Record} {append : Append}

/-- The identities of new segments are allocated. -/
theorem Layout.new_lt (layout : Layout recovery dirty selected files middle news) (member : segment ∈ news) :
    segment.segmentId < (grown middle news).nextSegmentId := by
  refine (layout.valid.mem ?_).2
  rw [grown_segments]
  exact List.mem_append_right _ member

/-- A complete append is acknowledged. -/
theorem Acknowledged.appended (sound : Metadata.Valid selected)
    (acknowledged : Acknowledged selected log.files log.manifest) (plans : Plans log list append) :
    Acknowledged selected (log.files.insert append.segmentId (append.before ++ append.writes))
      append.next := by
  have database := acknowledged.database
  cases plans with
  | @create id last physical final digests grouped fresh unused valid =>
      obtain ⟨middle, news, same, layout⟩ := acknowledged
      generalize isSegment : log.manifest.newSegment id last final physical = segment at valid
      have descriptor := (valid.mem (show segment ∈ (Manifest.advance _ _ _ _
        (log.manifest.segments ++ [segment])).segments from List.mem_concat_self)).1
      have first : FirstSequence segment := descriptor.first
      have isId : segment.segmentId = id := by rw [← isSegment]; rfl
      have next : grown middle (news ++ [segment]) =
          log.manifest.advance last final (id + 1) (log.manifest.segments ++ [segment]) := by
        rw [grown_concat, same, growManifest, ← isSegment]
        rfl
      refine ⟨middle, news ++ [segment], next, fun recovery => ?_⟩
      have held : Held recovery selected.databaseId (segmentHeader selected.databaseId segment ++
          log.manifest.groupFrame list final physical) segment.base segment false := by
        have bound : segment.segmentId < 2 ^ 64 := lt_trans descriptor.id.2 (by decide)
        have whole : segment.base.extend last final physical = segment := by
          rw [← isSegment]
          rfl
        have extended := @Held.extended _ _ recovery selected.databaseId _ log.manifest _ _ _ last physical
          final (held_header first bound) ⟨by rw [← isSegment]; rfl, by rw [← isSegment]; rfl⟩
          (Nat.mod_self blockBytes) (show segment.firstSequence ≤ segment.firstSequence - 1 + 1 by omega) grouped
          (whole ▸ descriptor)
        rw [whole] at extended
        exact extended
      have inserted := (layout recovery).insert_new sound
        (isId ▸ le_trans (same ▸ (layout recovery).next_le) unused.1) descriptor.id.2 first
        (base_ne descriptor) held
        ⟨by rw [same, ← isSegment]; rfl, by rw [same, ← isSegment]; rfl⟩
        (fun other member => isId ▸ lt_of_lt_of_le (same ▸ (layout recovery).new_lt member) unused.1)
        (next ▸ valid)
      rw [isId] at inserted
      rw [List.nil_append, database]
      exact inserted
  | @extend last physical final digests before segment file grouped active found exact aligned valid =>
      have ends := acknowledged.valid.last active
      have descriptor := (acknowledged.valid.mem (active ▸ List.mem_concat_self)).1
      have descriptor' := (valid.mem (show segment.extend last final physical ∈ (Manifest.advance _ _ _ _
        (before ++ [segment.extend last final physical])).segments from List.mem_concat_self)).1
      obtain ⟨base, held, replace⟩ := acknowledged.active sound active found
      obtain ⟨middle, news, next, layout⟩ := replace (segment.extend last final physical) ⟨rfl, rfl, rfl⟩ valid
      exact ⟨middle, news, next, fun recovery => layout recovery false _ false
        ((held recovery).extended ends aligned (le_trans descriptor.ordered (Nat.le_succ _)) grouped descriptor')
        nofun⟩

/-- Replacing the active segment by itself keeps the manifest. -/
theorem Acknowledged.unchanged (acknowledged : Acknowledged selected files manifest)
    (isActive : manifest.segments = before ++ [segment]) :
    manifest.advance segment.lastSequence segment.lastDigest manifest.nextSegmentId (before ++ [segment]) =
      manifest := by
  obtain ⟨sequence, digest⟩ := acknowledged.valid.last isActive
  rw [← sequence, ← digest, ← isActive]
  rfl

/-- An append that was cut leaves the acknowledged manifest. -/
theorem Acknowledged.cut {length : Nat} (sound : Metadata.Valid selected)
    (acknowledged : Acknowledged selected log.files log.manifest) (plans : Plans log list append)
    (short : length < append.writes.length) :
    Recoverable recovery selected (log.files.insert append.segmentId
      (append.before ++ append.writes.take length)) log.manifest := by
  have database := acknowledged.database
  cases plans with
  | @create id last physical final digests grouped fresh unused valid =>
      obtain ⟨middle, news, same, layout⟩ := acknowledged
      generalize isSegment : log.manifest.newSegment id last final physical = segment at valid short
      have descriptor := (valid.mem (show segment ∈ (Manifest.advance _ _ _ _
        (log.manifest.segments ++ [segment])).segments from List.mem_concat_self)).1
      have first : FirstSequence segment := descriptor.first
      have isId : segment.segmentId = id := by rw [← isSegment]; rfl
      have bound : segment.segmentId < 2 ^ 64 := lt_trans descriptor.id.2 (by decide)
      have size := length_segmentHeader log.manifest.databaseId segment
      have discarded : ∃ truncate, Discarded recovery selected.databaseId id
          ((segmentHeader log.manifest.databaseId segment ++
            log.manifest.groupFrame list final physical).take length) truncate := by
        rw [database, ← isId]
        rw [database] at size
        by_cases few : length ≤ blockBytes
        · rw [List.take_append_of_le_length (by omega)]
          have leftover := @leftover_header _ _ selected.databaseId segment length first bound few
          exact ⟨none, fun files found => leftover files recovery found, leftover⟩
        · rw [List.take_append, List.take_of_length_le (by omega), size]
          have total : (log.manifest.groupFrame list final physical).length = physical :=
            length_groupFrame grouped.size
          have within : length - blockBytes < physical := by
            simp only [List.length_append] at short
            rw [length_segmentHeader] at short
            omega
          have held := @Held.cut _ _ recovery selected.databaseId _ log.manifest _ _ _ last physical final
            (length - blockBytes) (held_header first bound)
            ⟨by rw [← isSegment]; rfl, by rw [← isSegment]; rfl⟩ grouped within
          exact ⟨_, discarded_block first bound held⟩
      obtain ⟨truncate, discarded⟩ := discarded
      rw [List.nil_append]
      exact ⟨true, middle, news, same, (layout recovery).insert_unused sound unused.2.2
        (le_trans (same ▸ (layout recovery).next_le) unused.1) discarded fun _ => rfl⟩
  | @extend last physical final digests before segment file grouped active found exact aligned valid =>
      have ends := acknowledged.valid.last active
      have same := acknowledged.unchanged active
      obtain ⟨base, held, replace⟩ := acknowledged.active sound active found
      obtain ⟨middle, news, next, layout⟩ := replace segment ⟨rfl, rfl, rfl⟩
        (same.symm ▸ acknowledged.valid)
      have total : (log.manifest.groupFrame list final physical).length = physical :=
        length_groupFrame grouped.size
      have short : length < (log.manifest.groupFrame list final physical).length := short
      exact ⟨true, middle, news, next.trans same, layout recovery true _ _
        ((held recovery).cut ends grouped (total ▸ short)) fun _ => rfl⟩

/-- A complete append adds its records to an acknowledged log. -/
theorem Acknowledged.content {records : List Record}
    (acknowledged : Acknowledged selected log.files log.manifest) (plans : Plans log list append)
    (h : readLog log.files selected.databaseId log.manifest.segments = .ok records) :
    readLog (log.files.insert append.segmentId (append.before ++ append.writes)) selected.databaseId
      append.next.segments = .ok (records ++ list) := by
  rw [← acknowledged.database] at h ⊢
  exact readLog_appended acknowledged.valid plans h

end Acknowledged

/-! ## Crashes -/

section Crashes

/-- What a crash leaves: the directory, the records of an interrupted group that
is complete, and the manifest of everything that is. -/
inductive Crashed (log : Log) : TailRecovery → Files → List (Nat × Bytes) → Manifest → Prop
  | idle {recovery : TailRecovery} : Crashed log recovery log.files [] log.manifest
  | complete {recovery : TailRecovery} {records : List (Nat × Bytes)} {append : Append}
      (live : log.poisoned = false) (planned : planAppend log records = .ok append) :
      Crashed log recovery (log.files.insert append.segmentId (append.before ++ append.writes)) records
        append.next
  | cut {recovery : TailRecovery} {records : List (Nat × Bytes)} {append : Append} {length : Nat}
      (live : log.poisoned = false) (planned : planAppend log records = .ok append)
      (short : length < append.writes.length) :
      Crashed log recovery (log.files.insert append.segmentId
        (append.before ++ append.writes.take length)) [] log.manifest
  | rejected {recovery : TailRecovery} {records : List (Nat × Bytes)} {id length : Nat} {block : Bytes}
      {error : Error} (live : log.poisoned = false)
      (planned : planAppend log records = .error (some (id, block), error)) :
      Crashed log recovery (log.files.insert id (block.take length)) [] log.manifest
  | damaged {records : List (Nat × Bytes)} {append : Append} {segment : SegmentDescriptor} {region : Bytes}
      (live : log.poisoned = false) (planned : planAppend log records = .ok append)
      (old : append.newFile = false) (active : log.manifest.segments.getLast? = some segment)
      (damaged : Damaged log.manifest.databaseId (append.before ++ region) segment) :
      Crashed log .discardInvalid (log.files.insert append.segmentId (append.before ++ region)) []
        log.manifest
  | damagedNew {records : List (Nat × Bytes)} {append : Append} {segment : SegmentDescriptor} {region : Bytes}
      (live : log.poisoned = false) (planned : planAppend log records = .ok append)
      (new : append.newFile = true) (started : append.next.segments.getLast? = some segment)
      (damaged : DamagedNew log.manifest.databaseId segment region) :
      Crashed log .discardInvalid (log.files.insert append.segmentId region) [] log.manifest

variable {recovery : TailRecovery} {selected manifest : Manifest} {log : Log} {files : Files}
  {records : List (Nat × Bytes)} {list : List Record}

/-- A file under an identity that no log file has. -/
theorem Acknowledged.unused {id : Nat} {file : Bytes} {truncate : Option Nat}
    (sound : Metadata.Valid selected) (acknowledged : Acknowledged selected log.files log.manifest)
    (later : log.manifest.nextSegmentId ≤ id) (unused : log.files.find? id = none)
    (discarded : Discarded recovery selected.databaseId id file truncate) :
    Recoverable recovery selected (log.files.insert id file) log.manifest := by
  obtain ⟨middle, news, same, layout⟩ := acknowledged
  exact ⟨true, middle, news, same, (layout recovery).insert_unused sound unused
    (le_trans (same ▸ (layout recovery).next_le) later) discarded fun _ => rfl⟩

/-- The header block that a rejected append leaves is passed over. -/
theorem leftover_rejected {id length : Nat} {block : Bytes} {error : Error}
    (planned : planAppend log records = .error (some (id, block), error)) :
    Leftover log.manifest.databaseId id (block.take length) ∧ log.manifest.nextSegmentId ≤ id ∧
      log.files.find? id = none := by
  obtain ⟨segment, rfl, rfl, first, bound, later, valid, unused⟩ := planAppend_eq_error planned
  have isFirst : FirstSequence segment := ⟨by omega, bound⟩
  have small : segment.segmentId < 2 ^ 64 := lt_trans valid.2 (by decide)
  refine ⟨?_, later, unused⟩
  by_cases inside : length ≤ blockBytes
  · exact leftover_header isFirst small inside
  · have size := length_segmentHeader log.manifest.databaseId segment
    rw [List.take_of_length_le (by omega), ← List.take_of_length_le size.le]
    exact leftover_header isFirst small le_rfl

/-- Every crash leaves a directory that recovery understands, with the records
of the acknowledged groups and of a complete interrupted one. -/
theorem Crashed.recoverable (sound : Metadata.Valid selected)
    (acknowledged : Acknowledged selected log.files log.manifest)
    (content : readLog log.files selected.databaseId log.manifest.segments = .ok list)
    (crash : Crashed log recovery files records manifest) :
    Recoverable recovery selected files manifest ∧
      ∃ more, readLog files selected.databaseId manifest.segments = .ok (list ++ more) ∧
        records = more.map fun record => (record.sequence, record.bytes) := by
  have database := acknowledged.database
  -- Without the interrupted group the log has its acknowledged records.
  have same : ∀ {files : Files}, readLog files selected.databaseId log.manifest.segments = .ok list →
      ∃ more, readLog files selected.databaseId log.manifest.segments = .ok (list ++ more) ∧
        [] = more.map fun record => (record.sequence, record.bytes) :=
    fun read => ⟨[], by rw [List.append_nil]; exact read, rfl⟩
  cases crash with
  | idle => exact ⟨acknowledged.recoverable, same content⟩
  | complete _ planned =>
      obtain ⟨more, rfl, _, plans⟩ := planAppend_eq_ok planned
      exact ⟨(acknowledged.appended sound plans).recoverable, more,
        acknowledged.content plans content, rfl⟩
  | cut _ planned short =>
      obtain ⟨more, _, _, plans⟩ := planAppend_eq_ok planned
      refine ⟨acknowledged.cut sound plans short, same ?_⟩
      cases plans with
      | create _ _ unused _ => exact readLog_unused unused.2.2 content
      | extend _ active found exact _ _ =>
          exact readLog_behind acknowledged.valid active found exact.ge content
  | @rejected _ _ id length block _ _ planned =>
      obtain ⟨leftover, later, unused⟩ := @leftover_rejected _ _ log _ id length block _ planned
      rw [database] at leftover
      exact ⟨acknowledged.unused sound later unused ⟨fun files found => leftover files recovery found,
        leftover⟩, same (readLog_unused unused content)⟩
  | damaged _ planned old last damaged =>
      obtain ⟨more, _, _, plans⟩ := planAppend_eq_ok planned
      cases plans with
      | create => cases old
      | extend _ active found exact _ _ =>
          rw [active, List.getLast?_concat] at last
          cases last
          have unchanged := acknowledged.unchanged active
          obtain ⟨base, held, replace⟩ := acknowledged.active sound active found
          obtain ⟨middle, news, next, layout⟩ := replace _ ⟨rfl, rfl, rfl⟩
            (unchanged.symm ▸ acknowledged.valid)
          rw [database] at damaged
          exact ⟨⟨true, middle, news, next.trans unchanged, layout .discardInvalid true _ true
            ((held .discardInvalid).damaged damaged) fun _ => rfl⟩,
            same (readLog_behind acknowledged.valid active found exact.ge content)⟩
  | damagedNew _ planned new started damaged =>
      obtain ⟨more, _, _, plans⟩ := planAppend_eq_ok planned
      cases plans with
      | extend => cases new
      | @create id last physical final _ _ _ unused valid =>
          have isSegment : (log.manifest.segments ++ [log.manifest.newSegment id last final physical]).getLast? =
              some _ := started
          rw [List.getLast?_concat] at isSegment
          cases isSegment
          have descriptor := (valid.mem (show log.manifest.newSegment id last final physical ∈
            (Manifest.advance _ _ _ _ (log.manifest.segments ++
              [log.manifest.newSegment id last final physical])).segments from List.mem_concat_self)).1
          rw [database] at damaged
          obtain ⟨truncate, discarded⟩ := discarded_damaged descriptor.first
            (lt_trans descriptor.id.2 (by decide)) damaged
          exact ⟨acknowledged.unused sound unused.1 unused.2.2 discarded,
            same (readLog_unused unused.2.2 content)⟩

/-- A successful recovery listed the log files. -/
theorem recoverTail_few {fails : Nat → FlushCall → Bool} {left : Files}
    (h : recoverTail fails files selected recovery = (left, .ok manifest)) :
    (logIds files selected.nextSegmentId).length ≤ 1048576 := by
  cases walked : walkTail files selected recovery with
  | error error =>
      simp only [recoverTail, walked] at h
      cases h
  | ok walk =>
      obtain ⟨_, _, _, isIds, _, _⟩ := walkTail_eq_ok.mp walked
      obtain ⟨_, few, _⟩ := bind_eq_ok.mp isIds
      exact not_lt.mp (refuse_eq_ok.mp few)

end Crashes

/-! ## Runs -/

section Runs

/-- A directory from which a selected manifest starts: its segments can be read,
its last file ends with its last segment, and every recovery passes over the
other files. -/
structure Starts (selected : Manifest) (start : Files) (base : List Record) : Prop where
  valid : Metadata.validateManifest selected = .ok ()
  logs : readLog start selected.databaseId selected.segments = .ok base
  active : ∀ segment file, selected.segments.getLast? = some segment →
    start.find? segment.segmentId = some file → file.length = segment.committedBytes
  others : ∀ id file, selected.nextSegmentId ≤ id → id < maxU64 → start.find? id = some file →
    Leftover selected.databaseId id file

/-- Runs from a selected manifest, with the records that were acknowledged or
were found complete after a crash. -/
inductive Run (selected : Manifest) (start : Files) : Log → List (Nat × Bytes) → Prop
  | start (rotate : Bool) : Run selected start ⟨start, selected, rotate, false⟩ []
  | append {log log' : Log} {acknowledged records : List (Nat × Bytes)} {digest : Digest}
      (run : Run selected start log acknowledged)
      (appended : appendWal log records = (log', .ok digest)) :
      Run selected start log' (acknowledged ++ records)
  | reject {log log' : Log} {acknowledged records : List (Nat × Bytes)} {error : Error}
      (run : Run selected start log acknowledged)
      (rejected : appendWal log records = (log', .error error)) :
      Run selected start log' acknowledged
  | rotate {log : Log} {acknowledged : List (Nat × Bytes)} (next : Bool)
      (run : Run selected start log acknowledged) :
      Run selected start { log with rotateNext := next } acknowledged
  | reopen {log : Log} {recovery : TailRecovery} {files left : Files} {manifest recovered : Manifest}
      {acknowledged records : List (Nat × Bytes)} (run : Run selected start log acknowledged)
      (crash : Crashed log recovery files records manifest)
      (opened : recoverTail reliable files selected recovery = (left, .ok recovered)) :
      Run selected start ⟨left, recovered, true, false⟩ (acknowledged ++ records)

variable {recovery : TailRecovery} {selected manifest : Manifest} {start files : Files} {log : Log}
  {acknowledged records : List (Nat × Bytes)} {base list : List Record}

/-- The log of a run: recovery would find its manifest, and its records are
those of the start and the acknowledged ones, in order. -/
structure Sound (selected : Manifest) (base : List Record) (log : Log)
    (acknowledged : List (Nat × Bytes)) : Prop where
  kept : Acknowledged selected log.files log.manifest
  content : ∃ list, readLog log.files selected.databaseId log.manifest.segments = .ok (base ++ list) ∧
    list.map (fun record => (record.sequence, record.bytes)) = acknowledged

/-- Recovery after a crash returns the expected manifest and a sound log. -/
theorem Sound.recovers (valid : Metadata.Valid selected) (sound : Sound selected base log acknowledged)
    (crash : Crashed log recovery files records manifest)
    (few : (logIds files selected.nextSegmentId).length ≤ 1048576) :
    ∃ clean, recoverTail reliable files selected recovery = (clean, .ok manifest) ∧
      ∀ rotate, Sound selected base ⟨clean, manifest, rotate, false⟩ (acknowledged ++ records) := by
  obtain ⟨list, content, isAcknowledged⟩ := sound.content
  obtain ⟨⟨dirty, middle, news, rfl, layout⟩, more, read, isMore⟩ :=
    crash.recoverable valid sound.kept content
  obtain ⟨clean, recovered, layouts, keeps⟩ := layout.recovers valid few
  refine ⟨clean, recovered, fun rotate => ⟨⟨middle, news, rfl, layouts⟩, list ++ more, ?_, ?_⟩⟩
  · rw [← List.append_assoc]
    exact readLog_keeps keeps (fun segment member => (layout.valid.mem member).1) read
  · rw [List.map_append, isAcknowledged, isMore]

/-- The start of a run. -/
theorem Starts.kept (starts : Starts selected start base) : Acknowledged selected start selected := by
  have valid := Metadata.validateManifest_eq_ok.mp starts.valid
  refine ⟨selected, [], rfl, fun recovery => ⟨?_, trivial, .nil, nofun, fun id file later bound found _ => ?_,
    valid⟩⟩
  · rcases List.eq_nil_or_concat' selected.segments with empty | ⟨before, segment, last⟩
    · exact .empty empty
    · have logs := starts.logs
      rw [last] at logs
      obtain ⟨_, _, _, single, _⟩ := readLog_append.mp logs
      obtain ⟨file, _, _, found, read, _⟩ := readLog_cons.mp single
      obtain ⟨_, _, opened, _⟩ := readSuffix_eq_ok.mp read
      obtain ⟨descriptor, opens, _⟩ := suffix_eq_ok.mp opened
      have exact := starts.active segment file (by rw [last, List.getLast?_concat]) found
      have held : Held recovery selected.databaseId file segment segment false :=
        ⟨opens, descriptor.block, .refl, exact.ge, stops_whole exact, fun _ => exact⟩
      obtain ⟨sequence, digest⟩ := valid.last last
      have tail := @TailHeld.held _ _ recovery false selected start before segment segment file false last
        found held nofun
      rw [← sequence, ← digest, ← last] at tail
      exact tail
  · have leftover := starts.others id file later bound found
    exact ⟨none, ⟨fun files isFile => leftover files recovery isFile, leftover⟩, nofun⟩

/-- Every run keeps its log sound. -/
theorem Run.sound (starts : Starts selected start base) (run : Run selected start log acknowledged) :
    Sound selected base log acknowledged := by
  have valid := Metadata.validateManifest_eq_ok.mp starts.valid
  induction run with
  | start rotate =>
      refine ⟨starts.kept, [], ?_, rfl⟩
      rw [List.append_nil]
      exact starts.logs
  | @append log log' _ records digest run appended ih =>
      obtain ⟨list, content, isAcknowledged⟩ := ih.content
      unfold appendWal at appended
      split_ifs at appended
      · cases appended
      · cases planned : planAppend log records with
        | error failure =>
            obtain ⟨left, error⟩ := failure
            rw [planned] at appended
            cases left <;> cases appended
        | ok append =>
            rw [planned] at appended
            cases appended
            obtain ⟨more, rfl, _, plans⟩ := planAppend_eq_ok planned
            refine ⟨ih.kept.appended valid plans, list ++ more, ?_, ?_⟩
            · rw [← List.append_assoc]
              exact ih.kept.content plans content
            · rw [List.map_append, isAcknowledged]
  | @reject log log' _ records error run rejected ih =>
      unfold appendWal at rejected
      split_ifs at rejected
      · cases rejected
        exact ih
      · cases planned : planAppend log records with
        | ok append =>
            rw [planned] at rejected
            cases rejected
        | error failure =>
            obtain ⟨left, error⟩ := failure
            rw [planned] at rejected
            cases left with
            | none =>
                cases rejected
                exact ⟨ih.kept, ih.content⟩
            | some created =>
                obtain ⟨id, block⟩ := created
                cases rejected
                obtain ⟨leftover, later, unused⟩ :=
                  @leftover_rejected _ _ log records id block.length block error planned
                rw [List.take_length, ih.kept.database] at leftover
                obtain ⟨list, content, isAcknowledged⟩ := ih.content
                obtain ⟨middle, news, same, layout⟩ := ih.kept
                exact ⟨⟨middle, news, same, fun recovery => (layout recovery).insert_unused valid unused
                  (le_trans (same ▸ (layout recovery).next_le) later)
                  ⟨fun files found => leftover files recovery found, leftover⟩ nofun⟩,
                  list, readLog_unused unused content, isAcknowledged⟩
  | rotate next run ih => exact ⟨ih.kept, ih.content⟩
  | reopen run crash opened ih =>
      obtain ⟨clean, recovered, sound⟩ := ih.recovers valid crash (recoverTail_few opened)
      cases recovered.symm.trans opened
      exact sound true

/-- Recovery after any crash of any run returns the manifest of the acknowledged
groups, or also of a complete interrupted one, and the log then holds the
records of the start and these records, each once and in order.  The log files
that it lists are bounded. -/
theorem recoverTail_acknowledged (starts : Starts selected start base)
    (run : Run selected start log acknowledged)
    (crash : Crashed log recovery files records manifest)
    (few : (logIds files selected.nextSegmentId).length ≤ 1048576) :
    ∃ clean list, recoverTail reliable files selected recovery = (clean, .ok manifest) ∧
      readLog clean manifest.databaseId manifest.segments = .ok (base ++ list) ∧
      list.map (fun record => (record.sequence, record.bytes)) = acknowledged ++ records := by
  have valid := Metadata.validateManifest_eq_ok.mp starts.valid
  obtain ⟨clean, recovered, sound⟩ := (run.sound starts).recovers valid crash few
  obtain ⟨list, content, same⟩ := (sound false).content
  refine ⟨clean, list, recovered, ?_, same⟩
  rw [(sound false).kept.database]
  exact content

end Runs

end Checksums

namespace RunSample

scoped instance : Crc32c := castagnoli

/-- The canonical record of an empty transaction behind the genesis of a created
store. -/
def record : Bytes :=
  recordMagic ++ leBytes 2 64 ++ leBytes 2 1 ++ leBytes 4 72 ++ leBytes 4 0 ++ leBytes 8 1 ++
    [1, 0, 0, 0] ++ List.replicate 32 7 ++ zeros 4 ++ leBytes 4 1636433063 ++ leBytes 4 72

/-- The SHA-256 digest of the record. -/
def recordDigest : Bytes :=
  [232, 35, 132, 213, 110, 79, 211, 141, 235, 92, 123, 79, 90, 223, 27, 48, 119, 118, 5, 12, 16, 64, 206,
    27, 203, 78, 153, 166, 63, 66, 238, 201]

/-- The SHA-256 digest of the header and the record of its group. -/
def groupDigest : Bytes :=
  [65, 122, 139, 203, 220, 215, 67, 119, 144, 2, 188, 151, 115, 177, 8, 70, 44, 54, 93, 207, 104, 187, 210,
    1, 111, 7, 134, 105, 195, 170, 91, 32]

/-- The digests of the two strings that are hashed here. -/
def digest (bytes : Bytes) : Bytes := if bytes = record then recordDigest else groupDigest

scoped instance : Sha256 := ⟨digest, fun bytes => by unfold digest; split <;> rfl⟩

/-- A created store. -/
def log : Log := ⟨∅, Sample.created, false, false⟩

theorem starts_created : Starts Sample.created ∅ [] where
  valid := by decide
  logs := rfl
  active := nofun
  others := nofun

theorem record_planned : ∃ append, planAppend log [(1, record)] = .ok append ∧ 5000 < append.writes.length := by
  have planned : ((planAppend log [(1, record)]).toOption.any fun append =>
      decide (5000 < append.writes.length)) = true := by
    decide +kernel
  cases isPlan : planAppend log [(1, record)] with
  | error failure =>
      rw [isPlan] at planned
      cases planned
  | ok append =>
      rw [isPlan] at planned
      exact ⟨append, rfl, of_decide_eq_true planned⟩

/-- A first append that was cut inside its group. -/
theorem recovered_cut :
    ∃ append clean list, planAppend log [(1, record)] = .ok append ∧
      recoverTail reliable ((∅ : Files).insert append.segmentId
        (append.before ++ append.writes.take 5000)) Sample.created .strict = (clean, .ok Sample.created) ∧
      readLog clean Sample.created.databaseId Sample.created.segments = .ok ([] ++ list) ∧
      list.map (fun record => (record.sequence, record.bytes)) = [] := by
  obtain ⟨append, planned, long⟩ := record_planned
  obtain ⟨clean, list, recovered, content, same⟩ := recoverTail_acknowledged starts_created (.start false)
    (@Crashed.cut _ _ log .strict _ append 5000 rfl planned long)
    (le_trans (List.length_filter_le _ _) (show [append.segmentId].length ≤ 1048576 by simp))
  exact ⟨append, clean, list, planned, recovered, content, same⟩

/-- A directory with empty log files, as crashes after their creation leave
them. -/
def crowd (count : Nat) : Files :=
  ⟨(List.range count).map fun id => (id + 1, []), by
    refine List.pairwise_map.mpr (List.pairwise_lt_range.imp fun less => ?_)
    exact Nat.succ_lt_succ less⟩

theorem crowd_find {count id : Nat} {file : Bytes} (found : (crowd count).find? id = some file) :
    file = [] := by
  obtain ⟨_, _, same⟩ := List.mem_map.mp (OrdMap.find?_eq_some.mp found)
  exact (congrArg Prod.snd same).symm

theorem starts_crowd (count : Nat) : Starts Sample.created (crowd count) [] where
  valid := by decide
  logs := rfl
  active := nofun
  others id file _ _ found := by
    rw [crowd_find found]
    exact leftover_short (by decide)

theorem logIds_crowd {count : Nat} (small : count < maxU64) : (logIds (crowd count) 1).length = count := by
  have keys : (crowd count).keys = (List.range count).map (· + 1) := by
    show ((List.range count).map fun id => (id + 1, ([] : Bytes))).map Prod.fst = _
    rw [List.map_map]
    rfl
  have all : logIds (crowd count) 1 = (List.range count).map (· + 1) := by
    rw [logIds, keys, List.filter_eq_self]
    intro id member
    obtain ⟨index, inside, rfl⟩ := List.mem_map.mp member
    have inside := List.mem_range.mp inside
    exact decide_eq_true ⟨by omega, by omega⟩
  rw [all, List.length_map, List.length_range]

/-- With more log files than recovery lists, it fails. -/
theorem crowd_exhausts :
    ¬ ∀ selected start base log acknowledged files records manifest,
      Starts selected start base → Run selected start log acknowledged →
      Crashed log .strict files records manifest →
      ∃ clean, recoverTail reliable files selected .strict = (clean, .ok manifest) := by
  intro all
  obtain ⟨clean, recovered⟩ := all Sample.created (crowd 1048577) [] _ [] _ [] _ (starts_crowd 1048577)
    (.start true) .idle
  have few := recoverTail_few recovered
  have many : (logIds (crowd 1048577) 1).length = 1048577 := logIds_crowd (by decide)
  have few : (logIds (crowd 1048577) 1).length ≤ 1048576 := few
  omega

end RunSample

end BlopDb.Storage.Wal
