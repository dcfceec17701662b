/-
# The records of a log

The committed prefixes of the segments of a manifest hold one list of records.
The records follow each other from the log floor to the durable frontier, each
naming the digest of the one before it, and an append adds its own records at
the end.
-/

import BlopDb.Storage.Layout

namespace BlopDb.Storage.Wal

open BlopDb.Lib
open Metadata (blockBytes maxGroupRecords groupOverhead maxRecordLength segmentHeaderLength)

variable [Crc32c] [Sha256]

/-! ## Reading segments in order -/

section Content

/-- The records of segments, in order. -/
def readLog (files : Files) (database : Fixed 16) : List SegmentDescriptor → Except Error (List Record)
  | [] => .ok []
  | segment :: rest =>
      match files.find? segment.segmentId with
      | none => .error (.corrupt "missing authoritative log segment")
      | some file => do
          let records ← readSuffix file database segment blockBytes segment.firstSequence
            segment.predecessorDigest
          let more ← readLog files database rest
          return records ++ more

variable {files clean : Files} {database : Fixed 16} {segment : SegmentDescriptor}
  {segments left right : List SegmentDescriptor} {records : List Record}

theorem readLog_cons :
    readLog files database (segment :: segments) = .ok records ↔
      ∃ file first rest, files.find? segment.segmentId = some file ∧
        readSuffix file database segment blockBytes segment.firstSequence segment.predecessorDigest =
          .ok first ∧ readLog files database segments = .ok rest ∧ records = first ++ rest := by
  rw [readLog]
  cases files.find? segment.segmentId with
  | none => simp
  | some file =>
      constructor
      · intro h
        obtain ⟨first, read, h⟩ := bind_eq_ok.mp h
        obtain ⟨rest, more, h⟩ := bind_eq_ok.mp h
        cases h
        exact ⟨file, first, rest, rfl, read, more, rfl⟩
      · rintro ⟨file', first, rest, same, read, more, rfl⟩
        cases same
        simp only [read, more, ok_bind]
        rfl

theorem readLog_append :
    readLog files database (left ++ right) = .ok records ↔
      ∃ first second, readLog files database left = .ok first ∧
        readLog files database right = .ok second ∧ records = first ++ second := by
  induction left generalizing records with
  | nil =>
      constructor
      · intro h
        exact ⟨[], records, rfl, h, rfl⟩
      · rintro ⟨first, second, empty, more, rfl⟩
        cases empty
        exact more
  | cons segment rest ih =>
      rw [List.cons_append, readLog_cons]
      constructor
      · rintro ⟨file, own, others, found, read, more, rfl⟩
        obtain ⟨first, second, begins, ends, rfl⟩ := ih.mp more
        exact ⟨own ++ first, second, readLog_cons.mpr ⟨file, own, first, found, read, begins, rfl⟩, ends,
          (List.append_assoc _ _ _).symm⟩
      · rintro ⟨first, second, begins, ends, rfl⟩
        obtain ⟨file, own, others, found, read, more, rfl⟩ := readLog_cons.mp begins
        exact ⟨file, own, others ++ second, found, read, ih.mpr ⟨others, second, more, ends, rfl⟩,
          List.append_assoc _ _ _⟩

theorem readLog_found (h : readLog files database segments = .ok records) (member : segment ∈ segments) :
    ∃ file, files.find? segment.segmentId = some file := by
  obtain ⟨before, after, rfl⟩ := List.append_of_mem member
  obtain ⟨_, _, _, more, _⟩ := readLog_append.mp h
  obtain ⟨file, _, _, found, _⟩ := readLog_cons.mp more
  exact ⟨file, found⟩

theorem readSuffix_take {file : Bytes} {limit offset first : Nat} {predecessor : Digest}
    (block : blockBytes ≤ limit) (committed : segment.committedBytes ≤ limit) :
    readSuffix (file.take limit) database segment offset first predecessor =
      readSuffix file database segment offset first predecessor := by
  rw [readSuffix, suffix_take block committed, readSuffix]

/-- Reading looks at committed prefixes only. -/
theorem readLog_keeps (keeps : Keeps files clean segments)
    (descriptors : ∀ segment ∈ segments, Metadata.Descriptor segment)
    (h : readLog files database segments = .ok records) :
    readLog clean database segments = .ok records := by
  induction segments generalizing records with
  | nil => exact h
  | cons segment rest ih =>
      obtain ⟨file, first, others, found, read, more, rfl⟩ := readLog_cons.mp h
      obtain ⟨file', found', same⟩ := keeps segment List.mem_cons_self file found
      have block := (descriptors segment List.mem_cons_self).block
      refine readLog_cons.mpr ⟨file', first, others, found', ?_, ih
        (fun other member => keeps other (List.mem_cons_of_mem _ member))
        (fun other member => descriptors other (List.mem_cons_of_mem _ member)) more, rfl⟩
      rw [← readSuffix_take block le_rfl, same, readSuffix_take block le_rfl]
      exact read

/-- A file outside the segments does not matter. -/
theorem readLog_insert {id : Nat} {file : Bytes} (outside : ∀ segment ∈ segments, id ≠ segment.segmentId)
    (h : readLog files database segments = .ok records) :
    readLog (files.insert id file) database segments = .ok records := by
  induction segments generalizing records with
  | nil => exact h
  | cons segment rest ih =>
      obtain ⟨file', first, others, found, read, more, rfl⟩ := readLog_cons.mp h
      refine readLog_cons.mpr ⟨file', first, others, ?_, read, ih
        (fun other member => outside other (List.mem_cons_of_mem _ member)) more, rfl⟩
      rw [files.find?_insert_of_ne _ (outside segment List.mem_cons_self)]
      exact found

/-- A file under an unused identity does not matter. -/
theorem readLog_unused {id : Nat} {file : Bytes} (unused : files.find? id = none)
    (h : readLog files database segments = .ok records) :
    readLog (files.insert id file) database segments = .ok records := by
  refine readLog_insert ?_ h
  rintro segment member rfl
  obtain ⟨file, found⟩ := readLog_found h member
  rw [unused] at found
  cases found

/-- Bytes behind the active segment do not matter. -/
theorem readLog_behind {manifest : Manifest} {before : List SegmentDescriptor} {file region : Bytes}
    (valid : Metadata.Valid manifest) (active : manifest.segments = before ++ [segment])
    (found : files.find? segment.segmentId = some file) (inside : segment.committedBytes ≤ file.length)
    (h : readLog files database manifest.segments = .ok records) :
    readLog (files.insert segment.segmentId (file ++ region)) database manifest.segments = .ok records := by
  refine readLog_keeps ?_ (fun other member => (valid.mem member).1) h
  intro other member file' found'
  rw [active] at member
  rcases List.mem_append.mp member with earlier | isLast
  · refine ⟨file', ?_, rfl⟩
    rw [files.find?_insert_of_ne _ (valid.before active earlier).ne']
    exact found'
  · cases List.mem_singleton.mp isLast
    cases found.symm.trans found'
    exact ⟨_, files.find?_insert_self _ _, List.take_append_of_le_length inside⟩

variable {log : Log} {list : List Record} {append : Append}

/-- A complete append adds its records. -/
theorem readLog_appended (sound : Metadata.Valid log.manifest) (plans : Plans log list append)
    (h : readLog log.files log.manifest.databaseId log.manifest.segments = .ok records) :
    readLog (log.files.insert append.segmentId (append.before ++ append.writes)) log.manifest.databaseId
      append.next.segments = .ok (records ++ list) := by
  cases plans with
  | @create id last physical final digests grouped fresh unused valid =>
      generalize isSegment : log.manifest.newSegment id last final physical = segment at valid
      have descriptor := (valid.mem (show segment ∈ (Manifest.advance _ _ _ _
        (log.manifest.segments ++ [segment])).segments from List.mem_concat_self)).1
      have bound : segment.segmentId < 2 ^ 64 := lt_trans descriptor.id.2 (by decide)
      have first : segment.firstSequence < 2 ^ 64 := lt_trans descriptor.first.2 (by decide)
      have whole : segment.base.extend last final physical = segment := by
        rw [← isSegment]
        rfl
      have begins : segment.base.lastSequence + 1 = segment.firstSequence :=
        Nat.sub_add_cancel (Nat.one_le_iff_ne_zero.mpr descriptor.first.1)
      have isBase : log.manifest.durableSequence = segment.base.lastSequence ∧
          log.manifest.durableDigest = segment.base.lastDigest := by
        rw [← isSegment]
        exact ⟨rfl, rfl⟩
      obtain ⟨consecutive, nonempty, header, size⟩ := grouped
      have opens : Opens log.manifest.databaseId (segmentHeader log.manifest.databaseId segment)
          segment.base := by
        have opens := @opens_segmentHeader _ log.manifest.databaseId segment [] bound first
        rw [List.append_nil] at opens
        exact opens.same ⟨rfl, rfl, rfl⟩
      unfold Manifest.groupFrame
      rw [isBase.1, isBase.2] at consecutive header size ⊢
      have read := (@accepts_frame _ _ _ _ [] _ segment _ _ _ _ opens
        (length_segmentHeader _ _) le_rfl (Nat.mod_self blockBytes) begins.ge consecutive nonempty header
        size whole.symm descriptor).1
      rw [List.append_nil, begins] at read
      refine readLog_append.mpr ⟨records, list, readLog_unused unused.2.2 h, ?_, rfl⟩
      refine readLog_cons.mpr ⟨_, list, [], ?_, read, rfl, (List.append_nil _).symm⟩
      have isId : segment.segmentId = id := by
        rw [← isSegment]
        rfl
      rw [isId, List.nil_append]
      exact log.files.find?_insert_self _ _
  | @extend last physical final digests before segment file grouped active found exact aligned valid =>
      have ends := sound.last active
      have descriptor := (sound.mem (active ▸ List.mem_concat_self)).1
      have descriptor' := (valid.mem (show segment.extend last final physical ∈ (Manifest.advance _ _ _ _
        (before ++ [segment.extend last final physical])).segments from List.mem_concat_self)).1
      rw [active] at h
      obtain ⟨earlier, own, begins, single, rfl⟩ := readLog_append.mp h
      obtain ⟨file', own, others, found', read, empty, rfl⟩ := readLog_cons.mp single
      cases found.symm.trans found'
      cases empty
      obtain ⟨_, _, opened, _⟩ := readSuffix_eq_ok.mp read
      obtain ⟨_, opens, _⟩ := suffix_eq_ok.mp opened
      obtain ⟨consecutive, nonempty, header, size⟩ := grouped
      unfold Manifest.groupFrame
      rw [ends.1, ends.2] at consecutive header size ⊢
      have more := (@accepts_frame _ _ _ _ [] _ _ _ _ _ _ opens exact descriptor.block aligned
        (le_trans descriptor.ordered (Nat.le_succ _)) consecutive nonempty header size rfl descriptor').1
      rw [List.append_nil] at more
      have read' : readSuffix (file ++ groupFrame (groupHeader segment.lastSequence segment.lastDigest final
          list) list physical) log.manifest.databaseId segment blockBytes segment.firstSequence
          segment.predecessorDigest = .ok own := by
        rw [← readSuffix_take descriptor.block le_rfl, ← exact, List.take_left]
        exact read
      have joined := readSuffix_join (show SameSegment segment (segment.extend last final physical) from
        ⟨rfl, rfl, rfl⟩) read' more
      refine readLog_append.mpr ⟨earlier, own ++ list, readLog_insert (fun other member =>
        (sound.before active member).ne') begins, ?_, ?_⟩
      · exact readLog_cons.mpr ⟨_, own ++ list, [], log.files.find?_insert_self _ _, joined, rfl,
          (List.append_nil _).symm⟩
      · rw [List.append_nil, List.append_assoc]

end Content

/-! ## Consecutive records -/

section Sequence

variable {previous middle last : Nat} {digest joint final : Digest} {record : Record}
  {records left right : List Record}

theorem Consecutive.append (first : Consecutive previous digest left middle joint)
    (second : Consecutive middle joint right last final) :
    Consecutive previous digest (left ++ right) last final := by
  induction first with
  | nil => exact second
  | cons next bound valid _ ih => exact .cons next bound valid (ih second)

theorem Consecutive.unique {last' : Nat} {final' : Digest}
    (first : Consecutive previous digest records last final)
    (second : Consecutive previous digest records last' final') : last = last' ∧ final = final' := by
  induction first with
  | nil =>
      cases second
      exact ⟨rfl, rfl⟩
  | cons _ _ _ _ ih =>
      cases second with
      | cons _ _ _ more => exact ih more

theorem Consecutive.mem (consecutive : Consecutive previous digest records last final)
    (member : record ∈ records) : previous < record.sequence ∧ record.sequence ≤ last := by
  induction consecutive with
  | nil => cases member
  | cons next _ _ more ih =>
      obtain rfl | later := List.mem_cons.mp member
      · have ends := more.last_eq
        omega
      · have bounds := ih later
        omega

/-- The last record carries the digest at the end. -/
theorem Consecutive.at_last (consecutive : Consecutive previous digest records last final)
    (member : record ∈ records) (atLast : record.sequence = last) : record.digest = final := by
  induction consecutive with
  | nil => cases member
  | cons _ _ _ more ih =>
      obtain rfl | later := List.mem_cons.mp member
      · have empty := more.last_eq
        rw [atLast] at empty
        have empty := List.eq_nil_of_length_eq_zero (Nat.left_eq_add.mp empty)
        subst empty
        cases more
        rfl
      · exact ih later atLast

theorem Consecutive.exists_last (consecutive : Consecutive previous digest records last final)
    (later : previous < last) : ∃ record ∈ records, record.sequence = last ∧ record.digest = final := by
  induction consecutive with
  | nil => exact absurd later (lt_irrefl _)
  | @cons previous last digest final record rest next _ _ more ih =>
      by_cases rests : record.sequence < last
      · obtain ⟨found, member, same⟩ := ih rests
        exact ⟨found, List.mem_cons_of_mem _ member, same⟩
      · have ends := more.last_eq
        have empty : rest = [] := List.eq_nil_of_length_eq_zero (by omega)
        subst empty
        cases more
        exact ⟨record, List.mem_cons_self, rfl, rfl⟩

theorem Consecutive.sequence_eq {position : Nat} (consecutive : Consecutive previous digest records last final)
    (found : records[position]? = some record) : record.sequence = previous + 1 + position := by
  induction consecutive generalizing position with
  | nil => cases found
  | cons next _ _ _ ih =>
      cases position with
      | zero =>
          cases found
          exact next
      | succ position =>
          rw [List.getElem?_cons_succ] at found
          have place := ih found
          omega

/-- The sequences of consecutive records. -/
theorem Consecutive.map_sequence (consecutive : Consecutive previous digest records last final) :
    records.map Record.sequence = List.range' (previous + 1) records.length := by
  induction consecutive with
  | nil => rfl
  | cons next _ _ _ ih => rw [List.map_cons, ih, next, List.length_cons, List.range'_succ]

/-- A record names its predecessor. -/
theorem validateRecord_predecessor {input : Bytes} {remaining sequence : Nat}
    {predecessor predecessor' : Digest} {result result' : Nat × Digest}
    (first : validateRecord input remaining sequence predecessor = .ok result)
    (second : validateRecord input remaining sequence predecessor' = .ok result') :
    predecessor = predecessor' := by
  have named : ∀ {predecessor : Digest} {result : Nat × Digest},
      validateRecord input remaining sequence predecessor = .ok result →
      ∃ header rest, readCommitted input 64 = .ok (header, rest) ∧ slice header 28 32 = predecessor.1 := by
    intro predecessor result h
    obtain ⟨_, _, h⟩ := bind_eq_ok.mp h
    obtain ⟨⟨header, rest⟩, read, h⟩ := bind_eq_ok.mp h
    obtain ⟨_, _, h⟩ := bind_eq_ok.mp h
    obtain ⟨⟨body, rest'⟩, _, h⟩ := bind_eq_ok.mp h
    obtain ⟨⟨trailer, _⟩, _, h⟩ := bind_eq_ok.mp h
    obtain ⟨_, _, h⟩ := bind_eq_ok.mp h
    obtain ⟨_, _, h⟩ := bind_eq_ok.mp h
    obtain ⟨_, _, h⟩ := bind_eq_ok.mp h
    obtain ⟨_, _, h⟩ := bind_eq_ok.mp h
    obtain ⟨_, _, h⟩ := bind_eq_ok.mp h
    obtain ⟨_, _, h⟩ := bind_eq_ok.mp h
    obtain ⟨_, place, _⟩ := bind_eq_ok.mp h
    have place := not_or.mp (refuse_eq_ok.mp place)
    exact ⟨header, rest, read, not_not.mp place.2⟩
  obtain ⟨header, rest, read, isFirst⟩ := named first
  obtain ⟨header', rest', read', isSecond⟩ := named second
  cases read.symm.trans read'
  exact Subtype.ext (isFirst.symm.trans isSecond)

/-- Records know the digest before them. -/
theorem Consecutive.start_unique {digest' final' : Digest} {last' : Nat}
    (first : Consecutive previous digest records last final)
    (second : Consecutive previous digest' records last' final') (nonempty : records ≠ []) :
    digest = digest' := by
  cases first with
  | nil => exact absurd rfl nonempty
  | cons _ _ valid _ =>
      cases second with
      | cons _ _ valid' _ => exact validateRecord_predecessor valid valid'

/-- The records above a sequence are a final part. -/
theorem Consecutive.filter_eq_drop {sequence : Nat}
    (consecutive : Consecutive previous digest records last final) (above : previous ≤ sequence) :
    (records.filter fun record => decide (sequence < record.sequence)) = records.drop (sequence - previous) := by
  induction consecutive with
  | nil => simp
  | @cons previous last digest final record rest next bound valid more ih =>
      by_cases atStart : sequence = previous
      · subst atStart
        rw [Nat.sub_self, List.drop_zero, List.filter_eq_self]
        intro other member
        exact decide_eq_true ((Consecutive.cons next bound valid more).mem member).1
      · have within : ¬ sequence < record.sequence := by omega
        have steps : sequence - previous = sequence - record.sequence + 1 := by omega
        rw [List.filter_cons, if_neg (by simpa using within), steps, List.drop_succ_cons]
        exact ih (by omega)

variable {file : Bytes} {database : Fixed 16} {segment : SegmentDescriptor}

/-- A reader passes consecutive records. -/
theorem readRecords_consecutive {count missing : Nat} {reader after : Reader}
    (backed : reader.Backed missing) (positive : reader.sequence ≠ 0)
    (bound : reader.sequence + count ≤ maxU64) (h : readRecords count reader = .ok (records, after)) :
    Consecutive (reader.sequence - 1) reader.predecessor records (after.sequence - 1)
      after.predecessor := by
  induction count generalizing reader records with
  | zero =>
      cases h
      exact .nil _ _
  | succ count ih =>
      obtain ⟨record, next, rest, read, more, rfl⟩ := readRecords_succ.mp h
      obtain ⟨backed', sequence, sequence', predecessor', _⟩ := nextRecord_place backed read
      obtain ⟨opened, group, input, opening, canonical, _⟩ := nextRecord_eq_ok.mp read
      obtain ⟨_, atSequence, atPredecessor, _⟩ := openGroup_place backed opening
      obtain ⟨_, _, _, valid⟩ := readCanonical_eq_ok.mp canonical
      have tail := ih backed' (by omega) (by omega) more
      rw [sequence', Nat.add_sub_cancel, predecessor', ← sequence] at tail
      rw [atSequence, atPredecessor, ← sequence] at valid
      exact .cons (by omega) (by omega) valid tail

/-- The records of a segment lead to its end. -/
theorem readSuffix_consecutive {offset first : Nat} {predecessor : Digest}
    (h : readSuffix file database segment offset first predecessor = .ok records) :
    Consecutive (first - 1) predecessor records segment.lastSequence segment.lastDigest := by
  obtain ⟨reader, after, opened, read⟩ := readSuffix_eq_ok.mp h
  obtain ⟨long, _, rfl⟩ := readSuffix_end opened read
  obtain ⟨descriptor, _, _, inside, begins, within, _, rfl⟩ := suffix_eq_ok.mp opened
  have backed : Reader.Backed ⟨(file.drop offset).take (segment.committedBytes - offset),
      segment.committedBytes - offset, first, predecessor, segment.lastSequence, segment.lastDigest,
      none⟩ 0 := by
    unfold Reader.Backed
    simp only [List.length_take, List.length_drop]
    omega
  have positive : first ≠ 0 := by
    have := descriptor.first.1
    omega
  have bound := descriptor.last.2
  exact readRecords_consecutive backed positive (by simp only; omega) read

/-- The records of a chain of segments lead to its end. -/
theorem readLog_consecutive {manifest : Manifest} {files : Files} {segments : List SegmentDescriptor}
    {start stop : Metadata.Joint} (chain : Metadata.Chain manifest start segments stop)
    (ends : stop.digest = some final) (h : readLog files database segments = .ok records) :
    ∃ digest, (∀ known, start.digest = some known → known = digest) ∧
      (∀ segment, segments.head? = some segment → segment.predecessorDigest = digest) ∧
      Consecutive (start.sequence - 1) digest records (stop.sequence - 1) final := by
  induction chain generalizing records with
  | nil joint =>
      cases h
      refine ⟨final, fun known same => ?_, nofun, .nil _ _⟩
      exact Option.some.inj (same.symm.trans ends)
  | @cons joint stop segment rest continues _ ih =>
      obtain ⟨file, own, others, _, read, more, rfl⟩ := readLog_cons.mp h
      obtain ⟨digest, known, _, tail⟩ := ih ends more
      have own := readSuffix_consecutive read
      rw [continues.first] at own
      obtain rfl := known _ rfl
      refine ⟨segment.predecessorDigest, fun known same => (continues.linked known same).symm, ?_,
        own.append tail⟩
      intro other same
      rw [Option.some.inj same]

variable {manifest : Manifest} {files : Files}

/-- The records of a valid manifest lead from the log floor to the durable
frontier. -/
theorem readLog_durable (valid : Metadata.Valid manifest)
    (h : readLog files database manifest.segments = .ok records) :
    ∃ digest, (∀ segment, manifest.segments.head? = some segment → segment.predecessorDigest = digest) ∧
      Consecutive (manifest.logFloor - 1) digest records manifest.durableSequence
        manifest.durableDigest := by
  have logged := valid.logged
  unfold Metadata.Logged at logged
  split_ifs at logged with empty
  · rw [empty] at h ⊢
    cases h
    refine ⟨manifest.durableDigest, nofun, ?_⟩
    rw [logged.2, Nat.add_sub_cancel]
    exact .nil _ _
  · obtain ⟨id, chain⟩ := logged
    obtain ⟨digest, _, head, consecutive⟩ := readLog_consecutive chain rfl h
    exact ⟨digest, head, consecutive⟩

/-- The record of the checkpoint, where it is retained, has the digest of the
checkpoint. -/
def Anchored (manifest : Manifest) (records : List Record) : Prop :=
  ∀ record ∈ records, record.sequence = manifest.checkpointSequence →
    record.digest = manifest.checkpointDigest

omit [Crc32c] [Sha256] in
theorem checkAnchor_eq_ok :
    checkAnchor manifest record = .ok () ↔ (record.sequence = manifest.checkpointSequence →
      record.digest = manifest.checkpointDigest) := by
  rw [checkAnchor, refuse_eq_ok, not_and, not_not]

omit [Crc32c] [Sha256] in
theorem anchored_cons :
    Anchored manifest (record :: records) ↔ (record.sequence = manifest.checkpointSequence →
      record.digest = manifest.checkpointDigest) ∧ Anchored manifest records :=
  List.forall_mem_cons

omit [Crc32c] [Sha256] in
theorem anchored_append :
    Anchored manifest (left ++ right) ↔ Anchored manifest left ∧ Anchored manifest right :=
  List.forall_mem_append

omit [Crc32c] [Sha256] in
theorem foldlM_checkAnchor :
    records.foldlM (fun _ record => checkAnchor manifest record) () = .ok () ↔
      Anchored manifest records := by
  induction records with
  | nil => exact ⟨fun _ => nofun, fun _ => rfl⟩
  | cons record rest ih =>
      rw [List.foldlM_cons, bind_eq_ok, anchored_cons, ← checkAnchor_eq_ok, ← ih]
      exact ⟨fun ⟨_, first, more⟩ => ⟨first, more⟩, fun ⟨first, more⟩ => ⟨(), first, more⟩⟩

theorem validateFiles_eq_ok {segments : List SegmentDescriptor} :
    validateFiles files manifest segments = .ok () ↔
      ∃ records, readLog files manifest.databaseId segments = .ok records ∧
        Anchored manifest records := by
  induction segments with
  | nil => exact ⟨fun _ => ⟨[], rfl, nofun⟩, fun _ => rfl⟩
  | cons segment rest ih =>
      constructor
      · intro h
        rw [validateFiles] at h
        cases found : files.find? segment.segmentId with
        | none =>
            rw [found] at h
            cases h
        | some file =>
            rw [found] at h
            obtain ⟨_, own, more⟩ := bind_eq_ok.mp h
            obtain ⟨records, read, anchored⟩ := eachSuffix_eq_ok.mp own
            obtain ⟨others, reads, anchored'⟩ := ih.mp more
            exact ⟨records ++ others, readLog_cons.mpr ⟨file, records, others, found, read, reads, rfl⟩,
              anchored_append.mpr ⟨foldlM_checkAnchor.mp anchored, anchored'⟩⟩
      · rintro ⟨records, whole, anchored⟩
        obtain ⟨file, own, others, found, read, reads, rfl⟩ := readLog_cons.mp whole
        obtain ⟨first, second⟩ := anchored_append.mp anchored
        have validated : validateSegment file manifest segment = .ok () :=
          eachSuffix_eq_ok.mpr ⟨own, read, foldlM_checkAnchor.mpr first⟩
        rw [validateFiles, found]
        simp only [validated, ok_bind]
        exact ih.mpr ⟨others, reads, second⟩

/-- What full validation of a log establishes. -/
theorem validateLogs_eq_ok :
    validateLogs files manifest = .ok () ↔ Metadata.Valid manifest ∧
      ∃ records, readLog files manifest.databaseId manifest.segments = .ok records ∧
        Anchored manifest records := by
  rw [validateLogs, bind_eq_ok, ← validateFiles_eq_ok, ← Metadata.validateManifest_eq_ok]
  exact ⟨fun ⟨_, valid, more⟩ => ⟨mapError_eq_ok.mp valid, more⟩,
    fun ⟨valid, more⟩ => ⟨(), mapError_eq_ok.mpr valid, more⟩⟩

end Sequence

end BlopDb.Storage.Wal
