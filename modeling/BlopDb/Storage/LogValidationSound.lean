/-
# Incremental log validation agrees with full validation

A proof of a live owner stands for a full validation of its manifest and lists
the digests above its checkpoint.  Appends and publications keep this, so a
candidate that is validated from a proof also passes the full validation of its
log and of both its anchors.
-/

import BlopDb.Storage.LogRun
import BlopDb.Storage.LogValidation
import BlopDb.Lib.Safe

namespace BlopDb.Storage.Wal

open BlopDb.Lib
open Metadata (blockBytes Joint Chain Continues)

section Checksums

variable [Crc32c] [Sha256]

/-! ## Moving a checkpoint along a log -/

section Anchors

variable {manifest : Manifest} {files : Files} {database : Fixed 16} {previous sequence history : Nat}
  {start digest : Digest} {records left right : List Record}

/-- Wherever the records pass a sequence they have the digest. -/
def Passes (previous : Nat) (start : Digest) (records : List Record) (sequence : Nat)
    (digest : Digest) : Prop :=
  ∀ left right final, records = left ++ right → Consecutive previous start left sequence final →
    final = digest

theorem passes_of_mem (later : previous < sequence)
    (known : ∀ record ∈ records, record.sequence = sequence → record.digest = digest) :
    Passes previous start records sequence digest := by
  intro left right final split consecutive
  obtain ⟨record, member, atEnd, rfl⟩ := consecutive.exists_last later
  exact known record (split ▸ List.mem_append_left _ member) atEnd

theorem passes_of_consecutive (consecutive : Consecutive previous start left sequence digest) :
    Passes previous start (left ++ right) sequence digest := by
  intro left' right' final split consecutive'
  have length := consecutive.last_eq.symm.trans consecutive'.last_eq
  obtain ⟨rfl, _⟩ := List.append_inj split (by omega)
  exact (consecutive'.unique consecutive).2

theorem Passes.drop {middle : Nat} {joint : Digest}
    (passes : Passes previous start (left ++ right) sequence digest)
    (consecutive : Consecutive previous start left middle joint) :
    Passes middle joint right sequence digest := by
  intro left' right' final split consecutive'
  refine passes (left ++ left') right' final ?_ (consecutive.append consecutive')
  rw [split, List.append_assoc]

/-- A chain of segments whose records pass the new checkpoint. -/
theorem chain_anchorAt {joint final : Joint} {segments : List SegmentDescriptor}
    (chain : Chain manifest joint segments final)
    (read : readLog files database segments = .ok records) (known : joint.digest = some start)
    (passes : Passes (joint.sequence - 1) start records sequence digest) :
    Chain (anchorAt manifest sequence digest history) joint segments final := by
  induction chain generalizing records start with
  | nil => exact .nil _
  | @cons joint final segment rest continues _ ih =>
      obtain ⟨file, own, others, _, own', more, rfl⟩ := readLog_cons.mp read
      have positive := continues.descriptor.first.1
      have begins := continues.first
      have consecutive := readSuffix_consecutive own'
      rw [begins, continues.linked start known] at consecutive
      refine .cons { continues with opens := fun opens => ?_, closes := fun closes => ?_ }
        (ih more rfl (passes.drop consecutive))
      · have opens : segment.firstSequence = sequence + 1 := opens
        have atStart : sequence = joint.sequence - 1 := by omega
        rw [continues.linked start known]
        refine passes [] _ start rfl ?_
        rw [atStart]
        exact .nil _ _
      · have closes : segment.lastSequence = sequence := closes
        rw [closes] at consecutive
        exact passes own others _ rfl consecutive

/-- A valid manifest stays valid when its checkpoint moves along its log. -/
theorem valid_anchorAt (valid : Metadata.Valid manifest) (filled : manifest.segments ≠ [])
    (read : readLog files database manifest.segments = .ok records)
    (head : ∀ segment, manifest.segments.head? = some segment → segment.predecessorDigest = start)
    (consecutive : Consecutive (manifest.logFloor - 1) start records manifest.durableSequence
      manifest.durableDigest)
    (passes : Passes (manifest.logFloor - 1) start records sequence digest)
    (kept : history ≤ sequence) (retained : manifest.logFloor ≤ sequence + 1)
    (reached : sequence ≤ manifest.durableSequence) :
    Metadata.Valid (anchorAt manifest sequence digest history) := by
  obtain ⟨identified, frontiers, logged⟩ := valid
  rw [Metadata.Logged, if_neg filled] at logged
  obtain ⟨id, chain⟩ := logged
  have positive := frontiers.floor.1
  have atFloor : manifest.logFloor = sequence + 1 → start = digest := by
    intro floor
    refine passes [] _ start rfl ?_
    rw [floor, Nat.add_sub_cancel]
    exact .nil _ _
  have genesis : manifest.logFloor = 1 → start = manifest.genesisDigest := by
    intro floor
    cases segments : manifest.segments with
    | nil => exact absurd segments filled
    | cons segment rest =>
        rw [segments] at chain
        cases chain with
        | cons continues _ =>
            rw [← head segment (by rw [segments]; rfl)]
            exact continues.linked _ (if_pos floor)
  refine ⟨identified, ⟨frontiers.durable, kept, reached, ⟨positive, retained⟩, fun zero => ?_,
    frontiers.fresh, fun same => ?_⟩, ?_⟩
  · have zero : sequence = 0 := zero
    have floor : manifest.logFloor = 1 := by omega
    exact (atFloor (by omega)).symm.trans (genesis floor)
  · have same : sequence = manifest.durableSequence := same
    subst same
    exact (passes records [] _ (List.append_nil _).symm consecutive).symm
  · have filled' : (anchorAt manifest sequence digest history).segments ≠ [] := filled
    rw [Metadata.Logged, if_neg filled']
    refine ⟨id, ?_⟩
    show Chain _ _ manifest.segments ⟨manifest.durableSequence + 1, id, some manifest.durableDigest⟩
    cases segments : manifest.segments with
    | nil => exact absurd segments filled
    | cons segment rest =>
        rw [segments] at chain read
        have first := head segment (by rw [segments]; rfl)
        cases chain with
        | cons continues chain =>
            obtain ⟨file, own, others, _, own', more, rfl⟩ := readLog_cons.mp read
            have begins : segment.firstSequence = manifest.logFloor := continues.first
            have leads := readSuffix_consecutive own'
            rw [begins, first] at leads
            refine .cons { continues with linked := ?_, opens := ?_, closes := ?_ }
              (chain_anchorAt chain more rfl (passes.drop leads))
            · intro known same
              have same : (if manifest.logFloor = 1 then some manifest.genesisDigest
                  else if manifest.logFloor = sequence + 1 then some digest else none) = some known := same
              split_ifs at same with one floor
              · rw [first, genesis one]
                exact Option.some.inj same
              · rw [first, atFloor floor]
                exact Option.some.inj same
            · intro opens
              have opens : segment.firstSequence = sequence + 1 := opens
              rw [first]
              exact atFloor (by omega)
            · intro closes
              have closes : segment.lastSequence = sequence := closes
              rw [closes] at leads
              exact passes own others _ rfl leads

end Anchors

/-! ## Reading an extension -/

section Extensions

/-- The digests of the records above a sequence. -/
def digestsAbove (sequence : Nat) (records : List Record) : List Digest :=
  (records.filter fun record => decide (sequence < record.sequence)).map Record.digest

omit [Crc32c] [Sha256] in
theorem digestsAbove_append (sequence : Nat) (left right : List Record) :
    digestsAbove sequence (left ++ right) = digestsAbove sequence left ++ digestsAbove sequence right := by
  rw [digestsAbove, List.filter_append, List.map_append]
  rfl

variable {files : Files} {previous next : Manifest} {old segment tail : SegmentDescriptor}
  {before : List SegmentDescriptor} {state final : Extension} {records : List Record}
  {pending result : List Digest} {file : Bytes}

omit [Crc32c] [Sha256] in
theorem foldlM_pushAnchor :
    records.foldlM (pushAnchor next) pending = .ok result ↔
      Anchored next records ∧ result = pending ++ digestsAbove next.checkpointSequence records := by
  induction records generalizing pending with
  | nil =>
      constructor
      · intro h
        cases h
        exact ⟨nofun, (List.append_nil _).symm⟩
      · rintro ⟨_, rfl⟩
        exact congrArg Except.ok (List.append_nil _).symm
  | cons record rest ih =>
      have push : (if record.sequence > next.checkpointSequence then pending ++ [record.digest]
            else pending) ++ digestsAbove next.checkpointSequence rest =
          pending ++ digestsAbove next.checkpointSequence (record :: rest) := by
        unfold digestsAbove
        by_cases above : next.checkpointSequence < record.sequence
        · rw [if_pos above, List.filter_cons_of_pos (by simpa using above), List.map_cons,
            List.append_assoc]
          rfl
        · rw [if_neg above, List.filter_cons_of_neg (by simpa using above)]
      rw [List.foldlM_cons, anchored_cons, ← checkAnchor_eq_ok, ← push]
      constructor
      · intro h
        obtain ⟨pushed, first, more⟩ := bind_eq_ok.mp h
        obtain ⟨_, checked, first⟩ := bind_eq_ok.mp first
        cases first
        obtain ⟨anchored, rfl⟩ := ih.mp more
        exact ⟨⟨checked, anchored⟩, rfl⟩
      · rintro ⟨⟨checked, anchored⟩, rfl⟩
        rw [pushAnchor, checked, ok_bind]
        exact ih.mpr ⟨anchored, rfl⟩

/-- What reading the new groups of a segment establishes. -/
theorem extendSegment_eq_ok {old : Option SegmentDescriptor} (changed : old ≠ some segment)
    (h : extendSegment files next old segment state = .ok final) :
    ∃ offset file more, extensionOffset old segment state = .ok offset ∧
      files.find? segment.segmentId = some file ∧
      readSuffix file next.databaseId segment offset state.sequence state.predecessor = .ok more ∧
      Anchored next more ∧ final = ⟨segment.lastSequence + 1, segment.lastDigest,
        state.pending ++ digestsAbove next.checkpointSequence more⟩ := by
  rw [extendSegment, if_neg changed] at h
  obtain ⟨offset, isOffset, h⟩ := bind_eq_ok.mp h
  cases found : files.find? segment.segmentId with
  | none =>
      rw [found] at h
      cases h
  | some file =>
      rw [found] at h
      obtain ⟨pending, read, h⟩ := bind_eq_ok.mp h
      cases h
      obtain ⟨more, suffix, visited⟩ := eachSuffix_eq_ok.mp read
      obtain ⟨anchored, rfl⟩ := foldlM_pushAnchor.mp visited
      exact ⟨offset, file, more, isOffset, rfl, suffix, anchored, rfl⟩

/-- Records lead from one place of an extension to another. -/
structure Extended (next : Manifest) (state : Extension) (more : List Record) (final : Extension) :
    Prop where
  consecutive : Consecutive (state.sequence - 1) state.predecessor more (final.sequence - 1)
    final.predecessor
  anchored : Anchored next more
  pending : final.pending = state.pending ++ digestsAbove next.checkpointSequence more

theorem Extended.refl (state : Extension) : Extended next state [] state :=
  ⟨.nil _ _, nofun, (List.append_nil _).symm⟩

theorem Extended.trans {middle : Extension} {left right : List Record}
    (first : Extended next state left middle) (second : Extended next middle right final) :
    Extended next state (left ++ right) final := by
  refine ⟨first.consecutive.append second.consecutive,
    anchored_append.mpr ⟨first.anchored, second.anchored⟩, ?_⟩
  rw [second.pending, first.pending, digestsAbove_append, List.append_assoc]

/-- A new segment is read as a whole. -/
theorem extendSegment_new (h : extendSegment files next none segment state = .ok final) :
    ∃ more, Extended next state more final ∧
      readLog files next.databaseId [segment] = .ok more := by
  obtain ⟨offset, file, more, isOffset, found, read, anchored, rfl⟩ := extendSegment_eq_ok (Option.some_ne_none _).symm h
  obtain ⟨_, placed, isOffset⟩ := bind_eq_ok.mp isOffset
  cases isOffset
  have placed := not_or.mp (refuse_eq_ok.mp placed)
  have first := not_not.mp placed.1
  have linked := not_not.mp placed.2
  refine ⟨more, ⟨readSuffix_consecutive read, anchored, rfl⟩, ?_⟩
  rw [← first, ← linked] at read
  exact readLog_cons.mpr ⟨file, more, [], found, read, rfl, (List.append_nil _).symm⟩

/-- The groups behind an old tail are read, and the old prefix with them. -/
theorem extendSegment_tail {own : List Record} (kept : ¬ TailReplaced old tail)
    (sequence : state.sequence = old.lastSequence + 1) (linked : state.predecessor = old.lastDigest)
    (read : readLog files next.databaseId [old] = .ok own)
    (h : extendSegment files next (some old) tail state = .ok final) :
    ∃ more, Extended next state more final ∧
      readLog files next.databaseId [tail] = .ok (own ++ more) := by
  by_cases same : tail = old
  · subst same
    rw [extendSegment, if_pos rfl] at h
    cases h
    exact ⟨[], .refl _, by rw [List.append_nil]; exact read⟩
  · obtain ⟨offset, file, more, isOffset, found, suffix, anchored, rfl⟩ :=
      extendSegment_eq_ok (fun equal => same (Option.some.inj equal).symm) h
    cases isOffset
    have kept := not_and.mp kept same
    simp only [not_or, not_not] at kept
    obtain ⟨file', own, rest, found', read, empty, rfl⟩ := readLog_cons.mp read
    cases empty
    rw [kept.1] at found
    cases found.symm.trans found'
    refine ⟨more, ⟨readSuffix_consecutive suffix, anchored, rfl⟩, ?_⟩
    rw [sequence, linked] at suffix
    have joined := readSuffix_join ⟨kept.1, kept.2.1, kept.2.2.1⟩ read suffix
    rw [← kept.2.1, ← kept.2.2.1] at joined
    rw [List.append_nil]
    refine readLog_cons.mpr ⟨file, own ++ more, [], ?_, joined, rfl, (List.append_nil _).symm⟩
    rw [kept.1]
    exact found

/-- At most one new segment follows. -/
theorem extendSegments_news {olds news : List SegmentDescriptor} {position : Nat}
    (behind : olds.length ≤ position) (h : extendSegments files next olds news position state = .ok final) :
    ∃ more, Extended next state more final ∧ readLog files next.databaseId news = .ok more := by
  induction news generalizing position state with
  | nil =>
      cases h
      exact ⟨[], .refl _, rfl⟩
  | cons segment rest ih =>
      obtain ⟨middle, first, h⟩ := bind_eq_ok.mp h
      rw [List.getElem?_eq_none behind] at first
      obtain ⟨own, extended, read⟩ := extendSegment_new first
      obtain ⟨more, extended', read'⟩ := ih (le_trans behind (Nat.le_succ _)) h
      refine ⟨own ++ more, extended.trans extended', ?_⟩
      exact readLog_append.mpr ⟨own, more, read, read', rfl⟩

/-- Passing the segments of a candidate reads its log behind the old one. -/
theorem extendSegments_eq_ok (valid : Metadata.Valid previous) (shaped : ¬ Reshaped previous next)
    (read : readLog files next.databaseId previous.segments = .ok records)
    (h : extendSegments files next previous.segments (next.segments.drop (prefixCount previous))
      (prefixCount previous) ⟨previous.durableSequence + 1, previous.durableDigest, pending⟩ = .ok final) :
    ∃ more, Extended next ⟨previous.durableSequence + 1, previous.durableDigest, pending⟩ more final ∧
      readLog files next.databaseId next.segments = .ok (records ++ more) := by
  simp only [Reshaped, not_or] at shaped
  obtain ⟨enough, _, same, kept, _⟩ := shaped
  rcases List.eq_nil_or_concat' previous.segments with empty | ⟨before, old, active⟩
  · have none : prefixCount previous = 0 := by rw [prefixCount, empty]; rfl
    rw [none, List.drop_zero, empty] at h
    rw [empty] at read
    cases read
    exact extendSegments_news (Nat.zero_le _) h
  · have count : prefixCount previous = before.length := by
      rw [prefixCount, active, List.length_append]
      rfl
    have total : previous.segments.length = before.length + 1 := by
      rw [active, List.length_append]
      rfl
    have same := not_not.mp same
    rw [count, active, List.take_left] at same
    rw [count] at h
    have split : next.segments = before ++ next.segments.drop before.length := by
      rw [← same, List.length_take, min_eq_left (by omega), List.take_append_drop]
    have more : 0 < (next.segments.drop before.length).length := by
      rw [List.length_drop]
      omega
    cases tails : next.segments.drop before.length with
    | nil =>
        rw [tails] at more
        exact absurd more (lt_irrefl 0)
    | cons tail news =>
        rw [tails] at h split
        obtain ⟨middle, first, h⟩ := bind_eq_ok.mp h
        have isOld : previous.segments[before.length]? = some old := by
          rw [active, List.getElem?_append_right le_rfl, Nat.sub_self]
          rfl
        rw [isOld] at first
        have notReplaced : ¬ TailReplaced old tail := by
          intro replaced
          refine kept ⟨old, ?_, tail, ?_, replaced⟩
          · rw [active, List.getLast?_concat]
            rfl
          · rw [total, Nat.add_sub_cancel, split, List.getElem?_append_right le_rfl, Nat.sub_self]
            rfl
        obtain ⟨ends, digest⟩ := valid.last active
        rw [active] at read
        obtain ⟨earlier, own, begins, single, rfl⟩ := readLog_append.mp read
        obtain ⟨added, extended, single'⟩ := extendSegment_tail notReplaced (by rw [ends]) digest single first
        obtain ⟨others, extended', rest⟩ := extendSegments_news (by omega) h
        refine ⟨added ++ others, extended.trans extended', ?_⟩
        rw [split]
        refine readLog_append.mpr ⟨earlier, own ++ added ++ others, begins, ?_, ?_⟩
        · exact readLog_append.mpr ⟨own ++ added, others, single', rest, rfl⟩
        · rw [List.append_assoc, List.append_assoc]

end Extensions

/-! ## Proofs -/

section Proofs

variable {files : Files} {previous next : Manifest} {proof result : LogValidation}
  {records : List Record}

/-- A proof stands for a full validation of its manifest, and lists the digests
above its checkpoint. -/
structure Proved (files : Files) (proof : LogValidation) : Prop where
  valid : Metadata.Valid proof.manifest
  content : ∃ records, readLog files proof.manifest.databaseId proof.manifest.segments = .ok records ∧
    Anchored proof.manifest records ∧
    proof.pending = digestsAbove proof.manifest.checkpointSequence records

/-- The records above the checkpoint of a valid manifest. -/
theorem filter_checkpoint (valid : Metadata.Valid previous)
    (read : readLog files previous.databaseId previous.segments = .ok records) :
    (records.filter fun record => decide (previous.checkpointSequence < record.sequence)) =
        records.drop (previous.checkpointSequence - (previous.logFloor - 1)) ∧
      records.length = previous.durableSequence - (previous.logFloor - 1) := by
  obtain ⟨start, _, consecutive⟩ := readLog_durable valid read
  have floor := valid.frontiers.floor
  have ends := consecutive.last_eq
  exact ⟨consecutive.filter_eq_drop (by omega), by omega⟩

theorem Proved.length_pending (proved : Proved files proof) :
    proof.pending.length = proof.manifest.durableSequence - proof.manifest.checkpointSequence := by
  obtain ⟨records, read, _, pending⟩ := proved.content
  obtain ⟨dropped, length⟩ := filter_checkpoint proved.valid read
  have floor := proved.valid.frontiers.floor
  rw [pending, digestsAbove, List.length_map, dropped, List.length_drop, length]
  omega

/-- A listed digest belongs to the record at its position. -/
theorem Proved.pending_at {position : Nat} {digest : Digest} (proved : Proved files proof)
    (read : readLog files proof.manifest.databaseId proof.manifest.segments = .ok records)
    (found : proof.pending[position]? = some digest) :
    ∀ record ∈ records, record.sequence = proof.manifest.checkpointSequence + 1 + position →
      record.digest = digest := by
  obtain ⟨records', read', _, pending⟩ := proved.content
  cases read.symm.trans read'
  obtain ⟨dropped, _⟩ := filter_checkpoint proved.valid read
  obtain ⟨start, _, consecutive⟩ := readLog_durable proved.valid read
  have floor := proved.valid.frontiers.floor
  rw [pending, digestsAbove, dropped, List.getElem?_map, List.getElem?_drop] at found
  intro record member sequence
  obtain ⟨place, found'⟩ := List.mem_iff_getElem?.mp member
  have isPlace := consecutive.sequence_eq found'
  have same : place = proof.manifest.checkpointSequence - (proof.manifest.logFloor - 1) + position := by
    omega
  rw [← same, found'] at found
  exact Option.some.inj found

/-- What validation from a proof went through. -/
theorem validateExtension_eq_some (h : validateExtension files previous next proof = .ok (some result)) :
    Metadata.Valid next ∧ ¬ Unrelated previous next proof ∧
      validateOldAnchors previous next proof = .ok () ∧ ¬ Reshaped previous next ∧
      extendProof files previous next proof = .ok result := by
  obtain ⟨_, valid, h⟩ := bind_eq_ok.mp h
  by_cases unrelated : Unrelated previous next proof
  · rw [if_pos unrelated] at h
    cases h
  · rw [if_neg unrelated] at h
    obtain ⟨_, anchors, h⟩ := bind_eq_ok.mp h
    by_cases reshaped : Reshaped previous next
    · rw [if_pos reshaped] at h
      cases h
    · rw [if_neg reshaped] at h
      obtain ⟨extended, isExtended, h⟩ := bind_eq_ok.mp h
      cases h
      exact ⟨Metadata.validateManifest_eq_ok.mp (raise_eq_ok.mp valid), unrelated, anchors, reshaped,
        isExtended⟩

/-- A checkpoint inside the old range has the digest of its record. -/
theorem Proved.old_anchor (proved : Proved files proof)
    (read : readLog files proof.manifest.databaseId proof.manifest.segments = .ok records)
    (anchors : validateOldAnchors proof.manifest next proof = .ok ())
    (inside : next.checkpointSequence ≤ proof.manifest.durableSequence) :
    Anchored next records := by
  obtain ⟨records', read', anchored, _⟩ := proved.content
  cases read.symm.trans read'
  obtain ⟨_, _, h⟩ := bind_eq_ok.mp anchors
  rw [if_pos inside] at h
  obtain ⟨digest, expected, h⟩ := bind_eq_ok.mp h
  have same := not_not.mp (refuse_eq_ok.mp (raise_eq_ok.mp h))
  intro record member sequence
  rw [same]
  unfold expectedDigest at expected
  split_ifs at expected with equal
  · cases expected
    exact anchored record member (sequence.trans equal)
  · obtain ⟨steps, isSteps, expected⟩ := bind_eq_ok.mp expected
    obtain ⟨position, isPosition, expected⟩ := bind_eq_ok.mp expected
    obtain ⟨later, rfl⟩ := subChecked_eq_ok.mp isSteps
    obtain ⟨apart, rfl⟩ := subChecked_eq_ok.mp isPosition
    refine proved.pending_at read (index_eq_ok.mp expected) record member ?_
    omega

/-- The proof behind an extension. -/
theorem Proved.extension (proved : Proved files proof) (sameDatabase : next.databaseId =
      proof.manifest.databaseId)
    (ordered : proof.manifest.checkpointSequence ≤ next.checkpointSequence)
    (anchors : validateOldAnchors proof.manifest next proof = .ok ())
    (shaped : ¬ Reshaped proof.manifest next)
    (extended : extendProof files proof.manifest next proof = .ok result) :
    ∃ records more, readLog files proof.manifest.databaseId proof.manifest.segments = .ok records ∧
      readLog files next.databaseId next.segments = .ok (records ++ more) ∧
      Consecutive proof.manifest.durableSequence proof.manifest.durableDigest more next.durableSequence
        next.durableDigest ∧ Anchored next (records ++ more) ∧ result = ⟨next,
        digestsAbove next.checkpointSequence (records ++ more)⟩ := by
  obtain ⟨records, read, _, pending⟩ := proved.content
  obtain ⟨pruned, isPruned, extended⟩ := bind_eq_ok.mp extended
  obtain ⟨kept, isKept, extended⟩ := bind_eq_ok.mp extended
  obtain ⟨final, passed, extended⟩ := bind_eq_ok.mp extended
  obtain ⟨_, reached, extended⟩ := bind_eq_ok.mp extended
  cases extended
  have read' := read
  rw [← sameDatabase] at read'
  obtain ⟨more, ⟨consecutive, anchored, pushed⟩, whole⟩ :=
    extendSegments_eq_ok proved.valid shaped read' (raise_eq_ok.mp passed)
  have reached := not_or.mp (refuse_eq_ok.mp (raise_eq_ok.mp reached))
  rw [not_not.mp reached.1, not_not.mp reached.2] at consecutive
  refine ⟨records, more, read, whole, consecutive, ?_, ?_⟩
  · refine anchored_append.mpr ⟨?_, anchored⟩
    by_cases inside : next.checkpointSequence ≤ proof.manifest.durableSequence
    · exact proved.old_anchor read anchors inside
    · obtain ⟨start, _, old⟩ := readLog_durable proved.valid read
      intro record member sequence
      have bound := (old.mem member).2
      omega
  · -- The digests that are kept are those of the old records above the new checkpoint.
    have same : kept = digestsAbove next.checkpointSequence records := by
      obtain ⟨start, _, old⟩ := readLog_durable proved.valid read
      obtain ⟨dropped, length⟩ := filter_checkpoint proved.valid read
      obtain ⟨below, rfl⟩ := subChecked_eq_ok.mp isPruned
      have floor := proved.valid.frontiers.floor
      unfold dropChecked at isKept
      split_ifs at isKept
      cases isKept
      rw [pending, digestsAbove, dropped, digestsAbove, old.filter_eq_drop (by omega), ← List.map_drop,
        List.drop_drop]
      by_cases inside : next.checkpointSequence ≤ proof.manifest.durableSequence
      · rw [min_eq_left inside]
        congr 2
        omega
      · rw [min_eq_right (not_le.mp inside).le, List.drop_of_length_le (by omega),
          List.drop_of_length_le (by omega)]
    rw [pushed, digestsAbove_append, same]

/-- Everything that is validated from a proof also passes full validation. -/
theorem Proved.agrees (proved : Proved files proof)
    (h : validateExtension files previous next proof = .ok (some result)) :
    Proved files result ∧ validateLogs files next = .ok () ∧
      validateAnchors files previous next = .ok () := by
  obtain ⟨valid, related, anchors, shaped, extended⟩ := validateExtension_eq_some h
  simp only [Unrelated, not_or, not_not, not_lt] at related
  obtain ⟨rfl, _, sameDatabase, sameGenesis, _, _, _, ordered, durable, _, sameFloor, _⟩ := related
  obtain ⟨records, more, read, whole, consecutive, anchored, rfl⟩ :=
    proved.extension sameDatabase ordered anchors shaped extended
  refine ⟨⟨valid, records ++ more, whole, anchored, rfl⟩,
    validateLogs_eq_ok.mpr ⟨valid, records ++ more, whole, anchored⟩, ?_⟩
  have floor := proved.valid.frontiers.floor
  have frontier := proved.valid.frontiers.checkpoint
  obtain ⟨start, head, old⟩ := readLog_durable proved.valid read
  obtain ⟨start', head', leads⟩ := readLog_durable valid whole
  have first : validateDurableAnchor files proof.manifest next = .ok () := by
    unfold validateDurableAnchor
    split_ifs with longer
    · -- The old records come first in the new log.
      have begins := old
      rw [← sameFloor] at begins
      have joined := begins.append consecutive
      have nonempty : records ++ more ≠ [] := by
        have length := consecutive.last_eq
        intro empty
        rw [(List.append_eq_nil_iff.mp empty).2] at length
        simp only [List.length_nil] at length
        omega
      obtain rfl := joined.start_unique leads nonempty
      have filled : next.segments ≠ [] := by
        intro empty
        rw [empty] at whole
        exact nonempty (Except.ok.inj whole).symm
      have moved := @valid_anchorAt _ _ next files next.databaseId proof.manifest.durableSequence
        (min next.historyFloor proof.manifest.durableSequence) start proof.manifest.durableDigest
        (records ++ more) valid filled whole head' leads (passes_of_consecutive begins) (min_le_right _ _)
        (by omega) durable
      have validated := Metadata.validateManifest_eq_ok.mpr moved
      have anchored : Anchored (anchorAt next proof.manifest.durableSequence proof.manifest.durableDigest
          (min next.historyFloor proof.manifest.durableSequence)) (records ++ more) := by
        intro record member sequence
        have sequence : record.sequence = proof.manifest.durableSequence := sequence
        rcases List.mem_append.mp member with inOld | inNew
        · exact old.at_last inOld sequence
        · exact absurd (consecutive.mem inNew).1 (by omega)
      simp only [validated, Except.mapError, ok_bind]
      exact validateLogs_eq_ok.mpr ⟨moved, records ++ more, whole, anchored⟩
    · rfl
  have second : validateCheckpointAnchor files proof.manifest next = .ok () := by
    unfold validateCheckpointAnchor
    split_ifs with moves
    · have anchored := (anchored_append.mp anchored).1
      have filled : proof.manifest.segments ≠ [] := by
        intro empty
        have logged := proved.valid.logged
        rw [Metadata.Logged, if_pos empty] at logged
        omega
      exact validateLogs_eq_ok.mpr ⟨valid_anchorAt proved.valid filled read head old
        (passes_of_mem (by omega) anchored) (le_trans proved.valid.frontiers.history ordered) (by omega)
        moves.2, records, read, anchored⟩
    · rfl
  rw [validateAnchors, first, ok_bind]
  exact second

omit [Crc32c] [Sha256] in
theorem safe_raise {α ε : Type} (into : ε → Error) (result : Except ε α) :
    Safe (raise into result) (fun _ => True) fun _ => True :=
  Safe.raise (fun _ _ => trivial) fun _ _ => trivial

/-- The position of a checkpoint inside the old range is listed. -/
theorem Proved.safe_anchors (proved : Proved files proof)
    (ordered : proof.manifest.checkpointSequence ≤ next.checkpointSequence) :
    Safe (validateOldAnchors proof.manifest next proof) (fun _ => True) fun _ => True := by
  have length := proved.length_pending
  refine Safe.bind (safe_raise _ _) fun _ _ => ?_
  split_ifs with inside
  · refine Safe.bind (?_ : Safe _ (fun _ => True) _) fun digest _ => safe_raise _ _
    unfold expectedDigest
    split_ifs with same
    · exact Safe.ok trivial
    · refine Safe.bind_subChecked ordered (Safe.bind_subChecked (by omega) ?_)
      exact Safe.of_eq_ok (index_eq_ok.mpr (List.getElem?_eq_getElem (by omega))) trivial
  · exact Safe.ret trivial

/-- The digests that an extension drops are listed. -/
theorem Proved.safe_extend (proved : Proved files proof)
    (ordered : proof.manifest.checkpointSequence ≤ next.checkpointSequence) :
    Safe (extendProof files proof.manifest next proof) (fun _ => True) fun _ => True := by
  have length := proved.length_pending
  have frontier := proved.valid.frontiers.checkpoint
  refine Safe.bind_subChecked (le_min ordered frontier) ?_
  have inside : min next.checkpointSequence proof.manifest.durableSequence -
      proof.manifest.checkpointSequence ≤ proof.pending.length := by
    omega
  refine Safe.bind_of_eq (if_pos inside) (Safe.bind (safe_raise _ _) fun final _ => ?_)
  exact Safe.bind (safe_raise _ _) fun _ _ => Safe.ret trivial

/-- Validation from a proof never panics. -/
theorem Proved.safe (proved : Proved files proof) :
    Safe (validateExtension files previous next proof) (fun _ => True) fun _ => True := by
  refine Safe.bind (safe_raise _ _) fun _ _ => ?_
  by_cases unrelated : Unrelated previous next proof
  · rw [if_pos unrelated]
    exact Safe.ret trivial
  · rw [if_neg unrelated]
    simp only [Unrelated, not_or, not_not, not_lt] at unrelated
    obtain ⟨rfl, _, _, _, _, _, _, ordered, _⟩ := unrelated
    refine Safe.bind (proved.safe_anchors ordered) fun _ _ => ?_
    split_ifs with reshaped
    · exact Safe.ret trivial
    · exact Safe.bind (proved.safe_extend ordered) fun _ _ => Safe.ret trivial

/-- Full validation starts a proof. -/
theorem proved_atCheckpoint {manifest : Manifest} (validated : validateLogs files manifest = .ok ())
    (h : LogValidation.atCheckpoint manifest = some proof) : Proved files proof := by
  unfold LogValidation.atCheckpoint at h
  split_ifs at h with other
  cases h
  obtain ⟨valid, records, read, anchored⟩ := validateLogs_eq_ok.mp validated
  refine ⟨valid, records, read, anchored, ?_⟩
  obtain ⟨start, _, consecutive⟩ := readLog_durable valid read
  have drained := not_not.mp (not_or.mp other).1
  have none : (records.filter fun record => decide (manifest.checkpointSequence < record.sequence)) = [] := by
    rw [List.filter_eq_nil_iff]
    intro record member above
    have below := (consecutive.mem member).2
    have above := of_decide_eq_true above
    omega
  show [] = digestsAbove manifest.checkpointSequence records
  rw [digestsAbove, none]
  rfl

/-- An append keeps the checkpoint and adds consecutive records. -/
theorem Plans.keeps {log : Log} {list : List Record} {append : Append} (plans : Plans log list append) :
    Metadata.Valid append.next ∧ append.next.databaseId = log.manifest.databaseId ∧
      append.next.checkpointSequence = log.manifest.checkpointSequence ∧
      append.next.checkpointDigest = log.manifest.checkpointDigest ∧
      Consecutive log.manifest.durableSequence log.manifest.durableDigest list
        append.next.durableSequence append.next.durableDigest := by
  cases plans with
  | create grouped _ _ valid => exact ⟨valid, rfl, rfl, rfl, grouped.consecutive⟩
  | extend grouped _ _ _ _ valid => exact ⟨valid, rfl, rfl, rfl, grouped.consecutive⟩

/-- An append extends a proof. -/
theorem Proved.committed {log : Log} {list : List Record} {append : Append} (proved : Proved log.files proof)
    (plans : Plans log list append) (digests : append.digests = list.map Record.digest)
    (h : committed proof log.manifest append.next append.digests = some result) :
    Proved (log.files.insert append.segmentId (append.before ++ append.writes)) result := by
  unfold Wal.committed at h
  split_ifs at h with other
  cases h
  have same := not_not.mp (not_or.mp other).1
  obtain ⟨valid, database, checkpoint, digest, consecutive⟩ := plans.keeps
  obtain ⟨records, read, anchored, pending⟩ := proved.content
  have frontier := proved.valid.frontiers.checkpoint
  rw [same] at read anchored pending frontier
  have later : ∀ record ∈ list, log.manifest.checkpointSequence < record.sequence := fun record member =>
    lt_of_le_of_lt frontier (consecutive.mem member).1
  refine ⟨valid, records ++ list, ?_, ?_, ?_⟩
  · show readLog _ append.next.databaseId append.next.segments = _
    rw [database]
    exact readLog_appended (same ▸ proved.valid) plans read
  · intro record member sequence
    have sequence : record.sequence = append.next.checkpointSequence := sequence
    show record.digest = append.next.checkpointDigest
    rw [checkpoint] at sequence
    rw [digest]
    rcases List.mem_append.mp member with inOld | inNew
    · exact anchored record inOld sequence
    · exact absurd sequence (later record inNew).ne'
  · show proof.pending ++ append.digests = digestsAbove append.next.checkpointSequence (records ++ list)
    have all : (list.filter fun record => decide (log.manifest.checkpointSequence < record.sequence)) =
        list := List.filter_eq_self.mpr fun record member => decide_eq_true (later record member)
    rw [checkpoint, digestsAbove_append, pending, digests]
    congr 1
    rw [digestsAbove, all]

/-- A directory that keeps the validated prefixes keeps a proof. -/
theorem Proved.keeps {clean : Files} (proved : Proved files proof)
    (keeps : Keeps files clean proof.manifest.segments) : Proved clean proof := by
  obtain ⟨records, read, anchored, pending⟩ := proved.content
  exact ⟨proved.valid, records, readLog_keeps keeps (fun _ member => (proved.valid.mem member).1) read,
    anchored, pending⟩

/-- A rejected append keeps a proof. -/
theorem Proved.rejected {log : Log} {appended : List (Nat × Bytes)} {left : Option (Nat × Bytes)}
    {error : Error} (proved : Proved log.files proof) (live : log.poisoned = false)
    (planned : planAppend log appended = .error (left, error)) :
    Proved (appendWal log appended).1.files proof := by
  obtain ⟨records, read, anchored, pending⟩ := proved.content
  refine ⟨proved.valid, records, ?_, anchored, pending⟩
  rw [appendWal, if_neg (by simp [live]), planned]
  cases left with
  | none => exact read
  | some left =>
      obtain ⟨id, block⟩ := left
      obtain ⟨_, _, _, _, _, _, _, unused⟩ := planAppend_eq_error planned
      exact readLog_unused unused read

end Proofs

/-! ## Live runs -/

section Runs

/-- Runs of a live owner.  A proof is started by a full validation, extended by
appends and replaced by publications; anything else keeps the prefixes that it
names. -/
inductive Live : Owner → Prop
  | start (log : Log) : Live ⟨log, none⟩
  | seed {owner : Owner} (live : Live owner)
      (validated : validateLogs owner.log.files owner.log.manifest = .ok ()) :
      Live ⟨owner.log, LogValidation.atCheckpoint owner.log.manifest⟩
  | append {owner : Owner} (records : List (Nat × Bytes)) (live : Live owner) :
      Live (owner.append records)
  | publish {owner : Owner} {candidate next : Manifest} {generation pageCount : Nat} {roots : Roots}
      {proof : Option LogValidation} (live : Live owner)
      (proceeds : validateTransition owner.log.manifest candidate = .ok ())
      (isNext : next = { candidate with generation := generation, roots := roots, pageCount := pageCount })
      (encoded : Metadata.validateManifest next = .ok ())
      (validated : publishLogs owner.log.files owner.log.manifest next owner.proof = .ok proof) :
      Live ⟨{ owner.log with manifest := next }, proof⟩
  | change {owner : Owner} {log : Log} (live : Live owner)
      (keeps : ∀ proof, owner.proof = some proof →
        Keeps owner.log.files log.files proof.manifest.segments) :
      Live { owner with log := log }

variable {owner : Owner} {proof : LogValidation}

/-- A publication leaves a proof of its manifest. -/
theorem proved_publishLogs {files : Files} {old next : Manifest} {previous : Option LogValidation}
    (proved : ∀ proof, previous = some proof → Proved files proof)
    (h : publishLogs files old next previous = .ok (some proof)) : Proved files proof := by
  obtain ⟨logs, extended, h⟩ := bind_eq_ok.mp h
  cases logs with
  | some logs =>
      cases h
      cases previous with
      | none => cases extended
      | some previous => exact ((proved previous rfl).agrees extended).1
  | none =>
      obtain ⟨_, validated, h⟩ := bind_eq_ok.mp h
      obtain ⟨_, _, h⟩ := bind_eq_ok.mp h
      exact proved_atCheckpoint (raise_eq_ok.mp validated) (Except.ok.inj h)

/-- Every proof of a live run stands for a full validation. -/
theorem Live.proved (live : Live owner) :
    ∀ proof, owner.proof = some proof → Proved owner.log.files proof := by
  induction live with
  | start => nofun
  | seed _ validated _ => exact fun proof has => proved_atCheckpoint validated has
  | @append owner records _ ih =>
      intro proof has
      unfold Owner.append at has ⊢
      cases poisoned : owner.log.poisoned with
      | true =>
          simp only [poisoned, if_true] at has ⊢
          exact ih proof has
      | false =>
          simp only [poisoned, Bool.false_eq_true, if_false] at has ⊢
          cases planned : planAppend owner.log records with
          | error failure =>
              rw [planned] at has
              exact (ih proof has).rejected poisoned planned
          | ok append =>
              rw [planned] at has
              obtain ⟨previous, isPrevious, isProof⟩ := Option.bind_eq_some_iff.mp has
              obtain ⟨list, _, digests, plans⟩ := planAppend_eq_ok planned
              have kept := (ih previous isPrevious).committed plans digests isProof
              rw [appendWal, if_neg (by simp [poisoned]), planned]
              exact kept
  | publish _ _ _ _ validated ih =>
      intro proof has
      cases has
      exact proved_publishLogs ih validated
  | change _ keeps ih => exact fun proof has => (ih proof has).keeps (keeps proof has)

/-- In every live run a proof lists the digests of exactly the records above its
checkpoint.  Validation from it never leaves this list, and it accepts only what
full validation of the log and of both anchors accepts. -/
theorem validateExtension_agrees (live : Live owner) (has : owner.proof = some proof) :
    (∃ records, readLog owner.log.files proof.manifest.databaseId proof.manifest.segments = .ok records ∧
      (digestsAbove proof.manifest.checkpointSequence records = proof.pending) ∧
      (records.filter fun record => decide (proof.manifest.checkpointSequence < record.sequence)).map
          Record.sequence =
        List.range' (proof.manifest.checkpointSequence + 1)
          (proof.manifest.durableSequence - proof.manifest.checkpointSequence)) ∧
    proof.pending.length = proof.manifest.durableSequence - proof.manifest.checkpointSequence ∧
    ∀ next, validateExtension owner.log.files owner.log.manifest next proof ≠ .error .panic ∧
      (∀ result, validateExtension owner.log.files owner.log.manifest next proof = .ok (some result) →
        validateLogs owner.log.files next = .ok () ∧
          validateAnchors owner.log.files owner.log.manifest next = .ok ()) ∧
      (¬ (validateLogs owner.log.files next = .ok () ∧
          validateAnchors owner.log.files owner.log.manifest next = .ok ()) →
        validateExtension owner.log.files owner.log.manifest next proof = .ok none ∨
          ∃ error, validateExtension owner.log.files owner.log.manifest next proof =
            .error (.raised error)) := by
  have proved := live.proved proof has
  obtain ⟨records, read, _, pending⟩ := proved.content
  refine ⟨⟨records, read, pending.symm, ?_⟩, proved.length_pending, fun next => ?_⟩
  · obtain ⟨start, _, consecutive⟩ := readLog_durable proved.valid read
    obtain ⟨dropped, length⟩ := filter_checkpoint proved.valid read
    have floor := proved.valid.frontiers.floor
    rw [dropped, List.map_drop, consecutive.map_sequence, List.drop_range', length]
    congr 1
    · omega
    · omega
  · have accepts : ∀ result, validateExtension owner.log.files owner.log.manifest next proof =
        .ok (some result) → validateLogs owner.log.files next = .ok () ∧
          validateAnchors owner.log.files owner.log.manifest next = .ok () :=
      fun result accepted => (proved.agrees accepted).2
    refine ⟨proved.safe.ne_panic, accepts, fun fails => ?_⟩
    cases outcome : validateExtension owner.log.files owner.log.manifest next proof with
    | ok result =>
        cases result with
        | none => exact .inl rfl
        | some result => exact absurd (accepts result outcome) fails
    | error fault =>
        cases fault with
        | raised error => exact .inr ⟨error, rfl⟩
        | panic => exact absurd outcome proved.safe.ne_panic

end Runs

end Checksums

namespace RunSample

/-- A created store with a proof, behind its first append. -/
def owner : Owner := Owner.append ⟨log, LogValidation.atCheckpoint Sample.created⟩ [(1, record)]

/-- A checkpoint of the appended record. -/
def candidate : Manifest :=
  { owner.log.manifest with
    generation := 2, checkpointSequence := 1, checkpointDigest := owner.log.manifest.durableDigest }

theorem live_owner : Live owner :=
  .append _ (@Live.seed _ _ ⟨log, none⟩ (.start log) (by decide))

theorem candidate_accepted :
    (owner.proof.any fun proof => decide (proof.pending = [⟨recordDigest, rfl⟩]) &&
      match validateExtension owner.log.files owner.log.manifest candidate proof with
      | .ok (some _) => true
      | _ => false) = true := by
  decide +kernel

/-- A checkpoint that was validated from a proof. -/
theorem candidate_validated :
    ∃ proof, owner.proof = some proof ∧ proof.pending = [⟨recordDigest, rfl⟩] ∧
      validateLogs owner.log.files candidate = .ok () ∧
      validateAnchors owner.log.files owner.log.manifest candidate = .ok () := by
  have accepted := candidate_accepted
  cases has : owner.proof with
  | none =>
      rw [has] at accepted
      cases accepted
  | some proof =>
      rw [has, Option.any_some, Bool.and_eq_true] at accepted
      obtain ⟨pending, accepted⟩ := accepted
      obtain ⟨_, _, agrees⟩ := validateExtension_agrees live_owner has
      refine ⟨proof, rfl, of_decide_eq_true pending, ?_⟩
      split at accepted
      · rename_i result extended
        exact (agrees candidate).2.1 result extended
      · cases accepted

end RunSample

end BlopDb.Storage.Wal
