/-
# Recovery repeats the log

The trees of a checkpoint present the records up to it.  Every record at or below the
checkpoint passes its checks against them, and executing the records above leaves trees
that present the whole log with the outcomes of its serial history.  Recovery therefore
fails in its publication only, and what it returns is open again with the same log.
-/

import BlopDb.Engine.Past
import BlopDb.Engine.Recovery
import BlopDb.Engine.SchedulerRuns
import BlopDb.Vm.Counts

namespace BlopDb.Engine

open BlopDb.Lib
open Storage (LimitPolicy Manifest TreeId View maxU64)
open Storage.Metadata (Chain Joint)
open Storage.Wal (Anchored Consecutive Files Reader Record readLog readRecords)
open Vm (Command Effect Ledger Outcome OutcomeRecord)
open Vm.Database (effectEntry finalEffects)
open Vm.History (Versions exactOutcome validate validateHistory)

/-! ## Reads of the logical trees -/

/-- Effects are stored in logical trees. -/
theorem logical_of_effectEntry {sequence : Nat} {effect : Effect} {tree : TreeId} {key value : Bytes}
    (stored : effectEntry sequence effect = .ok (tree, key, value)) : tree ≠ .cursors := by
  cases effect with
  | put | delete =>
      obtain ⟨_, -, stored⟩ := bind_eq_ok.mp stored
      obtain ⟨_, -, same⟩ := bind_eq_ok.mp stored
      cases same
      decide
  | catalogue | limits =>
      cases stored
      decide

namespace SameTrees

variable {view view' : View} {sequence floor checkpoint : Nat} (same : SameTrees view view')

include same

theorem read {tree : TreeId} (logical : tree ≠ .cursors) (key : Bytes) :
    view.get tree key = view'.get tree key := by
  simp only [View.get, same tree logical]

theorem scan {tree : TreeId} (logical : tree ≠ .cursors) (lower upper : Bound Bytes) :
    view.scan tree lower upper = view'.scan tree lower upper := by
  simp only [View.scan, same tree logical]

theorem readOutcome (sequence : Nat) :
    Vm.Outcome.readOutcome view sequence = Vm.Outcome.readOutcome view' sequence := by
  simp only [Vm.Outcome.readOutcome, same.read (show TreeId.outcomes ≠ .cursors by decide)]

theorem nextView (checkpoint sequence : Nat) :
    Vm.nextView checkpoint view sequence = Vm.nextView checkpoint view' sequence := by
  simp only [Vm.nextView, same.read (show TreeId.outcomes ≠ .cursors by decide),
    same.scan (show TreeId.outcomes ≠ .cursors by decide)]

theorem exactEffect (effect : Effect) :
    Vm.History.exactEffect view sequence effect floor = Vm.History.exactEffect view' sequence effect floor := by
  cases stored : effectEntry sequence effect with
  | error error => simp only [Vm.History.exactEffect, stored, error_bind]
  | ok entry =>
      obtain ⟨tree, key, value⟩ := entry
      simp only [Vm.History.exactEffect, stored, ok_bind, same.read (logical_of_effectEntry stored)]

theorem matchedEffects (effects : List Effect) :
    Vm.History.matchedEffects view sequence floor effects = Vm.History.matchedEffects view' sequence floor effects := by
  induction effects with
  | nil => rfl
  | cons effect effects ih => simp only [Vm.History.matchedEffects, same.exactEffect, ih]

theorem exactOutcome (versions : Versions) (kind : Nat) (outcome : Outcome) :
    Vm.History.exactOutcome view versions floor sequence kind outcome =
      Vm.History.exactOutcome view' versions floor sequence kind outcome := by
  simp only [Vm.History.exactOutcome, same.matchedEffects]

theorem checkOutcomes {digest : Bytes} {tables : OrdMap Nat Vm.History.TableHistory}
    {policies : OrdMap Nat LimitPolicy} {versions : Versions} {next : Nat} (entries : List Storage.Entry) :
    Vm.History.checkOutcomes view checkpoint floor digest tables policies versions next entries =
      Vm.History.checkOutcomes view' checkpoint floor digest tables policies versions next entries := by
  induction entries generalizing next with
  | nil => rfl
  | cons entry entries ih =>
      simp only [Vm.History.checkOutcomes, Vm.History.checkOutcome, same.exactOutcome, ih]

/-- The validation of a history reads the logical trees only. -/
theorem validateHistory (digest : Bytes) (initialPolicy : LimitPolicy) :
    Vm.History.validateHistory view checkpoint floor digest initialPolicy =
      Vm.History.validateHistory view' checkpoint floor digest initialPolicy := by
  have whole : Vm.History.validate view checkpoint floor digest initialPolicy =
      Vm.History.validate view' checkpoint floor digest initialPolicy := by
    simp only [Vm.History.validate, Vm.History.catalogueHistory, same.checkOutcomes,
      same.scan (show TreeId.catalogue ≠ .cursors by decide), same.scan (show TreeId.policy ≠ .cursors by decide),
      same.scan (show TreeId.state ≠ .cursors by decide), same.scan (show TreeId.outcomes ≠ .cursors by decide)]
  simp only [Vm.History.validateHistory, whole]

/-- A record is installed in the same logical trees alike. -/
theorem install {kind : Nat} {digest : Bytes} {outcome : Outcome} {after : View}
    (small : sequence < maxU64) (above : checkpoint < sequence)
    (installed : Vm.Database.install false checkpoint view sequence digest kind outcome = .ok after) :
    ∃ after', Vm.Database.install false checkpoint view' sequence digest kind outcome = .ok after' ∧
      SameTrees after after' := by
  obtain ⟨bytes, installs⟩ := Vm.Database.install_installs small installed
  have fresh : ∀ value, (beBytes 8 sequence, value) ∉ (view'.roots .outcomes).entries := by
    rw [same .outcomes (by decide)]
    exact installs.fresh
  obtain ⟨after', installed'⟩ := install_total above installs.encoded fresh
  obtain ⟨bytes', installs'⟩ := Vm.Database.install_installs small installed'
  obtain rfl := Except.ok.inj (installs.encoded.symm.trans installs'.encoded)
  refine ⟨after', installed', fun tree logical => ?_⟩
  apply OrdMap.ext
  intro key
  apply Option.ext
  intro value
  rw [OrdMap.find?_eq_some, OrdMap.find?_eq_some, installs.entries, installs'.entries, same tree logical]

end SameTrees

/-! ## Records at or below the checkpoint -/

/-- An outcome with one effect at most is canonical. -/
theorem canonical_of_few {outcome : Outcome} (few : (finalEffects (Vm.Outcome.canonical outcome)).length ≤ 1) :
    Vm.Outcome.canonical outcome = outcome := by
  cases outcome with
  | aborted abort => rfl
  | success ty value effects =>
      have perm : (Vm.Outcome.sortEffects effects).Perm effects := List.mergeSort_perm _ _
      have short : effects.length ≤ 1 := perm.length_eq ▸ few
      rw [Vm.Outcome.canonical]
      congr 1
      cases effects with
      | nil => exact List.perm_nil.mp perm
      | cons effect rest =>
          obtain rfl : rest = [] := List.eq_nil_of_length_eq_zero (by simpa using short)
          exact List.perm_singleton.mp perm

section Records

variable [Sha256] {initialPolicy : LimitPolicy} {log : List Record} {outcomes : List Outcome} {final base checkpoint : View}
variable {last : Bytes} {floor count position : Nat} {versions : Versions} {record : Record} {command : Command}

omit [Sha256] in
/-- The resolved records up to a position. -/
theorem take_history (count : Nat) :
    (history log outcomes).take count = history (log.take count) (outcomes.take count) := by
  rw [history, List.take_zipWith, history]

omit [Sha256] in
/-- The outcome that is stored for a record is its own. -/
theorem readOutcome_of_ledger {records : List OutcomeRecord} {record : OutcomeRecord}
    (ledger : Ledger initialPolicy records last floor base) (member : record ∈ records) :
    ∃ stored, Vm.Outcome.readOutcome base record.sequence = .ok stored ∧ ∀ kept ∈ stored, kept = record := by
  have small := (ledger.fits record member).small
  have positive := (ledger.sequence_le member).1
  have valid : Vm.Database.validId record.sequence = .ok () :=
    Vm.Database.validId_eq_ok.mpr ⟨by omega, small.ne⟩
  have got : base.get .outcomes (beBytes 8 record.sequence) =
      .ok ((base.roots .outcomes).find? (beBytes 8 record.sequence)) := by
    simp only [View.get, Storage.checkKey, length_beBytes, Storage.maxKey, gt_iff_lt, pure_eq_ok]
    rfl
  by_cases above : floor < record.sequence
  · obtain ⟨value, stored⟩ := ledger.resolved record member above
    have decoded := (outcome_decodes ledger member stored).2
    rw [OrdMap.find?_eq_some.mpr stored] at got
    refine ⟨some record, ?_, fun kept isKept => (Option.some.inj isKept).symm⟩
    simp only [Vm.Outcome.readOutcome, valid, ok_bind, got, Except.mapError, decoded, ne_eq, not_true_eq_false,
      refuse_false, pure_eq_ok]
  · have absent : (base.roots .outcomes).find? (beBytes 8 record.sequence) = none :=
      OrdMap.find?_eq_none.mpr fun value stored => above (outcome_decodes ledger member stored).1
    rw [absent] at got
    refine ⟨none, ?_, fun kept isKept => by cases isKept⟩
    simp only [Vm.Outcome.readOutcome, valid, ok_bind, got, Except.mapError, pure_eq_ok]

/-- Every record at or below a checkpoint passes its checks. -/
theorem validateCheckpointRecord_eq (serial : Serial initialPolicy log outcomes final) (small : log.length < maxU64)
    (inside : count ≤ log.length) (ledger : Ledger initialPolicy ((history log outcomes).take count) last floor base)
    (same : SameTrees base checkpoint)
    (valid : validate base count floor last initialPolicy = .ok versions) (found : log[position]? = some record)
    (below : position < count) (decoded : recordCommand record = .ok command) :
    validateCheckpointRecord checkpoint versions floor record.sequence record.digest.1 (uintAt 1 record.bytes 24) command =
      .ok () := by
  obtain ⟨earlier, later, command', outcome, has, before, -, numbered, decoded', executed⟩ := serial.step found
  obtain rfl := Except.ok.inj (decoded'.symm.trans decoded)
  obtain ⟨⟨prepared, isValid⟩, -, computed, -⟩ := execute_eq_ok.mp executed
  have whole := serial.length_history
  have length : ((history log outcomes).take count).length = count := by
    rw [List.length_take]
    omega
  obtain ⟨last', ledger'⟩ := (before.presents (by rw [List.length_take]; omega)).ledger
  rw [← take_history, show (history log outcomes).take position = ((history log outcomes).take count).take position by
    rw [List.take_take, Nat.min_eq_left below.le]] at ledger'
  have past := samePast_of_ledger (show position ≤ _ by omega) ledger' ledger
  have isKind := kind_of_recordCommand decoded
  -- The resolved form of the record is one of the ledger.
  have resolved := history_at found has
  have member : resolve record outcome ∈ (history log outcomes).take count :=
    List.mem_of_getElem? (i := position) (by rw [List.getElem?_take_of_lt below, resolved])
  have counts := Vm.History.validate_counts ledger (by rw [length]; exact valid) member
  obtain ⟨stored, read, own⟩ := readOutcome_of_ledger ledger member
  rw [numbered] at isValid
  have accepted := past.prepare isValid
  rw [← numbered, Record.prepare_congr same.sameMetadata] at accepted
  rw [same.readOutcome] at read
  change Vm.Outcome.readOutcome checkpoint record.sequence = .ok stored at read
  have agrees : ¬ ((∃ kept ∈ stored, kept.recordKind ≠ uintAt 1 record.bytes 24 ∨
      kept.recordDigest ≠ record.digest.1) ∨
      ∃ version ∈ versions.find? record.sequence, version.1 ≠ uintAt 1 record.bytes 24) := by
    rintro (⟨kept, isKept, different⟩ | ⟨version, isVersion, different⟩)
    · obtain rfl := own kept isKept
      exact different.elim (fun other => other rfl) fun other => other rfl
    · change (versions.find? record.sequence).getD _ = _ at counts
      rw [isVersion] at counts
      exact different (congrArg Prod.fst counts)
  -- The outcome of an administrative record is canonical.
  have keeps (other : uintAt 1 record.bytes 24 ≠ 1) : (¬ ∃ kept ∈ stored, kept.outcome ≠ outcome) ∧
      exactOutcome checkpoint versions floor record.sequence (uintAt 1 record.bytes 24) outcome = .ok () := by
    have canonical := canonical_of_few ((ledger.fits _ member).single other)
    have holds := Vm.History.exactOutcome_administrative ledger member other counts
    change exactOutcome base versions floor record.sequence (uintAt 1 record.bytes 24)
      (Vm.Outcome.canonical outcome) = .ok () at holds
    rw [same.exactOutcome, canonical] at holds
    refine ⟨?_, holds⟩
    rintro ⟨kept, isKept, different⟩
    obtain rfl := own kept isKept
    exact different canonical
  simp only [validateCheckpointRecord, accepted, read, raise_ok, ok_bind, refuse_of_not _ agrees]
  cases command' with
  | transaction transaction claims manifest =>
      cases stored with
      | none => rfl
      | some kept =>
          obtain rfl := own kept rfl
          cases ready : Vm.prepareTransaction earlier record.sequence transaction claims manifest with
          | error error =>
              simp only [Command.outcome, ready] at computed
              cases computed
          | ok started =>
              simp only [Command.outcome, ready] at computed
              have sound := Vm.interpretPrepared_sound ready computed
              rw [numbered] at ready
              have ready := past.prepareTransaction ready
              rw [← numbered, Vm.prepareTransaction_congr same.sameMetadata] at ready
              have one : uintAt 1 record.bytes 24 = 1 := isKind.symm
              have passes := @Vm.validateTransactionOutcome_sound _ _ _ _ _ record.digest.1 _ _
                (Vm.prepareTransaction_eq_ok ready).1 sound
              rw [resolve, Vm.canonical_of_sound sound, one]
              exact passes
  | catalogue operation =>
      have two : uintAt 1 record.bytes 24 = 2 := isKind.symm
      obtain ⟨agrees, holds⟩ := keeps (by omega)
      have computed : Vm.Database.catalogue earlier record.sequence operation = .ok outcome := Option.some.inj computed
      rw [numbered, past.catalogue (described_of_recordCommand decoded), ← numbered,
        Vm.catalogue_congr same.sameMetadata] at computed
      rw [two] at holds
      simp only [validateCatalogueRecord, computed, ok_bind, refuse_of_not _ agrees, raise_ok, holds]
  | limits policy =>
      have three : uintAt 1 record.bytes 24 = 3 := isKind.symm
      obtain ⟨agrees, holds⟩ := keeps (by omega)
      obtain rfl : Vm.Database.limits policy = outcome := Except.ok.inj (Option.some.inj computed)
      rw [three] at holds
      simp only [validateLimitsRecord, refuse_of_not _ agrees, raise_ok, ok_bind, holds]

/-! ## Records above the checkpoint -/

/-- Trees that present the records before a record. -/
def Trees (initialPolicy : LimitPolicy) (records : List OutcomeRecord) (floor : Nat) (live : View) : Prop :=
  ∃ view, SameTrees view live ∧ Presents initialPolicy records floor view

/-- A record above the checkpoint executes with its outcome. -/
theorem replays (serial : Serial initialPolicy log outcomes final) (small : log.length < maxU64)
    (found : log[position]? = some record) (decoded : recordCommand record = .ok command) {live : View} {bound : Nat}
    (trees : Trees initialPolicy ((history log outcomes).take position) floor live) (covered : floor ≤ bound)
    (above : bound ≤ position) :
    ∃ prepared outcome after, Record.prepare live record.sequence command = .ok prepared ∧
      Record.execute bound live record.sequence record.digest.1 command = some (.ok (outcome, after)) ∧
      Trees initialPolicy ((history log outcomes).take (position + 1)) floor after := by
  obtain ⟨view, same, presents⟩ := trees
  obtain ⟨earlier, later, command', outcome, has, before, -, numbered, decoded', executed⟩ := serial.step found
  obtain rfl := Except.ok.inj (decoded'.symm.trans decoded)
  obtain ⟨⟨prepared, isValid⟩, -, computed, installed⟩ := execute_eq_ok.mp executed
  have inside := (List.getElem?_eq_some_iff.mp found).1
  have whole := serial.length_history
  have length : ((history log outcomes).take position).length = position := by
    rw [List.length_take]
    omega
  have presents' := before.presents (by rw [List.length_take]; omega)
  rw [← take_history] at presents'
  have isNext : record.sequence = ((history log outcomes).take position).length + 1 := by rw [length, numbered]
  rw [Record.prepare_congr (presents'.sameMetadata presents)] at isValid
  rw [isNext, presents'.outcome_congr presents] at computed
  obtain ⟨bytes, installs⟩ := Vm.Database.install_installs (by omega) installed
  have ordered := presents.nextView (by omega) covered (show bound ≤ _ by omega)
  have fresh : ∀ value, (beBytes 8 record.sequence, value) ∉ (view.roots .outcomes).entries := by
    intro value member
    obtain ⟨last, ledger⟩ := presents.ledger
    obtain ⟨sequence, old, dated⟩ := dated_of_ledger ledger member
    have := Dated.unique (by omega) (by omega) dated rfl
    omega
  obtain ⟨after, installed⟩ := install_total (show bound < record.sequence by omega) installs.encoded fresh
  obtain ⟨after', installed', same'⟩ := same.install (by omega) (show bound < record.sequence by omega) installed
  rw [isNext] at installed
  have next := presents.record record.digest.2 (by omega) computed installed
  rw [← isNext] at next computed ordered
  rw [Record.prepare_congr same.sameMetadata] at isValid
  refine ⟨prepared, outcome, after', isValid, execute_eq_ok.mpr ⟨⟨prepared, isValid⟩, ?_, ?_, installed'⟩, after,
    same', ?_⟩
  · rw [← same.nextView]
    exact ordered
  · rw [← same.outcome presents.uncorrupted (by omega)]
    exact computed
  · rw [List.take_add_one, history_at found has, Option.toList_some, resolve, ← kind_of_recordCommand decoded]
    exact next

end Records

/-! ## Replay -/

section Replay

variable [Sha256] {initialPolicy : LimitPolicy} {manifest : Manifest} {log : List Record} {outcomes : List Outcome}
variable {checkpoint : View} {versions : Versions} {record : Record} {position : Nat} {replay : Replay}

/-- A recovery has passed the records up to a position. -/
structure Replayed (initialPolicy : LimitPolicy) (manifest : Manifest) (records : List OutcomeRecord) (position : Nat)
    (replay : Replay) : Prop where
  resolved : replay.resolved = max manifest.checkpointSequence position
  trees : Trees initialPolicy (records.take (max manifest.checkpointSequence position)) manifest.historyFloor replay.view

/-- A checkpoint whose trees present the first records of a log. -/
structure Checkpointed (initialPolicy : LimitPolicy) (manifest : Manifest) (log : List Record) (outcomes : List Outcome)
    (checkpoint : View) (versions : Versions) : Prop where
  serial : ∃ final, Serial initialPolicy log outcomes final
  small : log.length < maxU64
  inside : manifest.checkpointSequence ≤ log.length
  covered : manifest.historyFloor ≤ manifest.checkpointSequence
  presents : ∃ base, SameTrees base checkpoint ∧
    Ledger initialPolicy ((history log outcomes).take manifest.checkpointSequence) manifest.checkpointDigest.1
      manifest.historyFloor base ∧
    validate base manifest.checkpointSequence manifest.historyFloor manifest.checkpointDigest.1 initialPolicy =
      .ok versions
  anchored : Anchored manifest log

namespace Checkpointed

variable (checkpointed : Checkpointed initialPolicy manifest log outcomes checkpoint versions)

include checkpointed

/-- One record is checked or executed. -/
theorem replayRecord (found : log[position]? = some record)
    (replayed : Replayed initialPolicy manifest (history log outcomes) position replay)
    (links : position = manifest.checkpointSequence → replay.predecessor = manifest.checkpointDigest) :
    ∃ replay', Engine.replayRecord manifest checkpoint versions replay record = .ok replay' ∧
      replay'.predecessor = record.digest ∧
      Replayed initialPolicy manifest (history log outcomes) (position + 1) replay' := by
  obtain ⟨⟨final, serial⟩, small, inside, covered, ⟨base, same, ledger, valid⟩, anchored⟩ := checkpointed
  obtain ⟨_, _, command, _, -, -, -, numbered, decoded, -⟩ := serial.step found
  have anchor := Storage.Wal.checkAnchor_eq_ok.mpr (anchored record (List.mem_of_getElem? found))
  obtain ⟨resolved, trees⟩ := replayed
  by_cases above : record.sequence > manifest.checkpointSequence
  · have within : manifest.checkpointSequence ≤ position := by omega
    rw [Nat.max_eq_right within] at resolved trees
    obtain ⟨prepared, outcome, after, isValid, executed, trees'⟩ :=
      replays serial small found decoded trees covered within
    have next : ¬ (record.sequence ≠ replay.resolved + 1 ∨ (replay.resolved = manifest.checkpointSequence ∧
        replay.predecessor ≠ manifest.checkpointDigest)) := by
      rintro (gap | ⟨atCheckpoint, broken⟩)
      · omega
      · exact broken (links (by omega))
    refine ⟨⟨after, record.sequence, record.digest⟩, ?_, rfl, ?_, ?_⟩
    · simp only [Engine.replayRecord, anchor, decoded, relay_ok, raise_ok, ok_bind, if_pos above, refuse_of_not _ next,
        isValid, executed, Option.getD_some, pure_eq_ok]
    · rw [Nat.max_eq_right (by omega)]
      exact numbered
    · rw [Nat.max_eq_right (by omega)]
      exact trees'
  · have below : position < manifest.checkpointSequence := by omega
    rw [Nat.max_eq_left below.le] at resolved trees
    have passes := validateCheckpointRecord_eq serial small inside ledger same valid found below decoded
    refine ⟨{ replay with predecessor := record.digest }, ?_, rfl, ?_, ?_⟩
    · simp only [Engine.replayRecord, anchor, decoded, relay_ok, raise_ok, ok_bind, if_neg above, passes, pure_eq_ok]
    · rw [Nat.max_eq_left (by omega)]
      exact resolved
    · rw [Nat.max_eq_left (by omega)]
      exact trees

variable [Crc32c]

/-- The records of a segment are passed in order. -/
theorem replayRecords {records rest : List Record} {reader after : Reader} {digest ends : Storage.Digest} {stop : Nat}
    (consecutive : Consecutive position digest records stop ends)
    (read : readRecords records.length reader = .ok (records, after)) (follows : log.drop position = records ++ rest)
    (replayed : Replayed initialPolicy manifest (history log outcomes) position replay)
    (isDigest : replay.predecessor = digest)
    (links : position = manifest.checkpointSequence → replay.predecessor = manifest.checkpointDigest) :
    ∃ replay', Engine.replayRecords manifest checkpoint versions records.length reader replay = .ok replay' ∧
      replay'.predecessor = ends ∧ Replayed initialPolicy manifest (history log outcomes) stop replay' := by
  induction consecutive generalizing reader replay with
  | nil => exact ⟨replay, rfl, isDigest, replayed⟩
  | @cons previous last digest ends record records next bound valid more ih =>
      obtain ⟨record', middle, records', isNext, moreRead, isRecords⟩ := Storage.Wal.readRecords_succ.mp read
      obtain ⟨rfl, rfl⟩ := List.cons.inj isRecords
      have found : log[previous]? = some record := by
        rw [← Nat.add_zero previous, ← List.getElem?_drop, follows]
        rfl
      have follows' : log.drop record.sequence = records ++ rest := by
        rw [next, ← List.tail_drop, follows]
        rfl
      obtain ⟨replay', passed, isDigest', replayed'⟩ := checkpointed.replayRecord found replayed links
      rw [← next] at replayed'
      obtain ⟨replay'', passes, ended⟩ := ih moreRead follows' replayed' isDigest' fun atCheckpoint =>
        isDigest'.trans (checkpointed.anchored record (List.mem_of_getElem? found) atCheckpoint)
      refine ⟨replay'', ?_, ended⟩
      simp only [List.length_cons, Engine.replayRecords, isNext, raise_ok, ok_bind, passed]
      exact passes

/-- The retained segments are passed in order. -/
theorem replaySegments {files : Files} {segments : List Storage.SegmentDescriptor} {start stop : Joint}
    {records : List Record} (chain : Chain manifest start segments stop)
    (read : readLog files manifest.databaseId segments = .ok records) (positive : start.sequence ≠ 0)
    (follows : log.drop (start.sequence - 1) = records)
    (replayed : Replayed initialPolicy manifest (history log outcomes) (start.sequence - 1) replay) :
    ∃ replay', Engine.replaySegments files manifest checkpoint versions segments replay = .ok replay' ∧
      Replayed initialPolicy manifest (history log outcomes) (stop.sequence - 1) replay' := by
  induction chain generalizing records replay with
  | nil => exact ⟨replay, rfl, replayed⟩
  | @cons start stop segment rest continues chain ih =>
      obtain ⟨file, own, others, found, isRead, moreRead, rfl⟩ := Storage.Wal.readLog_cons.mp read
      obtain ⟨reader, after, opened, reads⟩ := Storage.Wal.readSuffix_eq_ok.mp isRead
      have count := (Storage.Wal.readSuffix_end opened reads).2.1
      have consecutive := Storage.Wal.readSuffix_consecutive isRead
      rw [continues.first] at consecutive
      have isLast := consecutive.last_eq
      have links : start.sequence - 1 = manifest.checkpointSequence →
          segment.predecessorDigest = manifest.checkpointDigest := by
        intro atCheckpoint
        have first := continues.first
        exact continues.opens (by omega)
      rw [← count] at reads
      obtain ⟨replay', passed, ends, replayed'⟩ := checkpointed.replayRecords consecutive reads follows
        (show Replayed initialPolicy manifest (history log outcomes) (start.sequence - 1)
          { replay with predecessor := segment.predecessorDigest } from ⟨replayed.resolved, replayed.trees⟩) rfl links
      have follows' : log.drop segment.lastSequence = others := by
        rw [isLast, ← List.drop_drop, follows, List.drop_left]
      obtain ⟨replay'', passes, whole⟩ := ih moreRead (Nat.succ_ne_zero segment.lastSequence) follows' replayed'
      refine ⟨replay'', ?_, whole⟩
      simp only [Engine.replaySegments, found, opened, raise_ok, ok_bind, ← count, passed, ends, ne_eq, not_true_eq_false,
        refuse_false]
      exact passes

end Checkpointed

end Replay

/-! ## Recovery -/

section Recovery

variable [Crc32c] [Sha256] {initialPolicy : LimitPolicy} {course : Course} {checkpoint live : View}

/-- A retained checkpoint record has the digest of the checkpoint. -/
theorem Source.Sound.anchored_retained {source : Source} (sound : source.Sound initialPolicy)
    (retained : source.store.manifest.logFloor ≤ source.store.manifest.checkpointSequence) :
    Anchored source.store.manifest source.journal := by
  intro record member atCheckpoint
  obtain ⟨position, inside, rfl⟩ := List.mem_iff_getElem.mp member
  have numbered := sound.numbered (List.getElem?_eq_getElem inside)
  refine sound.anchored _ (List.mem_drop_iff_getElem.mpr ?_) atCheckpoint
  refine ⟨position - (source.store.manifest.logFloor - 1), by omega, ?_⟩
  congr 1
  omega

/-- The records of a course are those of its journal. -/
theorem Course.Exact.mem_records (exact : course.Exact initialPolicy) {record : OutcomeRecord}
    (member : record ∈ course.records) : ∃ logged ∈ course.source.journal, ∃ outcome, record = resolve logged outcome := by
  obtain ⟨position, found⟩ := List.getElem?_of_mem member
  have inside : position < course.source.journal.length := by
    rw [← exact.serial.length_history]
    exact (List.getElem?_eq_some_iff.mp found).1
  obtain ⟨logged, outcome, foundLog, has, -⟩ := exact.at_position inside
  exact ⟨logged, List.mem_of_getElem? foundLog, outcome, Option.some.inj (found.symm.trans (records_at foundLog has))⟩

/-- An engine on a course leaves a store and the trees of its checkpoint. -/
structure Course.Leaves (initialPolicy : LimitPolicy) (course : Course) (store : Store) (checkpoint : View) : Prop where
  exact : course.Exact initialPolicy
  stored : course.source.store = store
  saved : course.Saved initialPolicy checkpoint
  anchored : Anchored store.manifest course.source.journal

namespace Course.Leaves

variable {store recovered : Store} {placement : Except Storage.Error Placement}
variable (leaves : course.Leaves initialPolicy store checkpoint)

include leaves

/-- What is left is a checkpoint of the log. -/
theorem checkpointed : ∃ versions, Checkpointed initialPolicy store.manifest course.source.journal course.outcomes
    checkpoint versions := by
  obtain ⟨exact, rfl, ⟨base, same, ⟨last, ledger⟩, -⟩, anchored⟩ := leaves
  have frontiers := exact.sound.valid.frontiers
  have journaled := exact.sound.journaled
  have length : (course.records.take course.source.store.manifest.checkpointSequence).length =
      course.source.store.manifest.checkpointSequence := by
    have whole := exact.serial.length_history
    have := frontiers.checkpoint
    rw [List.length_take, Course.records]
    omega
  have ledger' : Ledger initialPolicy (course.records.take course.source.store.manifest.checkpointSequence)
      course.source.store.manifest.checkpointDigest.1 course.source.store.manifest.historyFloor base := by
    refine { ledger with newest := fun record member isLast => ?_ }
    obtain ⟨logged, inJournal, outcome, rfl⟩ := exact.mem_records (List.mem_of_mem_take member)
    exact congrArg Subtype.val (anchored logged inJournal (isLast.trans length))
  obtain ⟨versions, valid⟩ := Vm.History.validate_ledger ledger'
  rw [length] at valid
  exact ⟨versions, ⟨_, exact.serial⟩, exact.length_lt, journaled ▸ frontiers.checkpoint, frontiers.history,
    ⟨base, same, ledger', valid⟩, anchored⟩

/-- A recovery passes the whole log. -/
theorem replayed : ∃ versions replay,
    validateHistory checkpoint store.manifest.checkpointSequence store.manifest.historyFloor
      store.manifest.checkpointDigest.1 initialPolicy = .ok versions ∧
    replaySegments store.files store.manifest checkpoint versions store.manifest.segments
      ⟨checkpoint, store.manifest.checkpointSequence, store.manifest.checkpointDigest⟩ = .ok replay ∧
    replay.resolved = store.manifest.durableSequence ∧
    Trees initialPolicy course.records store.manifest.historyFloor replay.view := by
  obtain ⟨versions, checkpointed⟩ := leaves.checkpointed
  obtain ⟨base, same, -, valid⟩ := checkpointed.presents
  obtain ⟨exact, rfl, saved, anchored⟩ := leaves
  have whole := exact.serial.length_history
  have journaled := exact.sound.journaled
  have checkpointBound := exact.sound.valid.frontiers.checkpoint
  have floorBound := exact.sound.valid.frontiers.floor
  obtain ⟨stop, chain, isStop⟩ : ∃ stop, Chain course.source.store.manifest (.floor course.source.store.manifest)
      course.source.store.manifest.segments stop ∧
        stop.sequence = course.source.store.manifest.durableSequence + 1 := by
    have logged := exact.sound.valid.logged
    unfold Storage.Metadata.Logged at logged
    split_ifs at logged with empty
    · rw [empty]
      exact ⟨_, .nil _, logged.2⟩
    · obtain ⟨id, chain⟩ := logged
      exact ⟨_, chain, rfl⟩
  have within : course.source.store.manifest.logFloor - 1 ≤ course.source.store.manifest.checkpointSequence := by omega
  have start : Replayed initialPolicy course.source.store.manifest course.records
      (course.source.store.manifest.logFloor - 1) ⟨checkpoint, course.source.store.manifest.checkpointSequence,
        course.source.store.manifest.checkpointDigest⟩ :=
    ⟨(Nat.max_eq_left within).symm, by rw [Nat.max_eq_left within]; exact saved⟩
  obtain ⟨replay, passed, resolved, trees⟩ :=
    checkpointed.replaySegments chain exact.sound.content floorBound.1 rfl start
  rw [isStop, Nat.add_sub_cancel, Nat.max_eq_right checkpointBound] at resolved trees
  refine ⟨versions, replay, ?_, passed, resolved, ?_⟩
  · rw [← same.validateHistory]
    simp only [validateHistory, valid]
  · rw [List.take_of_length_le (by omega)] at trees
    exact trees

/-- A recovery fails in its publication only. -/
theorem recover_eq : ∃ live, Trees initialPolicy course.records store.manifest.historyFloor live ∧
    ∀ placement, recover initialPolicy { store with view := checkpoint } checkpoint placement =
      if store.manifest.checkpointSequence ≠ store.manifest.durableSequence then
        raise id ((publishCheckpoint { store with view := live } placement).map fun manifest =>
          { store with view := live, manifest := manifest })
      else .ok { store with view := live } := by
  obtain ⟨versions, replay, valid, passed, resolved, trees⟩ := leaves.replayed
  refine ⟨replay.view, trees, fun placement => ?_⟩
  simp only [recover, valid, relay_ok, passed, resolved, ne_eq, not_true_eq_false, refuse_false, raise_ok, ok_bind]
  by_cases published : store.manifest.checkpointSequence = store.manifest.durableSequence
  · rw [if_neg (not_not.mpr published), if_neg (not_not.mpr published)]
    rfl
  · rw [if_pos published, if_pos published]
    cases publishCheckpoint { store with view := replay.view } placement with
    | error error => rfl
    | ok manifest => rfl

/-- A store whose trees present its whole log is on the course of the log. -/
theorem reopened (trees : Trees initialPolicy course.records store.manifest.historyFloor live) :
    ∃ source : Source, Course.Exact initialPolicy { course with source := source } ∧
      source.store = { store with view := live } ∧ source.journal = course.source.journal ∧
      source.frontier = store.manifest.durableSequence := by
  obtain ⟨exact, rfl, -, -⟩ := leaves
  obtain ⟨serial, same, ledger, rows⟩ := trees
  have length : course.records.length = course.source.store.manifest.durableSequence :=
    exact.serial.length_history.trans exact.sound.journaled
  refine ⟨⟨{ course.source.store with view := live }, course.source.store.manifest.durableSequence,
    course.source.journal, serial, course.records, fun _ => none⟩, ⟨?_, rows, exact.serial, ?_⟩, rfl, rfl, rfl⟩
  · refine { exact.sound with
      ledger := ledger
      counted := length
      durable := le_rfl
      matched := fun record member => ?_
      pending := fun present => by cases present
      live := fun {tree} logical entry => ?_ }
    · obtain ⟨logged, inJournal, outcome, rfl⟩ := exact.mem_records member
      exact ⟨logged, inJournal, rfl, rfl, rfl⟩
    · rw [same tree logical]
      refine ⟨.inl, fun held => held.resolve_right ?_⟩
      rintro ⟨_, _, present, -⟩
      cases present
  · exact (List.take_of_length_le length.le).symm

/-- A recovered store is open with the same log. -/
theorem recover_opens
    (isRecovered : recover initialPolicy { store with view := checkpoint } checkpoint placement = .ok recovered) :
    ∃ source : Source, Course.Opens initialPolicy { course with source := source } recovered ∧
      source.journal = course.source.journal ∧ Anchored recovered.manifest course.source.journal := by
  obtain ⟨live, trees, recovers⟩ := leaves.recover_eq
  obtain ⟨source, exact, isStore, isJournal, drained⟩ := leaves.reopened trees
  rw [recovers] at isRecovered
  split_ifs at isRecovered with unpublished
  · obtain ⟨manifest, published, rfl⟩ : ∃ manifest, publishCheckpoint { store with view := live } placement = .ok manifest ∧
        { store with view := live, manifest := manifest } = recovered := by
      cases isPublished : publishCheckpoint { store with view := live } placement with
      | error error =>
          rw [isPublished] at isRecovered
          cases isRecovered
      | ok manifest =>
          rw [isPublished] at isRecovered
          exact ⟨manifest, rfl, Except.ok.inj isRecovered⟩
    rw [← isStore] at published
    have frontiers := leaves.exact.sound.valid.frontiers
    rw [leaves.stored] at frontiers
    have checkpointBound := frontiers.checkpoint
    have floorBound := frontiers.floor
    obtain ⟨-, exact', -, -⟩ := publishCheckpoint_exact exact (by rw [isStore]; exact drained) published
    obtain ⟨place, -, -, isNext, -⟩ := publish_eq_ok published
    obtain ⟨isDurable, isCheckpoint, isFloor⟩ : manifest.durableSequence = store.manifest.durableSequence ∧
        manifest.checkpointSequence = store.manifest.durableSequence ∧ manifest.logFloor = store.manifest.logFloor := by
      rw [isNext, isStore]
      exact ⟨rfl, rfl, rfl⟩
    refine ⟨_, ⟨exact', by simp only [isStore], drained.trans isDurable.symm, isCheckpoint.trans isDurable.symm⟩,
      isJournal, ?_⟩
    rw [← isJournal]
    exact exact'.sound.anchored_retained (show manifest.logFloor ≤ manifest.checkpointSequence by omega)
  · obtain rfl := Except.ok.inj isRecovered
    exact ⟨source, ⟨exact, isStore, drained, not_not.mp unpublished⟩, isJournal, leaves.anchored⟩

end Course.Leaves

end Recovery

end BlopDb.Engine
