/-
# Feeds deliver every record once

A consumer polls from the baseline of its cursor on, each time behind the last
batch, while the engine runs.  What it has received is always the stored records
from the baseline to its position.  A poll that is admitted delivers at least one
record where there is one and the limits allow it, or names the limit it needs.
-/

import BlopDb.Engine.FeedSound

namespace BlopDb.Engine

open BlopDb.Lib
open Exchange (Encodable Entry Error FeedBatch FeedRecords LogicalRecord emptyBatchBytes maxBatchBytes
  encodeOutcome entryBytes outcomeBytes outcomeBytes_eq)
open Storage (LimitPolicy Manifest maxU64 sha256)
open Storage.Wal (Consecutive Record readLog)
open Vm (OutcomeRecord)

/-! ## Admission -/

/-- A poll that names a registered cursor of its kind, behind its baseline. -/
structure Admissible (store : Store) (token : CursorToken) (after : Watermark) (limits : BatchLimits)
    (frontier : Nat) (kinds : List CursorKind) : Prop where
  cursor : ∃ info, lookup store token = .ok (some info) ∧ info.baseline ≤ after.sequence
  kind : token.kind ∈ kinds
  database : after.databaseId = store.genesisId
  visible : after.sequence ≤ frontier
  bytes : emptyBatchBytes ≤ limits.maxBytes ∧ limits.maxBytes ≤ maxBatchBytes

variable {store : Store} {token : CursorToken} {after : Watermark} {limits : BatchLimits}
  {frontier : Nat} {kinds : List CursorKind}

theorem admit_eq_ok {reason : String} :
    admitPoll store token after limits frontier kinds reason = .ok () ↔
      Admissible store token after limits frontier kinds := by
  have isRegistered {found : Option CursorInfo} {info : CursorInfo} :
      registered found = .ok info ↔ found = some info := by
    cases found <;> simp [registered]
  simp only [admitPoll, bind_eq_ok, isRegistered, refuse_eq_ok, checkWatermark, exists_const, not_or,
    not_not, not_lt, gt_iff_lt]
  constructor
  · rintro ⟨_, found, info, rfl, kind, database, ⟨behind, visible⟩, bytes⟩
    exact ⟨⟨info, found, behind⟩, kind, database, visible, bytes⟩
  · rintro ⟨⟨info, found, behind⟩, kind, database, visible, bytes⟩
    exact ⟨_, found, info, rfl, kind, database, ⟨behind, visible⟩, bytes⟩

/-- A registered cursor protects what follows its baseline. -/
theorem lookup_protects {info : CursorInfo} (found : lookup store token = .ok (some info)) :
    store.manifest.historyFloor ≤ info.baseline ∧
      (token.kind ≠ .resolved → store.manifest.logFloor ≤ info.baseline + 1) := by
  simp only [lookup, bind_eq_ok, refuse_eq_ok, exists_const] at found
  obtain ⟨-, -, _ | bytes, -, found⟩ := found
  · cases found
  · simp only [decodeCursor, bind_eq_ok, refuse_eq_ok, exists_const, mapError_eq_ok, pure_eq_ok,
      Except.ok.injEq, Option.some.injEq, not_not] at found
    obtain ⟨_, ⟨-, kind, -, valid, label, -, rfl⟩, same, rfl⟩ := found
    simp only [not_or, not_and, not_lt, gt_iff_lt, ge_iff_le] at valid
    refine ⟨valid.2.2.2.2.1, fun other => ?_⟩
    rw [same] at other
    exact valid.2.2.2.2.2.2 other

/-! ## Stored records -/

/-- A part of the records of a feed. -/
def Exchange.FeedRecords.part (start count : Nat) : FeedRecords → FeedRecords
  | .resolved records => .resolved ((records.drop start).take count)
  | .logical records => .logical ((records.drop start).take count)

/-- Every visible record of a source, as a logical or a resolved feed has it. -/
def Source.feed (source : Source) : (logical : Bool) → FeedRecords
  | false => .resolved source.resolved
  | true => .logical
      (List.zipWith (fun record outcome => ⟨record.bytes, outcome⟩) source.journal source.resolved)

/-- The batch of some stored records behind a sequence. -/
def Source.batch (source : Source) (logical : Bool) (start count : Nat) : FeedBatch :=
  ⟨source.store.genesisId, start, start + count, (source.feed logical).part start count⟩

theorem entries_part (start count : Nat) (records : FeedRecords) :
    (records.part start count).entries = (records.entries.drop start).take count := by
  cases records with
  | resolved records | logical records =>
      simp only [FeedRecords.part, FeedRecords.entries, List.map_take, List.map_drop]

/-- The records behind a watermark are a part of the stored ones. -/
theorem behind_zip {after : Nat} {resolved : List OutcomeRecord} {records : List Record}
    {start : Nat} (from' : after ≤ start)
    (numbered : ∀ {position record}, records[position]? = some record →
      record.sequence = start + position + 1) :
    Replica.behind after resolved records =
      List.zipWith (fun record outcome => ⟨record.bytes, outcome⟩) records (resolved.drop start) := by
  induction records generalizing start with
  | nil => rfl
  | cons record records ih =>
      have isSequence : record.sequence = start + 1 := @numbered 0 record rfl
      have rest := @ih (start + 1) (by omega) fun {position other} found => by
        rw [@numbered (position + 1) other found]
        omega
      cases found : resolved[start]? with
      | none =>
          have short := List.getElem?_eq_none_iff.mp found
          rw [Replica.behind_eq_nil fun other member => ?_, List.drop_of_length_le short,
            List.zipWith_nil_right]
          obtain ⟨position, at'⟩ := List.getElem?_of_mem member
          rw [numbered at']
          omega
      | some outcome =>
          obtain ⟨inside, rfl⟩ := List.getElem?_eq_some_iff.mp found
          rw [List.drop_eq_getElem_cons inside, List.zipWith_cons_cons, ← rest]
          exact Replica.behind_cons_new (by omega) (by rw [isSequence]; exact found)

section Chains

variable [Crc32c] [Sha256]

/-- Later records of a chain are a chain. -/
theorem consecutive_drop {previous last : Nat} {digest final : Storage.Digest} {records : List Record}
    (consecutive : Consecutive previous digest records last final) {count : Nat}
    (inside : count ≤ records.length) :
    ∃ digest', Consecutive (previous + count) digest' (records.drop count) last final := by
  induction consecutive generalizing count with
  | nil sequence digest =>
      obtain rfl := Nat.le_zero.mp inside
      exact ⟨digest, .nil _ _⟩
  | @cons previous last digest final record rest next bound valid more ih =>
      cases count with
      | zero => exact ⟨digest, .cons next bound valid more⟩
      | succ count =>
          obtain ⟨digest', later⟩ := ih (Nat.le_of_succ_le_succ inside)
          rw [next, Nat.add_right_comm] at later
          exact ⟨digest', later⟩

/-- Consecutive outcomes are taken by the encoder. -/
theorem encodable_resolved {outcomes : List OutcomeRecord} {sequence : Nat}
    {predecessor : Option Storage.Digest}
    (numbered : ∀ {position outcome}, outcomes[position]? = some outcome →
      outcome.sequence = sequence + position)
    (encodes : ∀ outcome ∈ outcomes, ∃ bytes, encodeOutcome outcome = .ok bytes) :
    Encodable predecessor sequence (FeedRecords.resolved outcomes).entries := by
  induction outcomes generalizing sequence with
  | nil => trivial
  | cons outcome outcomes ih =>
      refine ⟨@numbered 0 outcome rfl, encodes outcome List.mem_cons_self, predecessor, rfl, ?_⟩
      refine ih (fun {position other} found => ?_) fun other member =>
        encodes other (List.mem_cons_of_mem _ member)
      rw [@numbered (position + 1) other found]
      omega

/-- A chain of log records with their outcomes is taken by the encoder. -/
theorem encodable_logical {records : List Record} {outcomes : List OutcomeRecord}
    {previous last : Nat} {digest final : Storage.Digest} {predecessor : Option Storage.Digest}
    (consecutive : Consecutive previous digest records last final)
    (linked : ∀ given ∈ predecessor, given = digest)
    (numbered : ∀ {position outcome}, outcomes[position]? = some outcome →
      outcome.sequence = previous + 1 + position)
    (encodes : ∀ outcome ∈ outcomes, ∃ bytes, encodeOutcome outcome = .ok bytes)
    (matched : ∀ record ∈ records, ∀ outcome ∈ outcomes, outcome.sequence = record.sequence →
      outcome.recordDigest = record.digest.1 ∧ outcome.recordKind = uintAt 1 record.bytes 24) :
    Encodable predecessor (previous + 1) (FeedRecords.logical
      (List.zipWith (fun record outcome => ⟨record.bytes, outcome⟩) records outcomes)).entries := by
  induction consecutive generalizing outcomes predecessor with
  | nil => trivial
  | @cons previous last digest final record rest next bound valid more ih =>
      cases outcomes with
      | nil => trivial
      | cons outcome outcomes =>
          have isSequence : outcome.sequence = previous + 1 := @numbered 0 outcome rfl
          obtain ⟨digested, kinded⟩ := matched record List.mem_cons_self outcome List.mem_cons_self
            (isSequence.trans next.symm)
          obtain ⟨kind, body, recorded, framed, isDigest⟩ := validated_frame valid
          have isKind : uintAt 1 record.bytes 24 = kind := by
            obtain ⟨-, -, -, -, -, -, stored, -⟩ :=
              recordHeader_slices record.sequence digest kind body.length
            rw [← Exchange.slice_frame (by norm_num), ← framed] at stored
            exact Storage.Wal.uintAt_of_slice stored (by have := recorded.kinded; omega)
          have checked : Exchange.validateLog record.bytes outcome predecessor =
              .ok (sha256 record.bytes) := by
            refine Exchange.validateLog_eq_ok.mpr ⟨digest, body, linked, ?_, ?_, ?_, recorded.short,
              by rw [digested, isDigest], rfl⟩
            · rw [kinded, isKind, isSequence, ← next]
              exact framed
            · rw [isSequence, ← next]
              exact recorded.numbered
            · rw [kinded, isKind]
              exact recorded.kinded
          refine ⟨isSequence, encodes outcome List.mem_cons_self, some (sha256 record.bytes), ?_, ?_⟩
          · rw [Exchange.checkLog, checked]
            rfl
          · rw [← next]
            refine ih (fun given isGiven => ?_) (fun {position other} found => ?_)
              (fun other member => encodes other (List.mem_cons_of_mem _ member))
              fun other member outcome' member' => matched other (List.mem_cons_of_mem _ member)
                outcome' (List.mem_cons_of_mem _ member')
            · rw [isDigest]
              exact (Option.mem_some.mp isGiven).symm
            · rw [@numbered (position + 1) other found, next]
              omega

end Chains

/-! ## Polls -/

section Polls

variable [Crc32c] [Sha256] {initialPolicy : LimitPolicy} {source : Source}

/-- The cursors that a feed serves. -/
def feedKinds : (logical : Bool) → List CursorKind
  | false => [.resolved]
  | true => [.logical, .logReplica]

/-- Poll a logical or a resolved feed. -/
def poll (logical : Bool) (store : Store) (token : CursorToken) (after : Watermark)
    (limits : BatchLimits) (frontier : Nat) : Except (Fault Error) FeedBatch :=
  if logical then Replica.batch store token after limits frontier
  else Feed.batch store token after limits frontier

/-- Only admissible polls return a batch. -/
theorem admissible_of_poll {logical : Bool} {batch : FeedBatch}
    (polled : poll logical store token after limits frontier = .ok batch) :
    Admissible store token after limits frontier (feedKinds logical) := by
  cases logical with
  | false =>
      obtain ⟨⟨⟩, admitted, -⟩ := bind_eq_ok.mp polled
      exact admit_eq_ok.mp (raise_eq_ok.mp admitted)
  | true =>
      obtain ⟨⟨⟩, admitted, -⟩ := bind_eq_ok.mp polled
      exact admit_eq_ok.mp (raise_eq_ok.mp admitted)

/-- Retained outcomes encode. -/
theorem Source.Sound.encodes (sound : source.Sound initialPolicy) {record : OutcomeRecord}
    (member : record ∈ source.resolved) (above : source.store.manifest.historyFloor < record.sequence) :
    ∃ bytes, encodeOutcome record = .ok bytes := by
  obtain ⟨value, -, decoded⟩ := sound.outcome_stored member above
  exact ⟨value, Exchange.encodeOutcome_eq_ok.mpr (Vm.Outcome.encodeOutcome_decodeOutcome decoded)⟩

/-- The outcome at a position is that of the next sequence. -/
theorem Source.Sound.outcome_numbered (sound : source.Sound initialPolicy) {position : Nat}
    {outcome : OutcomeRecord} (found : source.resolved[position]? = some outcome) :
    outcome.sequence = position + 1 := by
  obtain ⟨last, ledger⟩ := sound.ledger
  exact ledger.numbered found

/-- An outcome names the log record of its sequence. -/
theorem Source.Sound.outcome_matches (sound : source.Sound initialPolicy) {record : Record}
    (logged : record ∈ source.journal) {outcome : OutcomeRecord} (member : outcome ∈ source.resolved)
    (same : outcome.sequence = record.sequence) :
    outcome.recordDigest = record.digest.1 ∧ outcome.recordKind = uintAt 1 record.bytes 24 := by
  obtain ⟨record', member', isSequence, digest, kind⟩ := sound.matched outcome member
  obtain ⟨position, found⟩ := List.getElem?_of_mem logged
  obtain ⟨position', found'⟩ := List.getElem?_of_mem member'
  have number := sound.numbered found
  have number' := sound.numbered found'
  obtain rfl : position = position' := by omega
  obtain rfl : record = record' := Option.some.inj (found.symm.trans found')
  exact ⟨digest.symm, kind.symm⟩

/-- What a feed reads behind an admitted watermark is retained. -/
structure Protected (source : Source) (logical : Bool) (after : Nat) : Prop where
  history : source.store.manifest.historyFloor ≤ after
  log : logical = true → source.store.manifest.logFloor ≤ after + 1
  visible : after ≤ source.frontier

omit [Crc32c] [Sha256] in
theorem Admissible.kept {logical : Bool}
    (admissible : Admissible source.store token after limits source.frontier (feedKinds logical)) :
    Protected source logical after.sequence := by
  obtain ⟨info, found, behind⟩ := admissible.cursor
  obtain ⟨history, log⟩ := lookup_protects found
  have kind := admissible.kind
  refine ⟨by omega, ?_, admissible.visible⟩
  rintro rfl
  have := log (by rintro same; rw [same] at kind; simp [feedKinds] at kind)
  omega

/-- The stored records behind a watermark are taken by the encoder. -/
theorem Source.Sound.encodable (sound : source.Sound initialPolicy) {logical : Bool} {start : Nat}
    (kept : Protected source logical start) :
    Encodable none (start + 1) ((source.feed logical).entries.drop start) := by
  have numbered : ∀ {position outcome}, (source.resolved.drop start)[position]? = some outcome →
      outcome.sequence = start + 1 + position := fun {position outcome} found => by
    rw [List.getElem?_drop] at found
    rw [sound.outcome_numbered found]
    omega
  have encodes : ∀ outcome ∈ source.resolved.drop start,
      ∃ bytes, encodeOutcome outcome = .ok bytes := fun outcome member => by
    obtain ⟨position, found⟩ := List.getElem?_of_mem member
    have := numbered found
    exact sound.encodes (List.mem_of_mem_drop member) (by have := kept.history; omega)
  cases logical with
  | false =>
      have encodable := @encodable_resolved _ _ _ _ none numbered encodes
      simpa only [Source.feed, FeedRecords.entries, List.map_drop] using encodable
  | true =>
      obtain ⟨digest, -, consecutive⟩ := Storage.Wal.readLog_durable sound.valid sound.content
      have floor := sound.valid.frontiers.floor
      have logged := kept.log rfl
      have visible := kept.visible
      have durable := sound.durable
      have journaled := sound.journaled
      obtain ⟨digest', later⟩ := @consecutive_drop _ _ _ _ _ _ _ consecutive
        (start - (source.store.manifest.logFloor - 1)) (by rw [List.length_drop]; omega)
      rw [List.drop_drop, show source.store.manifest.logFloor - 1 + (start -
        (source.store.manifest.logFloor - 1)) = start by omega] at later
      have encodable := @encodable_logical _ _ _ _ _ _ _ _ none later (by simp) numbered encodes
        fun record member outcome member' => sound.outcome_matches (List.mem_of_mem_drop member)
          (List.mem_of_mem_drop member')
      rw [← List.drop_zipWith] at encodable
      simpa only [Source.feed, FeedRecords.entries, List.map_drop] using encodable

/-- A resolved poll fills its batch with the stored outcomes. -/
theorem Source.Sound.collects (sound : source.Sound initialPolicy)
    (admissible : Admissible source.store token after limits source.frontier (feedKinds false)) :
    Feed.batch source.store token after limits source.frontier =
      match fill limits.maxRecords limits.maxBytes outcomeBytes (source.resolved.drop after.sequence) []
        emptyBatchBytes with
      | .ok records => .ok ⟨source.store.genesisId, after.sequence, after.sequence + records.length,
          .resolved records⟩
      | .error required => .error (.raised (.batchTooSmall required)) := by
  have kept := admissible.kept
  have member {position : Nat} {record : OutcomeRecord}
      (found : (source.resolved.drop after.sequence)[position]? = some record) :
      record ∈ source.resolved ∧ record.sequence = after.sequence + 1 + position := by
    rw [List.getElem?_drop] at found
    refine ⟨List.mem_of_getElem? found, ?_⟩
    rw [sound.outcome_numbered found]
    omega
  have history := kept.history
  have collected := @Feed.collect_eq source.store.view limits after.sequence
    (source.resolved.drop after.sequence) [] emptyBatchBytes (fun {position record} found => by
      obtain ⟨inside, isSequence⟩ := member found
      rw [List.length_nil, Nat.add_zero, ← isSequence]
      exact sound.readRecord inside (by omega))
    (fun record inside => by
      obtain ⟨position, found⟩ := List.getElem?_of_mem inside
      obtain ⟨inside', isSequence⟩ := member found
      exact sound.encodes inside' (by omega)) fun _ => rfl
  simp only [List.length_drop, sound.counted, List.length_nil, Nat.add_zero] at collected
  have admitted : admitPoll source.store token after limits source.frontier [.resolved]
      "resolved feed requires kind 1" = .ok () := admit_eq_ok.mpr admissible
  rw [Feed.batch, admitted, raise_ok, ok_bind, collected]
  cases fill limits.maxRecords limits.maxBytes outcomeBytes (source.resolved.drop after.sequence) []
    emptyBatchBytes with
  | ok records => rfl
  | error required => rfl

omit [Crc32c] [Sha256] in
/-- The segments of a valid manifest lead from the log floor behind the durable
frontier. -/
theorem exists_chain {manifest : Manifest} (valid : Storage.Metadata.Valid manifest) :
    ∃ joint final, Storage.Metadata.Chain manifest joint manifest.segments final ∧
      joint.sequence = manifest.logFloor ∧ final.sequence = manifest.durableSequence + 1 := by
  have logged := valid.logged
  unfold Storage.Metadata.Logged at logged
  split_ifs at logged with empty
  · rw [empty]
    exact ⟨⟨manifest.logFloor, 0, none⟩, _, .nil _, rfl, logged.2⟩
  · obtain ⟨id, chain⟩ := logged
    exact ⟨_, _, chain, rfl, rfl⟩

/-- The retained log holds the stored records behind a watermark. -/
theorem Source.Sound.behind_retained (sound : source.Sound initialPolicy) {start floor : Nat}
    (retained : floor ≤ start) :
    Replica.behind start source.resolved (source.journal.drop floor) =
      (List.zipWith (fun record outcome => ⟨record.bytes, outcome⟩) source.journal
        source.resolved).drop start := by
  have skipped : Replica.behind start source.resolved
      ((source.journal.drop floor).take (start - floor)) = [] :=
    Replica.behind_eq_nil fun record member => by
      obtain ⟨position, found⟩ := List.getElem?_of_mem member
      have inside := (List.getElem?_eq_some_iff.mp found).1
      rw [List.length_take] at inside
      rw [List.getElem?_take_of_lt (by omega), List.getElem?_drop] at found
      rw [sound.numbered found]
      omega
  rw [← List.take_append_drop (start - floor) (source.journal.drop floor), Replica.behind_append,
    skipped, List.nil_append, List.drop_drop, show floor + (start - floor) = start by omega,
    behind_zip le_rfl fun {position record} found => ?_, ← List.drop_zipWith]
  rw [List.getElem?_drop] at found
  exact sound.numbered found

/-- A logical poll fills its batch with the stored records. -/
theorem Source.Sound.walks (sound : source.Sound initialPolicy)
    (admissible : Admissible source.store token after limits source.frontier (feedKinds true)) :
    Replica.batch source.store token after limits source.frontier =
      match fill limits.maxRecords limits.maxBytes Replica.logicalBytes
        ((List.zipWith (fun record outcome => ⟨record.bytes, outcome⟩) source.journal
          source.resolved).drop after.sequence) [] emptyBatchBytes with
      | .ok records => .ok ⟨source.store.genesisId, after.sequence, after.sequence + records.length,
          .logical records⟩
      | .error required => .error (.raised (.batchTooSmall required)) := by
  have kept := admissible.kept
  have history := kept.history
  have logged := kept.log rfl
  have visible := kept.visible
  have floor := sound.valid.frontiers.floor
  have durable := sound.durable
  have counted := sound.counted
  obtain ⟨joint, final, chain, starts, ends⟩ := exists_chain sound.valid
  have numbered : ∀ {position record},
      (source.journal.drop (source.store.manifest.logFloor - 1))[position]? = some record →
      record.sequence = joint.sequence + position := fun {position record} found => by
    rw [List.getElem?_drop] at found
    rw [sound.numbered found, starts]
    omega
  have placed : Replica.Placed after.sequence source.frontier limits joint.sequence []
      emptyBatchBytes :=
    { reached := by rw [List.length_nil]; omega, visible := by omega, short := Nat.zero_le _,
      counted := fun _ => rfl }
  have walks := @Replica.walkSegments_walks after.sequence source.resolved _ _ _ source.store limits
    source.frontier emptyBatchBytes [] _ joint final counted visible chain (by omega) placed
    sound.content numbered (fun record member seen new => by
      have inJournal := List.mem_of_mem_drop member
      obtain ⟨outcome, found⟩ : ∃ outcome, source.resolved[record.sequence - 1]? = some outcome :=
        ⟨_, List.getElem?_eq_getElem (by omega)⟩
      have inResolved := List.mem_of_getElem? found
      have isSequence : outcome.sequence = record.sequence := by
        rw [sound.outcome_numbered found]
        omega
      obtain ⟨digest, kind⟩ := sound.outcome_matches inJournal inResolved isSequence
      refine ⟨outcome, found, ?_, digest, kind, sound.encodes inResolved (by omega)⟩
      rw [← isSequence]
      exact sound.readRecord inResolved (by omega)) sound.anchored
  rw [sound.behind_retained (by omega), List.length_nil, Nat.add_zero] at walks
  have admitted : admitPoll source.store token after limits source.frontier [.logical, .logReplica]
      "logical feed requires kind 2 or 3" = .ok () := admit_eq_ok.mpr admissible
  rw [Replica.batch, admitted, raise_ok, ok_bind, sound.named]
  generalize Replica.walkSegments source.store after.sequence limits source.frontier _ []
    emptyBatchBytes after.sequence = walk at walks ⊢
  cases walks with
  | @going taken size placed fills =>
      have reached := placed.reached
      have seen := placed.visible
      have complete : ¬ (after.sequence + taken.length < source.frontier ∧
          taken.length < limits.maxRecords ∧ false = false) := by omega
      rw [fills, ok_bind]
      exact bind_eq_ok.mpr ⟨(), raise_eq_ok.mpr (refuse_of_not _ complete), rfl⟩
  | @stopped result byteLimited filled cause =>
      have complete : ¬ (after.sequence + result.length < source.frontier ∧
          result.length < limits.maxRecords ∧ byteLimited = false) := fun bad => by
        have := cause bad.2.2
        omega
      rw [filled, ok_bind]
      exact bind_eq_ok.mpr ⟨(), raise_eq_ok.mpr (refuse_of_not _ complete), rfl⟩
  | tooSmall failed =>
      rw [failed]
      rfl

/-- A poll fills its batch with the stored records behind its watermark. -/
theorem Source.Sound.poll_eq (sound : source.Sound initialPolicy) {logical : Bool}
    (admissible : Admissible source.store token after limits source.frontier (feedKinds logical)) :
    poll logical source.store token after limits source.frontier =
      match fill limits.maxRecords limits.maxBytes entryBytes
        ((source.feed logical).entries.drop after.sequence) [] emptyBatchBytes with
      | .ok entries => .ok (source.batch logical after.sequence entries.length)
      | .error required => .error (.raised (.batchTooSmall required)) := by
  have light := admissible.bytes.1
  cases logical with
  | false =>
      have images := @fill_map _ limits.maxRecords limits.maxBytes outcomeBytes _ entryBytes
        (fun outcome : OutcomeRecord => ((none, outcome) : Entry)) (fun _ => Nat.zero_add _)
        (source.resolved.drop after.sequence) [] emptyBatchBytes
      rw [poll, if_neg (by decide), sound.collects admissible, Source.feed, FeedRecords.entries,
        ← List.map_drop]
      rw [List.map_nil] at images
      rw [images]
      cases filled : fill limits.maxRecords limits.maxBytes outcomeBytes
          (source.resolved.drop after.sequence) [] emptyBatchBytes with
      | error required => rfl
      | ok records =>
          simp only [Except.map, Source.batch, List.length_map, Source.feed,
            Exchange.FeedRecords.part, take_of_fill light filled]
  | true =>
      have images := @fill_map _ limits.maxRecords limits.maxBytes Replica.logicalBytes _ entryBytes
        (fun record : LogicalRecord => ((some record.logRecord, record.outcome) : Entry))
        (fun _ => rfl) ((List.zipWith (fun record outcome => ⟨record.bytes, outcome⟩) source.journal
          source.resolved).drop after.sequence) [] emptyBatchBytes
      rw [poll, if_pos rfl, sound.walks admissible, Source.feed, FeedRecords.entries, ← List.map_drop]
      rw [List.map_nil] at images
      rw [images]
      cases filled : fill limits.maxRecords limits.maxBytes Replica.logicalBytes
          ((List.zipWith (fun record outcome => ⟨record.bytes, outcome⟩) source.journal
            source.resolved).drop after.sequence) [] emptyBatchBytes with
      | error required => rfl
      | ok records =>
          simp only [Except.map, Source.batch, List.length_map, Source.feed,
            Exchange.FeedRecords.part, take_of_fill light filled]

/-- A feed has one record for each visible sequence. -/
theorem Source.Sound.length_feed (sound : source.Sound initialPolicy) (logical : Bool) :
    (source.feed logical).entries.length = source.frontier := by
  have counted := sound.counted
  have durable := sound.durable
  have journaled := sound.journaled
  cases logical with
  | false => rw [Source.feed, FeedRecords.entries, List.length_map, counted]
  | true =>
      rw [Source.feed, FeedRecords.entries, List.length_map, List.length_zipWith]
      omega

omit [Crc32c] [Sha256] in
/-- A feed delivers visible outcomes. -/
theorem mem_feed {logical : Bool} {entry : Entry}
    (member : entry ∈ (source.feed logical).entries) : entry.2 ∈ source.resolved := by
  cases logical with
  | false =>
      obtain ⟨outcome, inResolved, rfl⟩ := List.mem_map.mp member
      exact inResolved
  | true =>
      obtain ⟨record, inFeed, rfl⟩ := List.mem_map.mp member
      rw [← List.map_uncurry_zip_eq_zipWith] at inFeed
      obtain ⟨⟨logged, outcome⟩, paired, rfl⟩ := List.mem_map.mp inFeed
      exact (List.of_mem_zip paired).2

/-- A batch of stored records that fits encodes to the counted length. -/
theorem Source.Sound.encode_batch (sound : source.Sound initialPolicy) {logical : Bool}
    {start count : Nat} (kept : Protected source logical start)
    (inside : start + count ≤ source.frontier)
    (room : emptyBatchBytes + ((((source.feed logical).entries.drop start).take count).map
      entryBytes).sum ≤ maxBatchBytes) :
    ∃ bytes, (source.batch logical start count).encode = .ok bytes ∧
      bytes.length = emptyBatchBytes + ((((source.feed logical).entries.drop start).take count).map
        entryBytes).sum := by
  have entries : (source.batch logical start count).records.entries =
      ((source.feed logical).entries.drop start).take count := entries_part start count _
  have length : (source.batch logical start count).records.entries.length = count := by
    rw [entries, List.length_take, List.length_drop, sound.length_feed]
    omega
  have small := sound.small
  have durable := sound.durable
  rw [← entries] at room ⊢
  refine Exchange.encode_complete ?_ ?_ ?_ ?_ ?_ room
  · rw [Source.batch, ← sound.named]
    obtain ⟨⟨⟩, -, rest⟩ := bind_eq_ok.mp sound.valid.identified
    obtain ⟨⟨⟩, named, -⟩ := bind_eq_ok.mp rest
    exact (not_or.mp (refuse_eq_ok.mp named)).1
  · rw [length]
    rfl
  · exact lt_of_le_of_lt (inside.trans durable) small
  · rw [entries]
    exact (sound.encodable kept).take count
  · intro entry member
    rw [entries] at member
    have visible := mem_feed (List.mem_of_mem_drop (List.mem_of_mem_take member))
    obtain ⟨record, -, -, digest, -⟩ := sound.matched _ visible
    rw [← digest]
    exact record.digest.2

/-- What a poll that is admitted returns: stored records behind its watermark
within its limits, or the limit that the first of them needs. -/
theorem Source.Sound.poll_cases (sound : source.Sound initialPolicy) {logical : Bool}
    (admissible : Admissible source.store token after limits source.frontier (feedKinds logical)) :
    (∃ count bytes, poll logical source.store token after limits source.frontier =
          .ok (source.batch logical after.sequence count) ∧
        after.sequence + count ≤ source.frontier ∧ count ≤ limits.maxRecords ∧
        (count = 0 → after.sequence = source.frontier ∨ limits.maxRecords = 0) ∧
        (source.batch logical after.sequence count).encode = .ok bytes ∧
        bytes.length ≤ limits.maxBytes) ∨
      ∃ bytes, poll logical source.store token after limits source.frontier =
          .error (.raised (.batchTooSmall bytes.length)) ∧
        limits.maxBytes < bytes.length ∧ bytes.length ≤ maxBatchBytes ∧
        (source.batch logical after.sequence 1).encode = .ok bytes ∧
        poll logical source.store token after { limits with maxBytes := bytes.length }
            source.frontier = .ok (source.batch logical after.sequence 1) := by
  obtain ⟨least, most⟩ := admissible.bytes
  have kept := admissible.kept
  have encodable := sound.encodable kept
  have visible := kept.visible
  have total : ((source.feed logical).entries.drop after.sequence).length =
      source.frontier - after.sequence := by
    rw [List.length_drop, sound.length_feed]
  cases filled : fill limits.maxRecords limits.maxBytes entryBytes
      ((source.feed logical).entries.drop after.sequence) [] emptyBatchBytes with
  | ok entries =>
      obtain ⟨count, within, taken, light, short⟩ := fill_eq_ok least filled
      rw [List.nil_append] at taken
      have length : entries.length = count := by
        rw [taken, List.length_take]
        omega
      have inside : after.sequence + count ≤ source.frontier := by omega
      obtain ⟨bytes, encoded, size⟩ := sound.encode_batch kept inside (light.trans most)
      refine .inl ⟨count, bytes, ?_, inside, length ▸ short (Nat.zero_le _), fun empty => ?_, encoded,
        size ▸ light⟩
      · rw [sound.poll_eq admissible, filled]
        simp only [length]
      · obtain rfl : entries = [] := List.length_eq_zero_iff.mp (by omega)
        rcases items_of_fill_eq_nil filled least with none' | zero
        · rw [none', List.length_nil] at total
          exact .inl (by omega)
        · exact .inr zero
  | error required =>
      obtain ⟨-, some', entry, rest, items, heavy, rfl⟩ := fill_eq_error.mp filled
      rw [items, List.length_cons] at total
      have member : entry ∈ (source.feed logical).entries.drop after.sequence := by
        rw [items]
        exact List.mem_cons_self
      have alone : ((((source.feed logical).entries.drop after.sequence).take 1).map
          entryBytes).sum = entryBytes entry := by
        rw [items]
        simp
      obtain ⟨-, fits⟩ := Exchange.entryBytes_le encodable member
      obtain ⟨bytes, encoded, size⟩ := @Source.Sound.encode_batch _ _ _ _ sound logical
        after.sequence 1 kept (by omega) (by rw [alone]; exact fits)
      rw [alone] at size
      have admissible' : Admissible source.store token after { limits with maxBytes := bytes.length }
          source.frontier (feedKinds logical) :=
        { admissible with bytes := ⟨by simp only; omega, by simp only; omega⟩ }
      refine .inr ⟨bytes, ?_, by omega, by omega, encoded, ?_⟩
      · rw [sound.poll_eq admissible, filled, size]
      · have retried := @fill_required _ limits.maxRecords entryBytes entry rest emptyBatchBytes some'
          fun other inRest =>
            (Exchange.entryBytes_le encodable (items ▸ List.mem_cons_of_mem _ inRest)).1
        rw [sound.poll_eq admissible', items, size, retried]
        rfl

/-! ## Runs of polls -/

/-- A consumer starts at the baseline of a cursor and polls behind its last batch
while the engine runs; it is at a position and has received some records. -/
inductive Polls (initialPolicy : LimitPolicy) (logical : Bool) (token : CursorToken)
    (baseline : Nat) : Source → Nat → List Entry → Prop
  | start {source : Source} {info : CursorInfo} (running : Running initialPolicy source)
      (found : lookup source.store token = .ok (some info)) (named : info.baseline = baseline) :
      Polls initialPolicy logical token baseline source baseline []
  | step {source next : Source} {position : Nat} {received : List Entry} :
      Polls initialPolicy logical token baseline source position received → Step source next →
      Polls initialPolicy logical token baseline next position received
  | poll {source : Source} {position : Nat} {received : List Entry} {database : Fixed 16}
      {limits : BatchLimits} {batch : FeedBatch} :
      Polls initialPolicy logical token baseline source position received →
      poll logical source.store token ⟨database, position⟩ limits source.frontier = .ok batch →
      Polls initialPolicy logical token baseline source batch.endInclusive
        (received ++ batch.records.entries)

theorem Polls.running {logical : Bool} {baseline position : Nat} {received : List Entry}
    (polls : Polls initialPolicy logical token baseline source position received) :
    Running initialPolicy source := by
  induction polls with
  | start running => exact running
  | step _ step ih => exact .step ih step
  | poll _ _ ih => exact ih

omit [Crc32c] [Sha256] in
/-- Pairs of longer lists continue the pairs. -/
theorem zipWith_grows {α β γ : Type} (pair : α → β → γ) {left more : List α} {right new : List β}
    (longer : right.length ≤ left.length) :
    List.zipWith pair left right <+: List.zipWith pair (left ++ more) (right ++ new) := by
  have same : (left.take right.length).length = right.length := by
    rw [List.length_take, min_eq_left longer]
  have whole : List.zipWith pair left right = List.zipWith pair (left.take right.length) right := by
    conv_lhs => rw [← List.take_append_drop right.length left, ← List.append_nil right]
    rw [List.zipWith_append (by simpa using same), List.zipWith_nil_right, List.append_nil]
    simp
  refine ⟨List.zipWith pair (left.drop right.length ++ more) new, ?_⟩
  rw [whole, ← List.zipWith_append same, ← List.append_assoc, List.take_append_drop]

/-- Steps only add records behind those of a feed. -/
theorem Step.feed_grows {next : Source} (sound : source.Sound initialPolicy)
    (step : Step source next) (logical : Bool) :
    (source.feed logical).entries <+: (next.feed logical).entries := by
  have longer : source.resolved.length ≤ source.journal.length := by
    rw [sound.counted, sound.journaled]
    exact sound.durable
  obtain ⟨more, new, journal, resolved⟩ : ∃ more new, next.journal = source.journal ++ more ∧
      next.resolved = source.resolved ++ new := by
    cases step with
    | append => exact ⟨_, [], rfl, (List.append_nil _).symm⟩
    | advance => exact ⟨[], _, (List.append_nil _).symm, rfl⟩
    | install | publish | maintain =>
        exact ⟨[], [], (List.append_nil _).symm, (List.append_nil _).symm⟩
  cases logical with
  | false =>
      rw [Source.feed, Source.feed, resolved]
      exact (List.prefix_append _ _).map _
  | true =>
      rw [Source.feed, Source.feed, journal, resolved]
      exact (zipWith_grows _ longer).map _

omit [Crc32c] [Sha256] in
/-- An inner part of a list is the same part of a longer one. -/
theorem part_of_grows {α : Type} {list longer : List α} (grows : list <+: longer) {start count : Nat}
    (inside : ((list.drop start).take count).length = count) :
    (longer.drop start).take count = (list.drop start).take count := by
  obtain ⟨more, rfl⟩ := grows
  rw [List.length_take, List.length_drop] at inside
  cases count with
  | zero => rw [List.take_zero, List.take_zero]
  | succ count =>
      rw [List.drop_append_of_le_length (by omega), List.take_append_of_le_length]
      rw [List.length_drop]
      omega

/-- What a consumer has received is the part of the feed from the baseline to its
position. -/
theorem Polls.received_eq {logical : Bool} {baseline position : Nat} {received : List Entry}
    (polls : Polls initialPolicy logical token baseline source position received) :
    baseline ≤ position ∧ received.length = position - baseline ∧
      received = ((source.feed logical).entries.drop baseline).take (position - baseline) := by
  induction polls with
  | start => exact ⟨le_rfl, by simp, by simp⟩
  | @step source next position received polls step ih =>
      obtain ⟨behind, length, isPart⟩ := ih
      refine ⟨behind, length, isPart.trans (part_of_grows ?_ ?_).symm⟩
      · exact step.feed_grows polls.running.sound logical
      · rw [← isPart, length]
  | @poll source position received database limits batch polls polled ih =>
      obtain ⟨behind, length, isPart⟩ := ih
      have sound := polls.running.sound
      have admissible := admissible_of_poll polled
      rcases sound.poll_cases admissible with ⟨count, -, returned, inside, -⟩ | ⟨_, failed, -⟩
      · obtain rfl := Except.ok.inj (polled.symm.trans returned)
        have entries : (source.batch logical position count).records.entries =
            ((source.feed logical).entries.drop position).take count := entries_part _ _ _
        have ends : (source.batch logical position count).endInclusive = position + count := rfl
        rw [ends, entries, List.length_append, List.length_take, List.length_drop, sound.length_feed]
        refine ⟨by omega, by simp only at inside; omega, ?_⟩
        rw [show position + count - baseline = position - baseline + count by omega, List.take_add,
          ← isPart, List.drop_drop, show baseline + (position - baseline) = position by omega]
      · rw [failed] at polled
        cases polled

/-- Feeds deliver every record exactly once and in order.  The records of a feed
are the stored outcomes by sequence, the logical ones with their log records.
Whatever was received by polling from a baseline on is the part of the feed up to
the position.  A poll returns stored records behind its watermark within its
limits, none only at the frontier or without a record limit; or it names the
length of the batch of one record, and polling again with that limit returns that
batch. -/
theorem feeds_deliver_once (initialPolicy : LimitPolicy) (logical : Bool) :
    (∀ source sequence, Running initialPolicy source →
      source.store.manifest.historyFloor < sequence → sequence ≤ source.frontier →
      ∃ outcome, Vm.Outcome.readOutcome source.store.view sequence = .ok (some outcome) ∧
        (source.feed false).entries[sequence - 1]? = some (none, outcome) ∧
        (source.store.manifest.logFloor ≤ sequence → ∃ records record,
          readLog source.store.files source.store.genesisId source.store.manifest.segments =
            .ok records ∧ record ∈ records ∧ record.sequence = sequence ∧
          (source.feed true).entries[sequence - 1]? = some (some record.bytes, outcome))) ∧
    (∀ token baseline source position received,
      Polls initialPolicy logical token baseline source position received →
      baseline ≤ position ∧ received.length = position - baseline ∧
        received = ((source.feed logical).entries.drop baseline).take (position - baseline)) ∧
    (∀ source token after limits batch, Running initialPolicy source →
      poll logical source.store token after limits source.frontier = .ok batch →
      ∃ count bytes, batch = source.batch logical after.sequence count ∧
        after.sequence + count ≤ source.frontier ∧ count ≤ limits.maxRecords ∧
        (batch.records.entries = [] → after.sequence = source.frontier ∨ limits.maxRecords = 0) ∧
        batch.encode = .ok bytes ∧ bytes.length ≤ limits.maxBytes) ∧
    (∀ source token after limits, Running initialPolicy source →
      Admissible source.store token after limits source.frontier (feedKinds logical) →
      (∃ batch, poll logical source.store token after limits source.frontier = .ok batch) ∨
      ∃ bytes, poll logical source.store token after limits source.frontier =
          .error (.raised (.batchTooSmall bytes.length)) ∧
        limits.maxBytes < bytes.length ∧ bytes.length ≤ maxBatchBytes ∧
        (source.batch logical after.sequence 1).encode = .ok bytes ∧
        poll logical source.store token after { limits with maxBytes := bytes.length }
          source.frontier = .ok (source.batch logical after.sequence 1)) := by
  refine ⟨fun source sequence running above seen => ?_, fun token baseline source position received
    polls => polls.received_eq, fun source token after limits batch running polled => ?_,
    fun source token after limits running admissible => ?_⟩
  · have sound := running.sound
    have counted := sound.counted
    have journaled := sound.journaled
    have durable := sound.durable
    obtain ⟨outcome, found⟩ : ∃ outcome, source.resolved[sequence - 1]? = some outcome :=
      ⟨_, List.getElem?_eq_getElem (by omega)⟩
    have isSequence := sound.outcome_numbered found
    have member := List.mem_of_getElem? found
    refine ⟨outcome, ?_, ?_, fun retained => ?_⟩
    · have read := sound.readOutcome member (by omega)
      rwa [isSequence, show sequence - 1 + 1 = sequence by omega] at read
    · rw [Source.feed, FeedRecords.entries, List.getElem?_map, found]
      rfl
    · obtain ⟨record, logged⟩ : ∃ record, source.journal[sequence - 1]? = some record :=
        ⟨_, List.getElem?_eq_getElem (by omega)⟩
      refine ⟨_, record, sound.named ▸ sound.content, ?_, ?_, ?_⟩
      · refine List.mem_of_getElem? (i := sequence - source.store.manifest.logFloor) ?_
        have floor := sound.valid.frontiers.floor
        rw [List.getElem?_drop, show source.store.manifest.logFloor - 1 +
          (sequence - source.store.manifest.logFloor) = sequence - 1 by omega, logged]
      · rw [sound.numbered logged]
        omega
      · rw [Source.feed, FeedRecords.entries, List.getElem?_map, List.getElem?_zipWith, logged, found]
        rfl
  · have sound := running.sound
    rcases sound.poll_cases (admissible_of_poll polled) with
      ⟨count, bytes, returned, inside, few, none', encoded, short⟩ | ⟨_, failed, -⟩
    · obtain rfl := Except.ok.inj (polled.symm.trans returned)
      refine ⟨count, bytes, rfl, inside, few, fun empty => none' ?_, encoded, short⟩
      have length := congrArg List.length empty
      rw [Source.batch, entries_part, List.length_take, List.length_drop, sound.length_feed,
        List.length_nil] at length
      omega
    · rw [failed] at polled
      cases polled
  · rcases running.sound.poll_cases admissible with
      ⟨count, -, returned, -⟩ | ⟨bytes, failed, rest⟩
    · exact .inl ⟨_, returned⟩
    · exact .inr ⟨bytes, failed, rest⟩

end Polls

namespace Sample

open Storage.Wal.Sample (created)

scoped instance : Crc32c := castagnoli

/-- One digest for every string. -/
scoped instance : Sha256 := ⟨fun _ => List.replicate 32 9, fun _ => rfl⟩

/-- The limits of a new database. -/
def policy : LimitPolicy := Vm.Sample.claims

/-- A cursor of kind two at the start. -/
def registration : Bytes := leBytes 2 1 ++ [2, 0] ++ leBytes 8 0 ++ leBytes 4 0

/-- The token of that cursor. -/
def cursor : CursorToken := ⟨created.databaseId, created.cursorNamespace, 1, .logical⟩

/-- The manifest after the cursor was registered. -/
def withCursor : Manifest := { created with nextCursorId := 2 }

/-- The trees after the cursor was registered. -/
def cursorView : Storage.View :=
  ⟨fun
    | .cursors => (∅ : Storage.Tree).insert (beBytes 8 1) registration
    | tree => (Vm.genesisView policy).roots tree⟩

/-- A record that publishes the same limits again. -/
def record : Bytes := frame 1 created.durableDigest 3 policy.encode

/-- The log behind that record. -/
def log : Storage.Wal.Log := (Storage.Wal.appendWal ⟨∅, withCursor, false, false⟩ [(1, record)]).1

theorem record_appended : Storage.Wal.appendWal ⟨∅, withCursor, false, false⟩ [(1, record)] =
    (log, .ok (sha256 record)) := by
  have second : (Storage.Wal.appendWal ⟨∅, withCursor, false, false⟩ [(1, record)]).2 =
      .ok (sha256 record) := by
    decide +kernel
  rw [log, ← second]

theorem record_encodes : (Vm.Outcome.encodeOutcome 1 (List.replicate 32 9) 3
    (Vm.Database.limits policy)).toOption.isSome = true := by
  decide +kernel

/-- A store with one visible record behind a cursor. -/
def source (log : Storage.Wal.Log) (live serial : Storage.View) (bytes : Bytes) : Source where
  store := ⟨created.databaseId, log.manifest, log.files, live⟩
  frontier := 1
  journal := [⟨1, sha256 record, record⟩]
  serial := serial
  resolved := [⟨1, List.replicate 32 9, 3, Vm.Outcome.canonical (Vm.Database.limits policy)⟩]
  ahead := Function.update (Function.update (fun _ => none) 1
    (some ⟨List.replicate 32 9, 3, Vm.Database.limits policy, bytes⟩)) 1 none

/-- The cursor is registered, and the record is appended, installed and made
visible. -/
theorem source_running {log : Storage.Wal.Log} {live serial : Storage.View} {bytes : Bytes}
    (appended : Storage.Wal.appendWal ⟨∅, withCursor, false, false⟩ [(1, record)] =
      (log, .ok (sha256 record)))
    (checkpoint : log.manifest.checkpointSequence = 0)
    (encoded : Vm.Outcome.encodeOutcome 1 (List.replicate 32 9) 3 (Vm.Database.limits policy) =
      .ok bytes)
    (isLive : Vm.Database.install false 0 cursorView 1 (List.replicate 32 9) 3
      (Vm.Database.limits policy) = .ok live)
    (isSerial : Vm.Database.install false 0 (Vm.genesisView policy) 1 (List.replicate 32 9) 3
      (Vm.Database.limits policy) = .ok serial) :
    Running policy (source log live serial bytes) := by
  rw [← checkpoint] at isLive isSerial
  have start : Running policy (.genesis policy created) := .genesis (by decide) rfl rfl
  have registered := start.step (@Step.publish _ _ (.genesis policy created)
    withCursor cursorView (by decide +kernel) rfl rfl rfl rfl fun tree logical => by
      cases tree <;> first | rfl | exact absurd rfl logical)
  have durable := registered.step (@Step.append _ _ _ false [(1, record)] log (sha256 record) appended)
  have stored := durable.step (Step.install Nat.zero_lt_one
    ⟨_, List.mem_singleton.mpr rfl, rfl, rfl, by decide +kernel⟩ encoded isLive)
  exact stored.step (@Step.advance _ _ _
    ⟨List.replicate 32 9, 3, Vm.Database.limits policy, bytes⟩ (.limits policy) serial
    rfl rfl rfl isSerial)

/-- The cursor is still registered when the record is installed. -/
theorem cursor_found : (match Vm.Database.install false 0 cursorView 1 (List.replicate 32 9) 3
      (Vm.Database.limits policy) with
    | .ok live =>
        (match lookup ⟨created.databaseId, log.manifest, log.files, live⟩ cursor with
        | .ok (some info) => decide (info.baseline = 0)
        | _ => false)
    | .error _ => false) = true := by
  decide +kernel

theorem exists_ok {ε α : Type} {result : Except ε α} (works : result.toOption.isSome = true) :
    ∃ value, result = .ok value := by
  cases result with
  | error error => cases works
  | ok value => exact ⟨value, rfl⟩

/-- The record is delivered to a logical consumer from the start. -/
theorem one_record_delivered :
    ∃ source batch bytes, Running policy source ∧ source.frontier = 1 ∧
      poll true source.store cursor ⟨created.databaseId, 0⟩ ⟨10, maxBatchBytes⟩ source.frontier =
        .ok batch ∧
      Polls policy true cursor 0 source 1 batch.records.entries ∧
      batch = source.batch true 0 1 ∧ batch.encode = .ok bytes ∧ bytes.length ≤ maxBatchBytes := by
  obtain ⟨bytes, encoded⟩ := exists_ok record_encodes
  obtain ⟨serial, isSerial⟩ := exists_ok (show (Vm.Database.install false 0 (Vm.genesisView policy) 1
    (List.replicate 32 9) 3 (Vm.Database.limits policy)).toOption.isSome = true by decide +kernel)
  have found := cursor_found
  split at found
  · rename_i live isLive
    split at found
    · rename_i info isInfo
      have isBaseline := of_decide_eq_true found
      have running := source_running record_appended (by decide +kernel) encoded isLive isSerial
      have admissible : Admissible (source log live serial bytes).store cursor ⟨created.databaseId, 0⟩
          ⟨10, maxBatchBytes⟩ 1 (feedKinds true) :=
        { cursor := ⟨info, isInfo, isBaseline.le⟩, kind := by decide, database := rfl,
          visible := Nat.zero_le _, bytes := ⟨by decide, le_rfl⟩ }
      obtain ⟨-, -, returned, answered⟩ := feeds_deliver_once policy true
      rcases answered _ _ _ _ running admissible with ⟨batch, polled⟩ | ⟨_, -, more, less, -⟩
      · obtain ⟨count, bytes', isBatch, inside, -, none', encodes, short⟩ :=
          returned _ _ _ _ _ running polled
        have bounded : 0 + count ≤ 1 := inside
        have some' : count ≠ 0 := by
          rintro rfl
          rw [isBatch, Source.batch, entries_part, List.take_zero] at none'
          rcases none' rfl with wrong | wrong <;> cases wrong
        obtain rfl : count = 1 := by omega
        have received := Polls.poll (.start running isInfo isBaseline) polled
        refine ⟨_, batch, bytes', running, rfl, polled, ?_, isBatch, encodes, short⟩
        rw [isBatch] at received ⊢
        exact received
      · exact absurd more (not_lt.mpr less)
    · cases found
  · cases found

end Sample

end BlopDb.Engine
