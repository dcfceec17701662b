/-
# Feeds fill batches

Either traversal takes the records behind a watermark in order, as the general
filling of a batch does.  The resolved feed reads them by sequence.  The logical
feed meets them behind records that its reader already has, and leaves the log
where the frontier or a limit is reached.
-/

import BlopDb.Engine.BatchSize
import BlopDb.Engine.Visible
import BlopDb.Lib.Greedy

namespace BlopDb.Engine

open BlopDb.Lib
open Exchange (Error LogicalRecord emptyBatchBytes encodeOutcome entryBytes outcomeBytes
  outcomeBytes_eq)
open Storage (LimitPolicy Manifest SegmentDescriptor View)
open Storage.Wal (Files Reader Record nextRecord readLog readRecords readRecords_succ)
open Vm (OutcomeRecord)

/-! ## Resolved feeds -/

namespace Feed

/-- Reading records one by one fills a batch with them. -/
theorem collect_eq {view : View} {limits : BatchLimits} {start : Nat}
    {items taken : List OutcomeRecord} {total : Nat}
    (read : ∀ {position record}, items[position]? = some record →
      readRecord view (start + taken.length + 1 + position) = .ok record)
    (encodes : ∀ record ∈ items, ∃ bytes, encodeOutcome record = .ok bytes)
    (counted : taken = [] → total = emptyBatchBytes) :
    collect view limits items.length (start + taken.length + 1) taken total (start + taken.length) =
      match fill limits.maxRecords limits.maxBytes outcomeBytes items taken total with
      | .ok records => .ok (records, start + records.length)
      | .error required => .error (.raised (.batchTooSmall required)) := by
  induction items generalizing taken total with
  | nil => rfl
  | cons record items ih =>
      have first : readRecord view (start + taken.length + 1) = .ok record :=
        @read 0 record rfl
      obtain ⟨bytes, encoded⟩ := encodes record List.mem_cons_self
      have weight := outcomeBytes_eq encoded
      rw [List.length_cons, collect]
      by_cases full : limits.maxRecords ≤ taken.length
      · rw [if_pos full, fill_full _ _ full]
      · rw [if_neg full, first]
        simp only [Except.mapError, ok_bind, encoded, ← weight]
        by_cases heavy : outcomeBytes record > limits.maxBytes - total
        · rw [if_pos heavy, fill_heavy items (not_le.mp full) heavy]
          by_cases empty : taken = []
          · rw [if_pos empty, if_pos (List.isEmpty_iff.mpr empty), counted empty]
            rfl
          · rw [if_neg empty, if_neg (fun isEmpty => empty (List.isEmpty_iff.mp isEmpty))]
            rfl
        · rw [if_neg heavy, fill_fits items (not_le.mp full) heavy]
          have length : (taken ++ [record]).length = taken.length + 1 := by simp
          have step := @ih (taken ++ [record]) (total + outcomeBytes record)
            (fun {position found} at' => by
              rw [length, show start + (taken.length + 1) + 1 + position =
                start + taken.length + 1 + (position + 1) by omega]
              exact read at')
            (fun other member => encodes other (List.mem_cons_of_mem _ member)) (by simp)
          rw [length] at step
          exact step

end Feed

/-! ## Logical feeds -/

namespace Replica

/-- The bytes of a logical record in a batch. -/
def logicalBytes (record : LogicalRecord) : Nat :=
  entryBytes (some record.logRecord, record.outcome)

/-- The records of the log behind a watermark, with their outcomes. -/
def behind (after : Nat) (resolved : List OutcomeRecord) (records : List Record) :
    List LogicalRecord :=
  records.filterMap fun record =>
    if after < record.sequence then resolved[record.sequence - 1]?.map (⟨record.bytes, ·⟩) else none

variable {after : Nat} {resolved : List OutcomeRecord} {records : List Record}

theorem behind_append (more : List Record) :
    behind after resolved (records ++ more) =
      behind after resolved records ++ behind after resolved more := List.filterMap_append

theorem behind_cons_old {record : Record} (old : record.sequence ≤ after) :
    behind after resolved (record :: records) = behind after resolved records :=
  List.filterMap_cons_none (if_neg (not_lt.mpr old))

theorem behind_cons_new {record : Record} {outcome : OutcomeRecord} (new : after < record.sequence)
    (found : resolved[record.sequence - 1]? = some outcome) :
    behind after resolved (record :: records) =
      ⟨record.bytes, outcome⟩ :: behind after resolved records :=
  List.filterMap_cons_some (by rw [if_pos new, found]; rfl)

/-- Records outside of the interval are not behind the watermark. -/
theorem behind_eq_nil (outside : ∀ record ∈ records,
    record.sequence ≤ after ∨ resolved.length < record.sequence) :
    behind after resolved records = [] := by
  refine List.filterMap_eq_nil_iff.mpr fun record member => ?_
  rcases outside record member with old | ahead
  · rw [if_neg (not_lt.mpr old)]
  · rw [List.getElem?_eq_none (by omega)]
    simp

section Checksums

variable [Crc32c] [Sha256] {store : Store} {limits : BatchLimits}

/-- The outcome of a visible record is there and belongs to it. -/
def Matched (store : Store) (resolved : List OutcomeRecord) (record : Record) (after : Nat) : Prop :=
  after < record.sequence → ∃ outcome, resolved[record.sequence - 1]? = some outcome ∧
    readRecord store.view record.sequence = .ok outcome ∧ outcome.recordDigest = record.digest.1 ∧
    outcome.recordKind = uintAt 1 record.bytes 24 ∧ ∃ bytes, encodeOutcome outcome = .ok bytes

/-- Where a walk stands before a sequence. -/
structure Placed (after frontier : Nat) (limits : BatchLimits) (sequence : Nat)
    (taken : List LogicalRecord) (size : Nat) : Prop where
  reached : after + taken.length = max after (sequence - 1)
  visible : sequence ≤ frontier + 1
  short : taken.length ≤ limits.maxRecords
  counted : taken = [] → size = emptyBatchBytes

/-- How a walk to a sequence relates to filling a batch, of which it leaves the
rest. -/
inductive Walks (after frontier : Nat) (limits : BatchLimits) (items rest taken : List LogicalRecord)
    (size sequence : Nat) : Except (Fault Error) Walk → Prop
  | going {taken' : List LogicalRecord} {size' : Nat}
      (placed : Placed after frontier limits sequence taken' size')
      (fills : fill limits.maxRecords limits.maxBytes logicalBytes items taken size =
        fill limits.maxRecords limits.maxBytes logicalBytes rest taken' size') :
      Walks after frontier limits items rest taken size sequence
        (.ok (.going taken' size' (after + taken'.length)))
  | stopped {result : List LogicalRecord} {byteLimited : Bool}
      (filled : fill limits.maxRecords limits.maxBytes logicalBytes items taken size = .ok result)
      (cause : byteLimited = false →
        limits.maxRecords ≤ result.length ∨ after + result.length = frontier) :
      Walks after frontier limits items rest taken size sequence
        (.ok (.stopped result (after + result.length) byteLimited))
  | tooSmall {required : Nat}
      (failed : fill limits.maxRecords limits.maxBytes logicalBytes items taken size =
        .error required) :
      Walks after frontier limits items rest taken size sequence
        (.error (.raised (.batchTooSmall required)))

omit [Crc32c] [Sha256] in
/-- A walk over a first part continues with a walk over the rest. -/
theorem Walks.trans {frontier : Nat} {items rest final taken taken' : List LogicalRecord}
    {size size' sequence : Nat} {walk : Except (Fault Error) Walk}
    (fills : fill limits.maxRecords limits.maxBytes logicalBytes items taken size =
      fill limits.maxRecords limits.maxBytes logicalBytes rest taken' size')
    (walks : Walks after frontier limits rest final taken' size' sequence walk) :
    Walks after frontier limits items final taken size sequence walk := by
  cases walks with
  | going placed fills' => exact .going placed (fills.trans fills')
  | stopped filled cause => exact .stopped (fills.trans filled) cause
  | tooSmall failed => exact .tooSmall (fills.trans failed)

/-- Reading a segment fills a batch with its records behind the watermark. -/
theorem walkRecords_walks {frontier count sequence size : Nat} {reader reader' : Reader}
    {taken more : List LogicalRecord} (resolves : resolved.length = frontier) (visible : after ≤ frontier)
    (positive : 1 ≤ sequence) (placed : Placed after frontier limits sequence taken size)
    (read : readRecords count reader = .ok (records, reader'))
    (numbered : ∀ {position record}, records[position]? = some record →
      record.sequence = sequence + position)
    (matched : ∀ record ∈ records, record.sequence ≤ frontier → Matched store resolved record after)
    (anchored : Storage.Wal.Anchored store.manifest records)
    (last : frontier + 1 < sequence + count → more = []) :
    Walks after frontier limits (behind after resolved records ++ more) more taken size
      (sequence + count)
      (walkRecords store after limits frontier count sequence reader taken size
        (after + taken.length)) := by
  induction count generalizing sequence reader records taken size with
  | zero =>
      cases read
      exact .going placed rfl
  | succ count ih =>
      obtain ⟨record, reader'', rest, next, readRest, rfl⟩ := readRecords_succ.mp read
      have isSequence : record.sequence = sequence := @numbered 0 record rfl
      obtain ⟨anchor, anchored'⟩ := Storage.Wal.anchored_cons.mp anchored
      have numbered' : ∀ {position other}, rest[position]? = some other →
          other.sequence = sequence + 1 + position := fun {position other} found => by
        rw [@numbered (position + 1) other found]
        omega
      have matched' : ∀ other ∈ rest, other.sequence ≤ frontier → Matched store resolved other after :=
        fun other member => matched other (List.mem_cons_of_mem _ member)
      have reached := placed.reached
      rw [walkRecords]
      by_cases stops : sequence > frontier ∨ taken.length = limits.maxRecords
      · rw [if_pos stops]
        refine .stopped ?_ fun _ => ?_
        · rcases stops with passed | full
          · rw [behind_eq_nil fun other member => ?_, last (by omega)]
            · rfl
            · obtain ⟨position, found⟩ := List.getElem?_of_mem member
              rw [numbered found]
              omega
          · exact fill_full _ _ full.ge
        · have := placed.visible
          omega
      · rw [if_neg stops]
        obtain ⟨seen, room⟩ := not_or.mp stops
        have room : taken.length < limits.maxRecords := lt_of_le_of_ne placed.short room
        have anchorOk : ¬ (sequence = store.manifest.checkpointSequence ∧
            record.digest ≠ store.manifest.checkpointDigest) := by
          rintro ⟨same, differs⟩
          exact differs (anchor (isSequence.trans same))
        simp only [next, raise_ok, ok_bind, refuse_of_not _ anchorOk]
        by_cases old : sequence ≤ after
        · have placed' : Placed after frontier limits (sequence + 1) taken size :=
            { reached := by omega, visible := by omega, short := placed.short,
              counted := placed.counted }
          rw [if_pos old, behind_cons_old (by omega), show sequence + (count + 1) = sequence + 1 + count by omega]
          exact ih (by omega) placed' readRest numbered' matched' anchored' fun past => last (by omega)
        · obtain ⟨outcome, found, readOutcome, digest, kind, bytes, encoded⟩ :=
            matched record List.mem_cons_self (by omega) (by omega)
          have weight : record.bytes.length + bytes.length + 8 =
              logicalBytes ⟨record.bytes, outcome⟩ := by
            simp only [logicalBytes, entryBytes, Exchange.logBytes, outcomeBytes_eq encoded]
            omega
          have agrees : ¬ (outcome.recordDigest ≠ record.digest.1 ∨
              outcome.recordKind ≠ uintAt 1 record.bytes 24) := by
            simp [digest, kind]
          rw [isSequence] at readOutcome
          rw [if_neg old, readOutcome, behind_cons_new (by omega) found, List.cons_append]
          simp only [Except.mapError, ok_bind, refuse_of_not _ agrees, raise_ok, encoded, weight]
          by_cases heavy : logicalBytes ⟨record.bytes, outcome⟩ > limits.maxBytes - size
          · rw [if_pos heavy]
            have filled := fill_heavy (behind after resolved rest ++ more) room heavy
            by_cases empty : taken = []
            · rw [if_pos (List.isEmpty_iff.mpr empty), placed.counted empty] at filled
              rw [if_pos empty, placed.counted empty]
              exact .tooSmall filled
            · rw [if_neg (fun isEmpty => empty (List.isEmpty_iff.mp isEmpty))] at filled
              rw [if_neg empty]
              exact .stopped filled (by simp)
          · rw [if_neg heavy]
            have placed' : Placed after frontier limits (sequence + 1)
                (taken ++ [⟨record.bytes, outcome⟩])
                (size + logicalBytes ⟨record.bytes, outcome⟩) :=
              { reached := by rw [List.length_append, List.length_singleton]; omega,
                visible := by omega
                short := by rw [List.length_append, List.length_singleton]; omega
                counted := by simp }
            have ends : after + (taken ++ [(⟨record.bytes, outcome⟩ : LogicalRecord)]).length =
                sequence := by
              rw [List.length_append, List.length_singleton]
              omega
            have walks := ih (by omega) placed' readRest numbered' matched' anchored' fun past =>
              last (by omega)
            rw [ends, show sequence + 1 + count = sequence + (count + 1) by omega] at walks
            exact walks.trans (fill_fits _ room heavy)

/-- Walking the segments fills a batch with the records behind the watermark. -/
theorem walkSegments_walks {frontier size : Nat} {taken : List LogicalRecord}
    {segments : List SegmentDescriptor} {joint final : Storage.Metadata.Joint}
    (resolves : resolved.length = frontier) (visible : after ≤ frontier)
    (chain : Storage.Metadata.Chain store.manifest joint segments final)
    (positive : 1 ≤ joint.sequence) (placed : Placed after frontier limits joint.sequence taken size)
    (read : readLog store.files store.manifest.databaseId segments = .ok records)
    (numbered : ∀ {position record}, records[position]? = some record →
      record.sequence = joint.sequence + position)
    (matched : ∀ record ∈ records, record.sequence ≤ frontier → Matched store resolved record after)
    (anchored : Storage.Wal.Anchored store.manifest records) :
    Walks after frontier limits (behind after resolved records) [] taken size final.sequence
      (walkSegments store after limits frontier
        (segments.filter fun segment => decide (segment.lastSequence > after)) taken size
        (after + taken.length)) := by
  induction chain generalizing records taken size with
  | nil joint =>
      cases read
      exact .going placed rfl
  | @cons joint final segment rest continues chain ih =>
      obtain ⟨file, own, others, found, readOwn, readRest, rfl⟩ := Storage.Wal.readLog_cons.mp read
      obtain ⟨reader, reader', opened, reads⟩ := Storage.Wal.readSuffix_eq_ok.mp readOwn
      obtain ⟨-, counted, -⟩ := Storage.Wal.readSuffix_end opened reads
      obtain ⟨anchoredOwn, anchoredRest⟩ := Storage.Wal.anchored_append.mp anchored
      have first := continues.first
      have ordered := continues.descriptor.ordered
      have reached := placed.reached
      have numberedOwn : ∀ {position record}, own[position]? = some record →
          record.sequence = segment.firstSequence + position := fun {position record} at' => by
        have inside := (List.getElem?_eq_some_iff.mp at').1
        rw [first, numbered ((List.getElem?_append_left inside).trans at')]
      have numberedRest : ∀ {position record}, others[position]? = some record →
          record.sequence = segment.lastSequence + 1 + position := fun {position record} at' => by
        have behind' : (own ++ others)[own.length + position]? = some record := by
          rw [List.getElem?_append_right (by omega), Nat.add_sub_cancel_left, at']
        rw [numbered behind', counted]
        omega
      have matchedRest : ∀ record ∈ others, record.sequence ≤ frontier →
          Matched store resolved record after :=
        fun record member => matched record (List.mem_append_right _ member)
      by_cases old : segment.lastSequence ≤ after
      · -- The segment is filtered, and none of its records is behind the watermark.
        have skipped : behind after resolved own = [] := behind_eq_nil fun record member => by
          obtain ⟨position, at'⟩ := List.getElem?_of_mem member
          have inside := (List.getElem?_eq_some_iff.mp at').1
          rw [numberedOwn at']
          omega
        have placed' : Placed after frontier limits (segment.lastSequence + 1) taken size :=
          { reached := by omega, visible := by omega, short := placed.short, counted := placed.counted }
        rw [List.filter_cons_of_neg (by simpa using old), behind_append, skipped, List.nil_append]
        exact ih (Nat.le_add_left 1 _) placed' readRest numberedRest matchedRest anchoredRest
      · rw [List.filter_cons_of_pos (by simpa using old), walkSegments]
        by_cases stops : after + taken.length = frontier ∨ taken.length = limits.maxRecords
        · rw [if_pos stops]
          refine .stopped ?_ fun _ => stops.symm.imp_left Eq.ge
          rcases stops with ended | full
          · rw [behind_eq_nil fun record member => ?_]
            · rfl
            · obtain ⟨position, at'⟩ := List.getElem?_of_mem member
              rw [numbered at']
              omega
          · exact fill_full _ _ full.ge
        · have joined : ¬ segment.firstSequence > after + taken.length + 1 := by omega
          have walks := @walkRecords_walks after resolved own _ _ store limits frontier
            (segment.lastSequence + 1 - segment.firstSequence) segment.firstSequence size reader reader'
            taken (behind after resolved others) resolves visible (by omega) (first ▸ placed) reads
            numberedOwn (fun record member => matched record (List.mem_append_left _ member))
            anchoredOwn (fun past => behind_eq_nil fun record member => by
              obtain ⟨position, at'⟩ := List.getElem?_of_mem member
              rw [numberedRest at']
              omega)
          rw [← behind_append, show segment.firstSequence + (segment.lastSequence + 1 -
            segment.firstSequence) = segment.lastSequence + 1 by omega] at walks
          rw [if_neg stops, if_neg joined, found]
          simp only [opened, raise_ok, ok_bind]
          generalize walkRecords store after limits frontier _ _ reader taken size _ = walk at walks ⊢
          cases walks with
          | going placed' fills =>
              exact (ih (Nat.le_add_left 1 _) placed' readRest numberedRest matchedRest
                anchoredRest).trans fills
          | stopped filled cause => exact .stopped filled cause
          | tooSmall failed => exact .tooSmall failed

end Checksums

end Replica

end BlopDb.Engine
