/-
# Live roots beside the serial history

Every record of the journal has the outcome that the serial history gives it, whether
it is installed yet or not.  The live roots hold the visible records and the ones
installed ahead, so a read before a sequence answers as in the serial history as soon
as no record is missing that wrote the row.
-/

import BlopDb.Engine.Serial

namespace BlopDb.Engine

open BlopDb.Lib
open Storage (LimitPolicy TreeId View maxU64 sha256)
open Storage.Mvcc (Holds Readable Selects seekKey valuePayload)
open Storage.Wal (Record appendWal)
open Vm (Command Ledger Outcome OutcomeRecord RecordFits SameMetadata Wrote)
open Vm.Database (effectEntry finalEffects install)

/-! ## One more version -/

section Versions

variable {view : View} {table sequence : Nat} {key : Bytes} {row : Option Bytes}

/-- The next sequence is read through the version that it has, if any. -/
theorem selects_succ {written : Option (Option Bytes)} (selects : Selects view table key sequence row)
    (same : ∀ payload, Holds (view.roots .state).entries table key (sequence + 1) payload ↔
      written = some payload) : Selects view table key (sequence + 1) (written.getD row) := by
  cases written with
  | some payload =>
      exact .inl ⟨sequence + 1, le_rfl, (same payload).mpr rfl, fun other within _ _ => within⟩
  | none =>
      have older {stored : Nat} {payload : Option Bytes} (within : stored ≤ sequence + 1)
          (holds : Holds (view.roots .state).entries table key stored payload) : stored ≤ sequence := by
        by_contra later
        obtain rfl : stored = sequence + 1 := by omega
        exact absurd ((same payload).mp holds) (Option.some_ne_none payload).symm
      rcases selects with ⟨stored, seen, holds, most⟩ | ⟨isNone, absent⟩
      · exact .inl ⟨stored, by omega, holds, fun other within payload holds' =>
          most other (older within holds') payload holds'⟩
      · exact .inr ⟨isNone, fun stored within payload holds => absent stored (older within holds) payload holds⟩

end Versions

/-! ## Courses -/

/-- A source with the serial outcomes of its journal and the trees that they leave. -/
structure Course where
  source : Source
  outcomes : List Outcome
  final : View

namespace Course

/-- The records of the journal with their serial outcomes. -/
def records (course : Course) : List OutcomeRecord := history course.source.journal course.outcomes

section Exact

variable [Crc32c] [Sha256]

/-- The source is on the serial course of its journal. -/
structure Exact (initialPolicy : LimitPolicy) (course : Course) : Prop where
  sound : course.source.Sound initialPolicy
  rows : RowsExact course.source.resolved course.source.store.manifest.historyFloor course.source.serial
  serial : Serial initialPolicy course.source.journal course.outcomes course.final
  /-- The visible outcomes are serial ones. -/
  resolved : course.source.resolved = course.records.take course.source.frontier

namespace Exact

variable {initialPolicy : LimitPolicy} {course : Course}

theorem length_lt (exact : course.Exact initialPolicy) : course.source.journal.length < maxU64 := by
  rw [exact.sound.journaled]
  exact exact.sound.small

theorem frontier_le (exact : course.Exact initialPolicy) :
    course.source.frontier ≤ course.source.journal.length := by
  rw [exact.sound.journaled]
  exact exact.sound.durable

theorem presents (exact : course.Exact initialPolicy) :
    Presents initialPolicy course.records 0 course.final :=
  exact.serial.presents exact.length_lt

/-- The serial trees present the visible records. -/
theorem presents_serial (exact : course.Exact initialPolicy) :
    Presents initialPolicy (course.records.take course.source.frontier)
      course.source.store.manifest.historyFloor course.source.serial := by
  have ledger := exact.sound.ledger
  have rows := exact.rows
  rw [exact.resolved] at ledger rows
  exact ⟨ledger, rows⟩

omit [Crc32c] [Sha256] in
theorem records_at {position : Nat} {record : Record} {outcome : Outcome}
    (found : course.source.journal[position]? = some record)
    (has : course.outcomes[position]? = some outcome) :
    course.records[position]? = some (resolve record outcome) :=
  history_at found has

/-- The record at a position with its outcome. -/
theorem at_position (exact : course.Exact initialPolicy) {position : Nat}
    (inside : position < course.source.journal.length) :
    ∃ record outcome, course.source.journal[position]? = some record ∧
      course.outcomes[position]? = some outcome ∧ record.sequence = position + 1 := by
  have found := List.getElem?_eq_getElem inside
  have has := List.getElem?_eq_getElem (exact.serial.length_eq.symm ▸ inside)
  exact ⟨_, _, found, has, exact.sound.numbered found⟩

theorem fits (exact : course.Exact initialPolicy) {position : Nat} {record : OutcomeRecord}
    (found : course.records[position]? = some record) : RecordFits course.final record := by
  obtain ⟨last, ledger⟩ := exact.presents.ledger
  exact ledger.fits record (List.mem_of_getElem? found)

/-! ## Versions above the frontier -/

/-- A version above the frontier is one of an installed record. -/
theorem holds_iff (exact : course.Exact initialPolicy) {position table : Nat} {key : Bytes}
    (above : course.source.frontier ≤ position) (inside : position < course.source.journal.length)
    (bounded : table < maxU64) {payload : Option Bytes} :
    Holds (course.source.store.view.roots .state).entries table key (position + 1) payload ↔
      ∃ installed, course.source.ahead (position + 1) = some installed ∧ ∃ encoded,
        installed.Writes (position + 1) .state (seekKey table key (position + 1), encoded) ∧
          valuePayload encoded = .ok payload := by
  have sound := exact.sound
  have small := exact.length_lt
  constructor
  · rintro ⟨encoded, member, decoded⟩
    rcases (sound.live (show TreeId.state ≠ .cursors from nofun) _).mp member with
      old | ⟨sequence, installed, present, writes⟩
    · obtain ⟨last, ledger⟩ := sound.ledger
      obtain ⟨sequence, visible, table', row, below, shape⟩ := dated_of_ledger ledger old
      have counted := sound.counted
      obtain ⟨-, -, same⟩ := Storage.Mvcc.seekKey_inj bounded.le (show table' ≤ maxU64 by omega)
        (show sequence < maxU64 by omega) shape
      omega
    · obtain ⟨above', logged, written⟩ := sound.pending present
      obtain ⟨table', row, below, shape⟩ := writes.dated written
      have within := sound.logged_le logged
      have durable := sound.small
      obtain ⟨-, -, rfl⟩ := Storage.Mvcc.seekKey_inj bounded.le (show table' ≤ maxU64 by omega)
        (show sequence < maxU64 by omega) shape
      exact ⟨installed, present, encoded, writes, decoded⟩
  · rintro ⟨installed, present, encoded, writes, decoded⟩
    exact ⟨encoded, (sound.live (show TreeId.state ≠ .cursors from nofun) _).mpr
      (.inr ⟨position + 1, installed, present, writes⟩), decoded⟩

omit [Crc32c] [Sha256] in
/-- An installed record writes what its resolved form wrote. -/
theorem writes_iff {installed : Installed} {record : Record} {entry : Storage.Entry} :
    installed.Writes record.sequence .state entry ↔ Wrote (resolve record installed.outcome) .state entry := by
  constructor
  · rintro (⟨tree, -⟩ | ⟨effect, member, stored⟩)
    · cases tree
    · exact ⟨effect, Vm.mem_canonical.mpr member, stored⟩
  · rintro ⟨effect, member, stored⟩
    exact .inr ⟨effect, Vm.mem_canonical.mp member, stored⟩

/-- What is known of a record above the frontier as far as a row is concerned: it is
installed with its outcome, or it is missing and did not write the row. -/
def Settled (course : Course) (table : Nat) (key : Bytes) (position : Nat) : Prop :=
  ∀ record outcome, course.source.journal[position]? = some record →
    course.outcomes[position]? = some outcome →
      (∃ installed, course.source.ahead (position + 1) = some installed ∧ installed.outcome = outcome) ∨
        course.source.ahead (position + 1) = none ∧ writtenRow (resolve record outcome) table key = none

/-- The version of a settled record is what it wrote. -/
theorem holds_written (exact : course.Exact initialPolicy) {position table : Nat} {key : Bytes} {record : Record}
    {outcome : Outcome} (above : course.source.frontier ≤ position) (bounded : table < maxU64)
    (found : course.source.journal[position]? = some record)
    (has : course.outcomes[position]? = some outcome) (settled : Settled course table key position)
    (payload : Option Bytes) :
    Holds (course.source.store.view.roots .state).entries table key (position + 1) payload ↔
      writtenRow (resolve record outcome) table key = some payload := by
  have inside := (List.getElem?_eq_some_iff.mp found).1
  have numbered := exact.sound.numbered found
  rw [exact.holds_iff above inside bounded, writtenRow_eq_some (exact.fits (records_at found has)) bounded.le]
  rcases settled record outcome found has with ⟨installed, present, rfl⟩ | ⟨absent, unwritten⟩
  · rw [present, ← numbered]
    constructor
    · rintro ⟨installed', same, encoded, writes, decoded⟩
      cases same
      exact ⟨encoded, writes_iff.mp writes, decoded⟩
    · rintro ⟨encoded, wrote, decoded⟩
      exact ⟨installed, rfl, encoded, writes_iff.mpr wrote, decoded⟩
  · rw [absent, ← writtenRow_eq_some (exact.fits (records_at found has)) bounded.le, unwritten]
    constructor
    · rintro ⟨_, ⟨⟩, -⟩
    · exact fun same => absurd same (Option.some_ne_none payload).symm

/-- A read of the live roots above the frontier, over settled records, answers from the
serial history. -/
theorem selects (exact : course.Exact initialPolicy) {sequence table : Nat} {key : Bytes}
    (above : course.source.frontier ≤ sequence) (below : sequence ≤ course.source.journal.length)
    (readable : Readable table key sequence)
    (settled : ∀ position, course.source.frontier ≤ position → position < sequence →
      Settled course table key position) :
    Selects course.source.store.view table key sequence (rowAfter (course.records.take sequence) table key) := by
  induction sequence, above using Nat.le_induction with
  | base =>
      rw [← exact.resolved]
      exact exact.sound.selects exact.rows readable
  | succ sequence above ih =>
      obtain ⟨record, outcome, found, has, -⟩ := exact.at_position (show sequence < _ from below)
      have readable' : Readable table key sequence :=
        ⟨readable.table_pos, readable.table_lt, (Nat.lt_succ_self _).trans readable.sequence_lt, readable.key_le⟩
      have earlier := ih (by omega) readable' fun position above within => settled position above (by omega)
      rw [List.take_add_one, records_at found has, Option.toList_some, rowAfter_append]
      exact selects_succ earlier
        (exact.holds_written above readable.table_lt found has (settled sequence above (Nat.lt_succ_self _)))

omit [Crc32c] [Sha256] in
theorem take_records (course : Course) (count : Nat) :
    course.records.take count = history (course.source.journal.take count) (course.outcomes.take count) := by
  rw [records, history, List.take_zipWith, history]

/-- Live roots and the trees before a record answer a read alike. -/
theorem get_eq (exact : course.Exact initialPolicy) {sequence table : Nat} {key : Bytes} {earlier : View}
    (above : course.source.frontier ≤ sequence) (below : sequence ≤ course.source.journal.length)
    (serial : Serial initialPolicy (course.source.journal.take sequence) (course.outcomes.take sequence) earlier)
    (positive : table ≠ 0) (bounded : table < maxU64)
    (settled : ∀ position, course.source.frontier ≤ position → position < sequence →
      Settled course table key position) :
    Storage.Mvcc.get course.source.store.view table key sequence =
      Storage.Mvcc.get earlier table key sequence := by
  have small := exact.length_lt
  have length : (course.source.journal.take sequence).length = sequence := by
    rw [List.length_take]
    omega
  by_cases readable : Readable table key sequence
  · have presents := serial.presents (by omega)
    have count := serial.length_history
    rw [length, ← take_records] at count
    rw [← take_records] at presents
    have read := presents.get (count.symm ▸ readable)
    rw [count] at read
    rw [read]
    exact (Storage.Mvcc.get_eq_ok_iff exact.sound.uncorrupted readable).mpr
      (exact.selects above below readable settled)
  · exact Vm.get_congr_excluded positive bounded (by omega) readable

/-! ## Metadata above the frontier -/

/-- While only transactions are above the frontier, the live roots have the catalogue
and the policies of the whole journal. -/
theorem sameMetadata (exact : course.Exact initialPolicy)
    (kinds : ∀ position record, course.source.frontier ≤ position →
      course.source.journal[position]? = some record → uintAt 1 record.bytes 24 = 1) :
    SameMetadata course.source.store.view course.final := by
  have sound := exact.sound
  obtain ⟨last, ledger⟩ := exact.presents.ledger
  obtain ⟨last', ledger'⟩ := exact.presents_serial.ledger
  have equal {tree : TreeId} (logical : tree ≠ .cursors) (versioned : tree ≠ .state)
      (recorded : tree ≠ .outcomes) : course.source.store.view.roots tree = course.final.roots tree := by
    apply OrdMap.ext
    intro key
    apply Option.ext
    intro value
    rw [OrdMap.find?_eq_some, OrdMap.find?_eq_some, sound.live logical,
      mem_iff_of_ledger ledger versioned recorded, mem_iff_of_ledger ledger' versioned recorded, or_assoc]
    refine or_congr_right ⟨?_, ?_⟩
    · rintro (⟨record, member, wrote⟩ | ⟨sequence, installed, present, writes⟩)
      · exact ⟨record, List.mem_of_mem_take member, wrote⟩
      · obtain ⟨above, ⟨record, member, isSequence, -, isKind⟩, encoded⟩ := sound.pending present
        obtain ⟨position, found⟩ := List.getElem?_of_mem member
        have numbered := sound.numbered found
        have one := (isKind.symm.trans (kinds position record (by omega) found))
        rcases writes with ⟨isOutcome, -⟩ | ⟨effect, inEffects, stored⟩
        · exact absurd isOutcome recorded
        · have valid := (Vm.Database.encodeOutcome_effects encoded).1 effect inEffects
          rw [one] at valid
          rcases Vm.Database.effectEntry_cases valid stored with ⟨-, isState, -⟩ | ⟨isTwo, -⟩ | ⟨isThree, -⟩
          · exact absurd isState versioned
          · cases isTwo
          · cases isThree
    · rintro ⟨record, member, wrote⟩
      obtain ⟨position, found⟩ := List.getElem?_of_mem member
      by_cases visible : position < course.source.frontier
      · refine .inl ⟨record, List.mem_of_getElem? (i := position) ?_, wrote⟩
        rw [List.getElem?_take_of_lt visible, found]
      · -- A record above the frontier is a transaction, which writes the state only.
        have inside : position < course.source.journal.length := by
          have := (List.getElem?_eq_some_iff.mp found).1
          rwa [records, exact.serial.length_history] at this
        obtain ⟨logged, outcome, foundLog, has, -⟩ := exact.at_position inside
        obtain rfl := Option.some.inj ((records_at foundLog has).symm.trans found)
        have one : (resolve logged outcome).recordKind = 1 := kinds position logged (not_lt.mp visible) foundLog
        rcases wrote.cases (exact.fits found) with ⟨-, isState, -⟩ | ⟨isTwo, -⟩ | ⟨isThree, -⟩
        · exact absurd isState versioned
        · rw [one] at isTwo
          cases isTwo
        · rw [one] at isThree
          cases isThree
  exact ⟨equal nofun nofun nofun, equal nofun nofun nofun⟩

/-! ## Steps -/

/-- A step that changes neither the journal nor what is visible. -/
theorem of_step (exact : course.Exact initialPolicy) {next : Source} (step : Step course.source next)
    (journal : next.journal = course.source.journal) (frontier : next.frontier = course.source.frontier)
    (resolved : next.resolved = course.source.resolved) :
    Exact initialPolicy { course with source := next } := by
  refine ⟨step.sound exact.sound, step.rows exact.sound exact.rows, ?_, ?_⟩
  · simp only [journal]
    exact exact.serial
  · simp only [records, journal, frontier, resolved]
    exact exact.resolved

/-- Further records leave the first ones as they were. -/
theorem take_records_append (exact : course.Exact initialPolicy) {more : List Record} {more' : List Outcome}
    {count : Nat} (inside : count ≤ course.source.journal.length) :
    (history (course.source.journal ++ more) (course.outcomes ++ more')).take count = course.records.take count := by
  have length := exact.serial.length_history
  simp only [records, history, List.zipWith_append exact.serial.length_eq.symm]
  rw [List.take_append_of_le_length]
  rw [history] at length
  omega

/-- A group that the serial history executes becomes durable. -/
theorem append (exact : course.Exact initialPolicy) {rotate : Bool} {group : List (Nat × Bytes)}
    {log : Storage.Wal.Log} {digest : Storage.Digest} {more : List Outcome} {final : View}
    (appended : appendWal ⟨course.source.store.files, course.source.store.manifest, rotate, false⟩ group =
      (log, .ok digest))
    (serial : Serial initialPolicy (course.source.journal ++ group.map fun record =>
      ⟨record.1, sha256 record.2, record.2⟩) (course.outcomes ++ more) final) :
    Exact initialPolicy
      ⟨{ course.source with
          store := { course.source.store with files := log.files, manifest := log.manifest }
          journal := course.source.journal ++ group.map fun record => ⟨record.1, sha256 record.2, record.2⟩ },
        course.outcomes ++ more, final⟩ := by
  have step := Step.append appended
  refine ⟨step.sound exact.sound, step.rows exact.sound exact.rows, serial, ?_⟩
  exact exact.resolved.trans (exact.take_records_append exact.frontier_le).symm

/-- The frontier passes an installed record. -/
theorem advance (exact : course.Exact initialPolicy) {record : Record} (installed : Installed)
    (published : course.source.store.manifest.checkpointSequence ≤ course.source.frontier)
    (found : course.source.journal[course.source.frontier]? = some record)
    (present : course.source.ahead (course.source.frontier + 1) = some installed)
    (isDigest : installed.digest = record.digest.1) (isKind : installed.kind = uintAt 1 record.bytes 24)
    (has : course.outcomes[course.source.frontier]? = some installed.outcome) :
    ∃ serial, Step course.source { course.source with
        frontier := course.source.frontier + 1
        serial := serial
        resolved := course.source.resolved ++ [resolve record installed.outcome]
        ahead := Function.update course.source.ahead (course.source.frontier + 1) none } ∧
      Exact initialPolicy { course with source := { course.source with
        frontier := course.source.frontier + 1
        serial := serial
        resolved := course.source.resolved ++ [resolve record installed.outcome]
        ahead := Function.update course.source.ahead (course.source.frontier + 1) none } } := by
  have sound := exact.sound
  have counted := sound.counted
  have numbered := sound.numbered found
  obtain ⟨-, logged, encoded⟩ := sound.pending present
  have bounded := sound.logged_le logged
  have durable := sound.small
  obtain ⟨earlier, later, command, outcome, has', before, -, -, decoded, executed⟩ := exact.serial.step found
  obtain rfl := Option.some.inj (has'.symm.trans has)
  obtain ⟨-, -, computed, -⟩ := execute_eq_ok.mp executed
  have kinded : command.kind = installed.kind := (kind_of_recordCommand decoded).trans isKind.symm
  -- The serial trees and the trees of the history present the same records.
  have inside := (List.getElem?_eq_some_iff.mp found).1
  have short : (course.source.journal.take course.source.frontier).length = course.source.frontier := by
    rw [List.length_take]
    omega
  have presents := before.presents (by omega)
  rw [← take_records] at presents
  have count : (course.records.take course.source.frontier).length = course.source.frontier := by
    rw [← exact.resolved, counted]
  have same := presents.outcome_congr exact.presents_serial command
  rw [count, ← numbered, computed, numbered] at same
  have fresh : ∀ value, (beBytes 8 (course.source.frontier + 1), value) ∉
      (course.source.serial.roots .outcomes).entries := fun value member =>
    sound.fresh_serial (Nat.lt_succ_self _) (by omega) member rfl
  obtain ⟨serial, ordered⟩ := install_total (Nat.lt_succ_of_le published) encoded fresh
  have step := Step.advance present kinded same.symm ordered
  have isResolved : (⟨course.source.frontier + 1, installed.digest, installed.kind,
      Vm.Outcome.canonical installed.outcome⟩ : OutcomeRecord) = resolve record installed.outcome := by
    rw [resolve, isDigest, isKind, numbered]
  rw [isResolved] at step
  refine ⟨serial, step, step.sound sound, step.rows sound exact.rows, exact.serial, ?_⟩
  change course.source.resolved ++ [resolve record installed.outcome] =
    course.records.take (course.source.frontier + 1)
  rw [List.take_add_one, records_at found has, exact.resolved]
  rfl

end Exact

end Exact

end Course

/-- A transaction leaves the catalogue and the policies as they were. -/
theorem sameMetadata_of_execute [Sha256] {checkpoint sequence : Nat} {view after : View} {digest : Bytes}
    {command : Command} {outcome : Outcome} (small : sequence < maxU64) (one : command.kind = 1)
    (executed : Record.execute checkpoint view sequence digest command = some (.ok (outcome, after))) :
    SameMetadata view after := by
  obtain ⟨-, -, -, installed⟩ := execute_eq_ok.mp executed
  obtain ⟨bytes, installs⟩ := Vm.Database.install_installs small installed
  have kept {tree : TreeId} (recorded : tree ≠ .outcomes) (versioned : tree ≠ .state) :
      view.roots tree = after.roots tree := by
    apply (installs.roots_of_kind recorded _).symm
    rw [one]
    exact versioned
  exact ⟨kept nofun nofun, kept nofun nofun⟩

end BlopDb.Engine
