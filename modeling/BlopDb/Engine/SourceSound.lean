/-
# The invariant of a running engine

Every step keeps the live roots equal to the serial state and the records
installed ahead of it, and keeps the log equal to the journal from its floor on.
-/

import BlopDb.Engine.Source

namespace BlopDb.Engine

open BlopDb.Lib
open Storage (LimitPolicy Manifest TreeId View maxU64 sha256)
open Storage.Wal (Files Log Record appendWal planAppend readLog validateLogs Anchored Consecutive
  validateRecord)
open Vm (Command Ledger Outcome OutcomeRecord)
open Vm.Database (Installs effectEntry finalEffects)

variable [Crc32c] [Sha256]

/-- The invariant of a source. -/
structure Source.Sound (initialPolicy : LimitPolicy) (source : Source) : Prop where
  /-- The serial state describes the visible records down to the history floor. -/
  ledger : ∃ last, Ledger initialPolicy source.resolved last source.store.manifest.historyFloor
    source.serial
  counted : source.resolved.length = source.frontier
  valid : Storage.Metadata.Valid source.store.manifest
  named : source.store.manifest.databaseId = source.store.genesisId
  durable : source.frontier ≤ source.store.manifest.durableSequence
  journaled : source.journal.length = source.store.manifest.durableSequence
  numbered : ∀ {position record}, source.journal[position]? = some record →
    record.sequence = position + 1
  /-- The log holds the journal from its floor on. -/
  content : readLog source.store.files source.store.manifest.databaseId
    source.store.manifest.segments = .ok (source.journal.drop (source.store.manifest.logFloor - 1))
  anchored : Anchored source.store.manifest
    (source.journal.drop (source.store.manifest.logFloor - 1))
  /-- Outcomes name their log records. -/
  matched : ∀ record ∈ source.resolved,
    Logged source.journal record.sequence record.recordDigest record.recordKind
  pending : ∀ {sequence installed}, source.ahead sequence = some installed →
    source.frontier < sequence ∧ Logged source.journal sequence installed.digest installed.kind ∧
      Vm.Outcome.encodeOutcome sequence installed.digest installed.kind installed.outcome =
        .ok installed.bytes
  /-- The live roots are the serial state and the records ahead of it. -/
  live : ∀ {tree}, tree ≠ .cursors → ∀ entry,
    entry ∈ (source.store.view.roots tree).entries ↔ entry ∈ (source.serial.roots tree).entries ∨
      ∃ sequence installed, source.ahead sequence = some installed ∧
        installed.Writes sequence tree entry

section Entries

variable {initialPolicy : LimitPolicy} {source : Source}

omit [Crc32c] [Sha256] in
/-- Entries of an installed record belong to its sequence. -/
theorem Installed.Writes.dated {installed : Installed} {sequence : Nat} {tree : TreeId}
    {entry : Storage.Entry} (writes : installed.Writes sequence tree entry)
    (encoded : Vm.Outcome.encodeOutcome sequence installed.digest installed.kind installed.outcome =
      .ok installed.bytes) : Dated tree sequence entry.1 := by
  rcases writes with ⟨rfl, rfl⟩ | ⟨effect, member, stored⟩
  · rfl
  · exact dated_of_effectEntry ((Vm.Database.encodeOutcome_effects encoded).1 effect member) stored

omit [Crc32c] [Sha256] in
/-- Entries of a serial state belong to visible sequences. -/
theorem dated_of_ledger {records : List OutcomeRecord} {last : Bytes} {floor : Nat} {view : View}
    (ledger : Ledger initialPolicy records last floor view) {tree : TreeId} {entry : Storage.Entry}
    (member : entry ∈ (view.roots tree).entries) :
    ∃ sequence ≤ records.length, Dated tree sequence entry.1 := by
  by_cases isOutcome : tree = .outcomes
  · subst isOutcome
    obtain ⟨record, inRecords, -, key, -⟩ := ledger.outcomes entry member
    exact ⟨record.sequence, (ledger.sequence_le inRecords).2, key⟩
  · rcases ledger.written isOutcome member with ⟨rfl, rfl⟩ | ⟨record, inRecords, effect, inEffects, stored⟩
    · exact ⟨0, Nat.zero_le _, rfl⟩
    · exact ⟨record.sequence, (ledger.sequence_le inRecords).2,
        dated_of_effectEntry ((ledger.fits record inRecords).valid effect inEffects) stored⟩

omit [Crc32c] [Sha256] in
/-- A record that is installed where no entry of its sequence is adds its entries
and changes no other. -/
theorem Installs.entries_of_fresh {view after : View} {sequence kind : Nat} {digest bytes : Bytes}
    {outcome : Outcome} (installs : Installs view sequence digest kind outcome after bytes)
    {tree : TreeId} (fresh : ∀ entry ∈ (view.roots tree).entries, ¬ Dated tree sequence entry.1)
    (entry : Storage.Entry) :
    entry ∈ (after.roots tree).entries ↔ entry ∈ (view.roots tree).entries ∨
      (⟨digest, kind, outcome, bytes⟩ : Installed).Writes sequence tree entry := by
  rw [installs.entries, ← or_assoc, or_comm]
  refine or_congr_left ⟨And.left, fun member => ⟨member, fun effect inEffects value stored => ?_⟩⟩
  exact fresh entry member (dated_of_effectEntry (installs.valid inEffects) stored)

theorem Source.Sound.small (sound : source.Sound initialPolicy) :
    source.store.manifest.durableSequence < maxU64 := sound.valid.frontiers.durable

/-- A logged record is at its place in the journal. -/
theorem Source.Sound.logged_le (sound : source.Sound initialPolicy) {sequence kind : Nat}
    {digest : Bytes} (logged : Logged source.journal sequence digest kind) :
    1 ≤ sequence ∧ sequence ≤ source.store.manifest.durableSequence ∧ digest.length = 32 := by
  obtain ⟨record, member, rfl, rfl, -⟩ := logged
  obtain ⟨position, found⟩ := List.getElem?_of_mem member
  have inside := (List.getElem?_eq_some_iff.mp found).1
  rw [sound.numbered found]
  have := sound.journaled
  exact ⟨by omega, by omega, record.digest.2⟩

/-- Live entries belong to visible records or to records ahead. -/
theorem Source.Sound.dated (sound : source.Sound initialPolicy) {tree : TreeId}
    (logical : tree ≠ .cursors) {entry : Storage.Entry}
    (member : entry ∈ (source.store.view.roots tree).entries) :
    ∃ sequence, Dated tree sequence entry.1 ∧
      ((sequence ≤ source.frontier ∧ entry ∈ (source.serial.roots tree).entries) ∨
        ∃ installed, source.ahead sequence = some installed ∧
          installed.Writes sequence tree entry) := by
  rcases (sound.live logical entry).mp member with old | ⟨sequence, installed, present, writes⟩
  · obtain ⟨last, ledger⟩ := sound.ledger
    obtain ⟨sequence, visible, dated⟩ := dated_of_ledger ledger old
    exact ⟨sequence, dated, .inl ⟨sound.counted ▸ visible, old⟩⟩
  · exact ⟨sequence, writes.dated (sound.pending present).2.2, .inr ⟨installed, present, writes⟩⟩

end Entries

/-! ## Appends -/

section Appends

variable {initialPolicy : LimitPolicy} {source : Source}

/-- A validated record is a framed record with its own digest. -/
theorem validated_frame {bytes : Bytes} {sequence : Nat} {predecessor digest : Storage.Digest}
    (valid : validateRecord bytes bytes.length sequence predecessor = .ok (bytes.length, digest)) :
    ∃ kind body, Recorded sequence kind body ∧ bytes = frame sequence predecessor kind body ∧
      digest = sha256 bytes := by
  obtain ⟨kind, body, rest, recorded, exact, -, same, rfl⟩ := validateRecord_sound valid
  have empty : rest = [] := by
    have total := congrArg List.length same
    rw [List.length_append, length_frame] at total
    exact List.length_eq_zero_iff.mp (by omega)
  rw [empty, List.append_nil] at same
  exact ⟨kind, body, recorded, same, by rw [← same]⟩

/-- Consecutive records carry their own digests. -/
theorem consecutive_digest {previous last : Nat} {digest final : Storage.Digest}
    {records : List Record} (consecutive : Consecutive previous digest records last final)
    {record : Record} (member : record ∈ records) : record.digest = sha256 record.bytes := by
  induction consecutive with
  | nil => cases member
  | cons next bound valid more ih =>
      rcases List.mem_cons.mp member with rfl | later
      · obtain ⟨_, _, -, -, same⟩ := validated_frame valid
        exact same
      · exact ih later

omit [Crc32c] [Sha256] in
theorem Logged.mono {journal more : List Record} {sequence kind : Nat} {digest : Bytes}
    (logged : Logged journal sequence digest kind) : Logged (journal ++ more) sequence digest kind := by
  obtain ⟨record, member, rest⟩ := logged
  exact ⟨record, List.mem_append_left _ member, rest⟩

/-- What an acknowledged append does. -/
theorem appendWal_ok {log log' : Log} {records : List (Nat × Bytes)} {digest : Storage.Digest}
    (appended : appendWal log records = (log', .ok digest)) :
    ∃ append list, Storage.Wal.Plans log list append ∧
      list = records.map (fun record => ⟨record.1, sha256 record.2, record.2⟩) ∧
      log'.files = log.files.insert append.segmentId (append.before ++ append.writes) ∧
      log'.manifest = append.next := by
  unfold appendWal at appended
  split_ifs at appended with poisoned
  · cases appended
  · cases planned : planAppend log records with
    | error failure =>
        rw [planned] at appended
        obtain ⟨_ | ⟨id, block⟩, error⟩ := failure <;> cases appended
    | ok append =>
        rw [planned] at appended
        cases appended
        obtain ⟨list, rfl, -, plans⟩ := Storage.Wal.planAppend_eq_ok planned
        refine ⟨append, list, plans, ?_, rfl, rfl⟩
        have digests : ∀ record ∈ list, record.digest = sha256 record.bytes := by
          intro record member
          cases plans with
          | create grouped => exact consecutive_digest grouped.consecutive member
          | extend grouped => exact consecutive_digest grouped.consecutive member
        rw [List.map_map]
        refine ((List.map_congr_left fun record member => ?_).trans (List.map_id list)).symm
        obtain ⟨sequence, digest, bytes⟩ := record
        have same : digest = sha256 bytes := digests _ member
        rw [same]
        rfl

/-- What an append leaves of the manifest. -/
theorem plans_next {log : Log} {list : List Record} {append : Storage.Wal.Append}
    (plans : Storage.Wal.Plans log list append) :
    Storage.Metadata.Valid append.next ∧
      append.next.databaseId = log.manifest.databaseId ∧
      append.next.durableSequence = log.manifest.durableSequence + list.length ∧
      append.next.logFloor = log.manifest.logFloor ∧
      append.next.historyFloor = log.manifest.historyFloor ∧
      append.next.checkpointSequence = log.manifest.checkpointSequence ∧
      append.next.checkpointDigest = log.manifest.checkpointDigest ∧
      ∃ last final, Consecutive log.manifest.durableSequence log.manifest.durableDigest list last
        final := by
  cases plans with
  | create grouped _ _ valid =>
      exact ⟨valid, rfl, grouped.consecutive.last_eq, rfl, rfl, rfl, rfl, _, _, grouped.consecutive⟩
  | extend grouped _ _ _ _ valid =>
      exact ⟨valid, rfl, grouped.consecutive.last_eq, rfl, rfl, rfl, rfl, _, _, grouped.consecutive⟩

theorem Source.Sound.floor_le (sound : source.Sound initialPolicy) :
    source.store.manifest.logFloor - 1 ≤ source.journal.length := by
  have floor := sound.valid.frontiers.floor
  have checkpoint := sound.valid.frontiers.checkpoint
  have := sound.journaled
  omega

theorem Source.Sound.append (sound : source.Sound initialPolicy) {rotate : Bool}
    {records : List (Nat × Bytes)} {log : Log} {digest : Storage.Digest}
    (appended : appendWal ⟨source.store.files, source.store.manifest, rotate, false⟩ records =
      (log, .ok digest)) :
    Source.Sound initialPolicy { source with
      store := { source.store with files := log.files, manifest := log.manifest }
      journal := source.journal ++ records.map fun record => ⟨record.1, sha256 record.2, record.2⟩ } := by
  obtain ⟨append, list, plans, isList, isFiles, isManifest⟩ := appendWal_ok appended
  obtain ⟨valid, database, durable, logFloor, history, checkpoint, anchor, last, final, consecutive⟩ :=
    plans_next plans
  have content := Storage.Wal.readLog_appended sound.valid plans sound.content
  rw [← isList]
  simp only at database durable logFloor history checkpoint anchor consecutive
  have dropped : (source.journal ++ list).drop (source.store.manifest.logFloor - 1) =
      source.journal.drop (source.store.manifest.logFloor - 1) ++ list :=
    List.drop_append_of_le_length sound.floor_le
  refine
    { ledger := ?_, counted := sound.counted, valid := ?_, named := ?_, durable := ?_, journaled := ?_,
      numbered := ?_, content := ?_, anchored := ?_, matched := ?_, pending := ?_, live := sound.live } <;>
    simp only [isManifest, isFiles]
  · rw [history]
    exact sound.ledger
  · exact valid
  · rw [database]
    exact sound.named
  · have := sound.durable
    omega
  · rw [List.length_append, sound.journaled, durable]
  · intro position record found
    by_cases old : position < source.journal.length
    · rw [List.getElem?_append_left old] at found
      exact sound.numbered found
    · rw [List.getElem?_append_right (by omega)] at found
      have := consecutive.sequence_eq found
      have := sound.journaled
      omega
  · rw [database, logFloor, dropped]
    exact content
  · rw [logFloor, dropped]
    intro record member atCheckpoint
    rw [checkpoint] at atCheckpoint
    rw [anchor]
    rcases List.mem_append.mp member with old | new
    · exact sound.anchored record old atCheckpoint
    · have := (consecutive.mem new).1
      have := sound.valid.frontiers.checkpoint
      omega
  · exact fun record member => (sound.matched record member).mono
  · intro sequence installed present
    obtain ⟨above, logged, encoded⟩ := sound.pending present
    exact ⟨above, logged.mono, encoded⟩

end Appends

/-! ## Installations -/

section Installations

variable {initialPolicy : LimitPolicy} {source : Source}

omit [Crc32c] [Sha256] in
theorem update_some {ahead : Nat → Option Installed} {sequence sequence' : Nat}
    {new installed : Installed} (absent : ahead sequence = none) :
    Function.update ahead sequence (some new) sequence' = some installed ↔
      (sequence' = sequence ∧ installed = new) ∨ ahead sequence' = some installed := by
  by_cases same : sequence' = sequence
  · subst same
    simp [absent, eq_comm]
  · simp [same]

omit [Crc32c] [Sha256] in
theorem update_none {ahead : Nat → Option Installed} {sequence sequence' : Nat}
    {installed : Installed} :
    Function.update ahead sequence none sequence' = some installed ↔
      sequence' ≠ sequence ∧ ahead sequence' = some installed := by
  by_cases same : sequence' = sequence
  · subst same
    simp
  · simp [same]

/-- No live entry belongs to a sequence that is not installed. -/
theorem Source.Sound.fresh (sound : source.Sound initialPolicy) {sequence : Nat}
    (above : source.frontier < sequence) (small : sequence < maxU64)
    (absent : source.ahead sequence = none) {tree : TreeId} (logical : tree ≠ .cursors)
    {entry : Storage.Entry} (member : entry ∈ (source.store.view.roots tree).entries) :
    ¬ Dated tree sequence entry.1 := by
  intro dated
  obtain ⟨sequence', dated', old | ⟨installed, present, -⟩⟩ := sound.dated logical member
  · have := Dated.unique small (by omega) dated dated'
    omega
  · have bounded := sound.logged_le (sound.pending present).2.1
    have := sound.small
    obtain rfl := Dated.unique small (by omega) dated dated'
    rw [absent] at present
    cases present

/-- No serial entry belongs to a later sequence. -/
theorem Source.Sound.fresh_serial (sound : source.Sound initialPolicy) {sequence : Nat}
    (above : source.frontier < sequence) (small : sequence < maxU64) {tree : TreeId}
    {entry : Storage.Entry} (member : entry ∈ (source.serial.roots tree).entries) :
    ¬ Dated tree sequence entry.1 := by
  intro dated
  obtain ⟨last, ledger⟩ := sound.ledger
  obtain ⟨sequence', visible, dated'⟩ := dated_of_ledger ledger member
  have counted := sound.counted
  have := Dated.unique small (by omega) dated dated'
  omega

theorem Source.Sound.install (sound : source.Sound initialPolicy) {sequence : Nat} {digest : Bytes}
    {kind : Nat} {outcome : Outcome} {bytes : Bytes} {view : View}
    (above : source.frontier < sequence) (logged : Logged source.journal sequence digest kind)
    (encoded : Vm.Outcome.encodeOutcome sequence digest kind outcome = .ok bytes)
    (installed : Vm.Database.install false source.store.manifest.checkpointSequence
      source.store.view sequence digest kind outcome = .ok view) :
    Source.Sound initialPolicy { source with
      store := { source.store with view := view }
      ahead := Function.update source.ahead sequence (some ⟨digest, kind, outcome, bytes⟩) } := by
  have bounded := sound.logged_le logged
  have small : sequence < maxU64 := lt_of_le_of_lt bounded.2.1 sound.small
  obtain ⟨bytes', installs⟩ := Vm.Database.install_installs small installed
  obtain rfl : bytes' = bytes := Except.ok.inj (installs.encoded.symm.trans encoded)
  have absent : source.ahead sequence = none := by
    cases present : source.ahead sequence with
    | none => rfl
    | some old =>
        have stored := (sound.live (show TreeId.outcomes ≠ .cursors from nofun) _).mpr
          (.inr ⟨sequence, old, present, .inl ⟨rfl, rfl⟩⟩)
        exact absurd stored (installs.fresh _)
  refine { sound with pending := ?_, live := ?_ }
  · intro sequence' other present
    rcases (update_some absent).mp present with ⟨rfl, rfl⟩ | old
    · exact ⟨above, logged, encoded⟩
    · exact sound.pending old
  · intro tree logical entry
    have added := Installs.entries_of_fresh installs
      (fun entry member => sound.fresh above small absent logical member) entry
    refine added.trans ⟨?_, ?_⟩
    · rintro (old | writes)
      · refine ((sound.live logical entry).mp old).imp id ?_
        rintro ⟨sequence', other, present, writes⟩
        exact ⟨sequence', other, (update_some absent).mpr (.inr present), writes⟩
      · exact .inr ⟨sequence, _, (update_some absent).mpr (.inl ⟨rfl, rfl⟩), writes⟩
    · rintro (old | ⟨sequence', other, present, writes⟩)
      · exact .inl ((sound.live logical entry).mpr (.inl old))
      · rcases (update_some absent).mp present with ⟨rfl, rfl⟩ | present
        · exact .inr writes
        · exact .inl ((sound.live logical entry).mpr (.inr ⟨sequence', other, present, writes⟩))

theorem Source.Sound.advance (sound : source.Sound initialPolicy) {installed : Installed}
    {command : Command} {serial : View}
    (present : source.ahead (source.frontier + 1) = some installed)
    (kinded : command.kind = installed.kind)
    (computed : command.outcome source.serial (source.frontier + 1) = some (.ok installed.outcome))
    (ordered : Vm.Database.install false source.store.manifest.checkpointSequence source.serial
      (source.frontier + 1) installed.digest installed.kind installed.outcome = .ok serial) :
    Source.Sound initialPolicy { source with
      frontier := source.frontier + 1
      serial := serial
      resolved := source.resolved ++ [⟨source.frontier + 1, installed.digest, installed.kind,
        Vm.Outcome.canonical installed.outcome⟩]
      ahead := Function.update source.ahead (source.frontier + 1) none } := by
  obtain ⟨-, logged, encoded⟩ := sound.pending present
  obtain ⟨-, bounded, width⟩ := sound.logged_le logged
  have small : source.frontier + 1 < maxU64 := lt_of_le_of_lt bounded sound.small
  obtain ⟨bytes, installs⟩ := Vm.Database.install_installs small ordered
  obtain rfl : bytes = installed.bytes := Except.ok.inj (installs.encoded.symm.trans encoded)
  obtain ⟨last, ledger⟩ := sound.ledger
  have counted := sound.counted
  refine { sound with
    ledger := ⟨installed.digest, ?_⟩, counted := ?_, durable := bounded, matched := ?_, pending := ?_,
    live := ?_ }
  · rw [← counted] at computed installs small ⊢
    rw [← kinded] at installs ⊢
    exact ledger.record width small computed installs
  · rw [List.length_append, List.length_singleton, counted]
  · intro record member
    rcases List.mem_append.mp member with old | new
    · exact sound.matched record old
    · obtain rfl := List.mem_singleton.mp new
      exact logged
  · intro sequence other present'
    obtain ⟨other', present'⟩ := update_none.mp present'
    obtain ⟨above, rest⟩ := sound.pending present'
    exact ⟨lt_of_le_of_ne above (Ne.symm other'), rest⟩
  · intro tree logical entry
    have added := Installs.entries_of_fresh installs
      (fun entry (member : entry ∈ (source.serial.roots tree).entries) =>
        sound.fresh_serial (Nat.lt_succ_self _) small member) entry
    refine (sound.live logical entry).trans ⟨?_, ?_⟩
    · rintro (old | ⟨sequence, other, present', writes⟩)
      · exact .inl (added.mpr (.inl old))
      · by_cases same : sequence = source.frontier + 1
        · subst same
          obtain rfl := Option.some.inj (present.symm.trans present')
          exact .inl (added.mpr (.inr writes))
        · exact .inr ⟨sequence, other, update_none.mpr ⟨same, present'⟩, writes⟩
    · rintro (new | ⟨sequence, other, present', writes⟩)
      · rcases added.mp new with old | writes
        · exact .inl old
        · exact .inr ⟨source.frontier + 1, installed, present, writes⟩
      · exact .inr ⟨sequence, other, (update_none.mp present').2, writes⟩

end Installations

/-! ## Publications and maintenance -/

section Maintenance

variable {initialPolicy : LimitPolicy} {source : Source}

/-- Reading looks at the files of its segments only. -/
theorem readLog_congr {files files' : Files} {database : Fixed 16}
    {segments : List Storage.SegmentDescriptor} (same : ∀ segment ∈ segments,
      files'.find? segment.segmentId = files.find? segment.segmentId) :
    readLog files' database segments = readLog files database segments := by
  induction segments with
  | nil => rfl
  | cons segment rest ih =>
      rw [readLog, readLog, same segment List.mem_cons_self,
        ih fun other member => same other (List.mem_cons_of_mem _ member)]

/-- A later part of the segments holds a later part of the journal. -/
theorem Source.Sound.retired (sound : source.Sound initialPolicy) {next : Manifest} {files : Files}
    {retired : List Storage.SegmentDescriptor} (valid : validateLogs files next = .ok ())
    (kept : ∀ segment ∈ next.segments,
      files.find? segment.segmentId = source.store.files.find? segment.segmentId)
    (database : next.databaseId = source.store.manifest.databaseId)
    (durable : next.durableSequence = source.store.manifest.durableSequence)
    (segments : source.store.manifest.segments = retired ++ next.segments) :
    readLog files next.databaseId next.segments = .ok (source.journal.drop (next.logFloor - 1)) ∧
      Anchored next (source.journal.drop (next.logFloor - 1)) := by
  obtain ⟨sound', records, read, anchored⟩ := Storage.Wal.validateLogs_eq_ok.mp valid
  have content := sound.content
  rw [segments] at content
  obtain ⟨first, second, -, readSecond, split⟩ := Storage.Wal.readLog_append.mp content
  have same : readLog files next.databaseId next.segments =
      readLog source.store.files source.store.manifest.databaseId next.segments := by
    rw [database]
    exact readLog_congr kept
  obtain rfl : records = second := by
    rw [same, readSecond] at read
    exact (Except.ok.inj read).symm
  obtain ⟨_, -, consecutive⟩ := Storage.Wal.readLog_durable sound' read
  have length := consecutive.last_eq
  have floor := sound'.frontiers.floor
  have total := congrArg List.length split
  have below := sound.floor_le
  have journaled := sound.journaled
  rw [List.length_drop, List.length_append] at total
  have isDrop : source.journal.drop (next.logFloor - 1) = records := by
    have later : next.logFloor - 1 = source.store.manifest.logFloor - 1 + first.length := by omega
    rw [later, ← List.drop_drop, split, List.drop_left]
  rw [isDrop]
  exact ⟨read, anchored⟩

theorem Source.Sound.publish (sound : source.Sound initialPolicy) {next : Manifest} {view : View}
    (valid : validateLogs source.store.files next = .ok ())
    (database : next.databaseId = source.store.manifest.databaseId)
    (durable : next.durableSequence = source.store.manifest.durableSequence)
    (segments : next.segments = source.store.manifest.segments)
    (history : next.historyFloor = source.store.manifest.historyFloor)
    (same : SameTrees source.store.view view) :
    Source.Sound initialPolicy
      { source with store := { source.store with manifest := next, view := view } } := by
  obtain ⟨content, anchored⟩ := @Source.Sound.retired _ _ _ source sound next source.store.files []
    valid (fun _ _ => rfl) database durable segments.symm
  refine
    { ledger := ?_, counted := sound.counted, valid := (Storage.Wal.validateLogs_eq_ok.mp valid).1,
      named := database.trans sound.named, durable := ?_, journaled := sound.journaled.trans durable.symm,
      numbered := sound.numbered, content := content, anchored := anchored, matched := sound.matched,
      pending := sound.pending, live := ?_ }
  · simp only [history]
    exact sound.ledger
  · simp only [durable]
    exact sound.durable
  · intro tree logical entry
    simp only [same tree logical]
    exact sound.live logical entry

theorem Source.Sound.maintain (sound : source.Sound initialPolicy) {next : Manifest} {floor : Nat}
    {view serial : View} {removed removed' : Nat × Nat} {files : Files}
    {retired : List Storage.SegmentDescriptor}
    (drained : source.frontier = source.store.manifest.durableSequence)
    (collected : Storage.Collect.collectView false source.store.manifest.historyFloor
      source.store.view floor source.frontier = .ok (view, removed))
    (ordered : Storage.Collect.collectView false source.store.manifest.historyFloor
      source.serial floor source.frontier = .ok (serial, removed'))
    (kept : ∀ segment ∈ next.segments,
      files.find? segment.segmentId = source.store.files.find? segment.segmentId)
    (valid : validateLogs files next = .ok ())
    (database : next.databaseId = source.store.manifest.databaseId)
    (durable : next.durableSequence = source.store.manifest.durableSequence)
    (segments : source.store.manifest.segments = retired ++ next.segments)
    (history : next.historyFloor = floor) :
    Source.Sound initialPolicy { source with
      store := { source.store with manifest := next, files := files, view := view }
      serial := serial } := by
  have empty (sequence : Nat) : source.ahead sequence = none := by
    cases present : source.ahead sequence with
    | none => rfl
    | some installed =>
        obtain ⟨above, logged, -⟩ := sound.pending present
        have := sound.logged_le logged
        omega
  have same {tree : TreeId} (logical : tree ≠ .cursors) :
      (source.store.view.roots tree).entries = (source.serial.roots tree).entries := by
    refine (source.store.view.roots tree).increasing.ext (source.serial.roots tree).increasing
      fun entry => (sound.live logical entry).trans ⟨?_, .inl⟩
    rintro (old | ⟨sequence, installed, present, -⟩)
    · exact old
    · rw [empty sequence] at present
      cases present
  obtain ⟨last, ledger⟩ := sound.ledger
  have decodes := ledger.keysDecode
  have decodes' : Storage.Collect.KeysDecode source.store.view := by
    intro entry member
    rw [same (show TreeId.state ≠ .cursors from nofun)] at member
    exact decodes entry member
  obtain ⟨⟨-, state⟩, outcomes, others⟩ := Storage.Collect.collectView_eq_ok decodes' collected
  obtain ⟨⟨-, state'⟩, outcomes', others'⟩ := Storage.Collect.collectView_eq_ok decodes ordered
  obtain ⟨content, anchored⟩ := sound.retired valid kept database durable segments
  refine
    { ledger := ⟨last, ?_⟩, counted := sound.counted,
      valid := (Storage.Wal.validateLogs_eq_ok.mp valid).1, named := database.trans sound.named,
      durable := ?_, journaled := sound.journaled.trans durable.symm, numbered := sound.numbered,
      content := content, anchored := anchored, matched := sound.matched, pending := sound.pending,
      live := ?_ }
  · simp only [history]
    exact ledger.collect (sound.counted ▸ le_rfl) ordered
  · simp only [durable]
    exact sound.durable
  · intro tree logical entry
    have trees : (view.roots tree).entries = (serial.roots tree).entries := by
      by_cases isState : tree = .state
      · subst isState
        rw [state, state', same (show TreeId.state ≠ .cursors from nofun)]
      · by_cases isOutcome : tree = .outcomes
        · subst isOutcome
          rw [outcomes, outcomes', same (show TreeId.outcomes ≠ .cursors from nofun)]
        · rw [others tree isState isOutcome, others' tree isState isOutcome, same logical]
    simp only [trees]
    refine ⟨.inl, ?_⟩
    rintro (old | ⟨sequence, installed, present, -⟩)
    · exact old
    · rw [empty sequence] at present
      cases present

end Maintenance

/-- A new database satisfies the invariant. -/
theorem sound_genesis {initialPolicy : LimitPolicy} {manifest : Manifest}
    (valid : Storage.Metadata.validateManifest manifest = .ok ()) (empty : manifest.segments = [])
    (new : manifest.durableSequence = 0) :
    (Source.genesis initialPolicy manifest).Sound initialPolicy := by
  have sound := Storage.Metadata.validateManifest_eq_ok.mp valid
  have history : manifest.historyFloor = 0 := by
    have := sound.frontiers.history
    have := sound.frontiers.checkpoint
    omega
  refine
    { ledger := ⟨[], ?_⟩, counted := rfl, valid := sound, named := rfl, durable := Nat.zero_le _,
      journaled := new.symm, numbered := nofun, content := ?_, anchored := ?_, matched := nofun,
      pending := nofun, live := ?_ }
  · simp only [Source.genesis, history]
    exact Vm.ledger_genesis []
  · simp only [Source.genesis, empty, List.drop_nil]
    rfl
  · simp only [Source.genesis, List.drop_nil]
    exact nofun
  · intro tree _ entry
    refine ⟨.inl, ?_⟩
    rintro (old | ⟨_, _, present, -⟩)
    · exact old
    · cases present

/-- Every step keeps the invariant. -/
theorem Step.sound {initialPolicy : LimitPolicy} {source next : Source} (step : Step source next)
    (sound : source.Sound initialPolicy) : next.Sound initialPolicy := by
  cases step with
  | append appended => exact sound.append appended
  | install above logged encoded installed => exact sound.install above logged encoded installed
  | advance present kinded computed ordered => exact sound.advance present kinded computed ordered
  | publish valid database durable segments history same =>
      exact sound.publish valid database durable segments history same
  | maintain drained collected ordered kept valid database durable segments history =>
      exact sound.maintain drained collected ordered kept valid database durable segments history

/-- Every reachable source satisfies the invariant. -/
theorem Running.sound {initialPolicy : LimitPolicy} {source : Source}
    (running : Running initialPolicy source) : source.Sound initialPolicy := by
  induction running with
  | genesis valid empty new => exact sound_genesis valid empty new
  | step _ step ih => exact step.sound ih

end BlopDb.Engine
