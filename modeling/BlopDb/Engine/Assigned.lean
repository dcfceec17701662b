/-
# Assigned transactions

The entries of a schedule are the records of the log above the frontier.  Each was
prepared as the serial history prepares it, and it waits for exactly the earlier
unresolved records that may write what it reads.  Without such a record the live roots
give it the outcome of the serial history.
-/

import BlopDb.Engine.AdmissionSound
import BlopDb.Engine.Course
import BlopDb.Engine.Scheduler

namespace BlopDb.Engine

open BlopDb.Lib
open Storage (Digest LimitPolicy TreeId View maxU64 sha256)
open Storage.Wal (Record)
open Vm (AccessManifest Command Outcome PreparedTransaction Scope)
open Vm.Database (finalEffects install)

variable {initialPolicy : LimitPolicy} {log : List Record} {outcomes : List Outcome} {final : View}
variable {frontier : Nat} {ahead : Nat → Option Installed} {entries before after : List Entry} {entry : Entry}

/-! ## Overlaps -/

/-- A read and a write of one address overlap. -/
theorem overlaps_of_covered {writes : List Scope} {manifest : AccessManifest} {address : Vm.Address}
    (read : AccessManifest.Covered manifest.reads address) (written : AccessManifest.Covered writes address) :
    overlaps writes manifest = true := by
  rw [overlaps, List.any_eq_true]
  rcases read with read | read
  · refine ⟨_, read, List.any_eq_true.mpr ?_⟩
    rcases written with written | written
    · exact ⟨_, written, by simp [Vm.overlap, Scope.tableId]⟩
    · exact ⟨_, written, by simp [Vm.overlap, Scope.tableId]⟩
  · refine ⟨_, read, List.any_eq_true.mpr ?_⟩
    rcases written with written | written
    · exact ⟨_, written, by simp [Vm.overlap, Scope.tableId]⟩
    · exact ⟨_, written, by simp [Vm.overlap, Scope.tableId]⟩

/-- An effect on a row has the address of the row. -/
theorem effectAddress_of_effectOn {table : Nat} {key : Bytes} {effect : Vm.Effect} {payload : Option Bytes}
    (on : effectOn table key effect = some payload) : Vm.Outcome.effectAddress effect = ⟨table, key⟩ := by
  cases effect with
  | put table' key' value =>
      rw [effectOn] at on
      split_ifs at on with same
      obtain ⟨rfl, rfl⟩ := same
      rfl
  | delete table' key' =>
      rw [effectOn] at on
      split_ifs at on with same
      obtain ⟨rfl, rfl⟩ := same
      rfl
  | catalogue table' value => cases on
  | limits policy => cases on

/-- A record whose writes do not overlap the reads writes no row that is read. -/
theorem unwritten_of_disjoint {record : Record} {outcome : Outcome} {writes : List Scope} {manifest : AccessManifest}
    {address : Vm.Address} (read : AccessManifest.Covered manifest.reads address)
    (inside : ∀ effect ∈ finalEffects outcome, AccessManifest.Covered writes (Vm.Outcome.effectAddress effect))
    (disjoint : overlaps writes manifest = false) :
    writtenRow (resolve record outcome) address.table address.key = none := by
  rw [writtenRow, List.findSome?_eq_none_iff]
  intro effect member
  by_contra written
  obtain ⟨payload, on⟩ := Option.ne_none_iff_exists'.mp written
  have covered := inside effect (Vm.mem_canonical.mp member)
  rw [effectAddress_of_effectOn on] at covered
  rw [overlaps_of_covered read covered] at disjoint
  cases disjoint

/-! ## Scheduled records -/

variable [Sha256]

/-- A transaction of the log, prepared and run on the trees before it. -/
structure Scheduled (initialPolicy : LimitPolicy) (log : List Record) (outcomes : List Outcome) (sequence : Nat)
    (digest : Digest) (prepared : PreparedTransaction) (outcome : Outcome) : Prop where
  numbered : prepared.sequence = sequence
  record : ∃ record, log[prepared.prior]? = some record ∧ record.digest = digest ∧ uintAt 1 record.bytes 24 = 1
  has : outcomes[prepared.prior]? = some outcome
  ran : ∃ earlier transaction claims manifest,
    Serial initialPolicy (log.take prepared.prior) (outcomes.take prepared.prior) earlier ∧
      Vm.prepareTransaction earlier sequence transaction claims manifest = .ok prepared ∧
      Vm.interpretPrepared earlier prepared = some (.ok outcome)

/-- How far an entry is. -/
inductive Progress (ahead : Nat → Option Installed) (before : List Entry) (entry : Entry)
    (prepared : PreparedTransaction) (outcome : Outcome) : Prop
  | unresolved (none' : entry.outcome = none) (taken : ∀ held ∈ entry.prepared, held = prepared)
      (writes : entry.writes = prepared.manifest.writes)
      (dependencies : entry.dependencies = waitsFor before prepared.manifest)
      (absent : ahead entry.sequence = none)
  | resolved (some' : entry.outcome = some outcome) (taken : entry.prepared = none)
      (present : ∃ bytes, ahead entry.sequence = some ⟨entry.digest.1, 1, outcome, bytes⟩)

/-- An entry is a scheduled record on its way. -/
def Assigned (initialPolicy : LimitPolicy) (log : List Record) (outcomes : List Outcome)
    (ahead : Nat → Option Installed) (before : List Entry) (entry : Entry) : Prop :=
  ∃ prepared outcome, Scheduled initialPolicy log outcomes entry.sequence entry.digest prepared outcome ∧
    Progress ahead before entry prepared outcome

/-- The entries are the records of the log above the frontier, in order. -/
structure Lined (initialPolicy : LimitPolicy) (log : List Record) (outcomes : List Outcome) (final : View)
    (frontier : Nat) (ahead : Nat → Option Installed) (entries : List Entry) : Prop where
  serial : Serial initialPolicy log outcomes final
  counted : frontier + entries.length = log.length
  numbered : ∀ before entry after, entries = before ++ entry :: after →
    entry.sequence = frontier + before.length + 1
  assigned : ∀ before entry after, entries = before ++ entry :: after →
    Assigned initialPolicy log outcomes ahead before entry

/-- The records of a longer log were scheduled before. -/
theorem Scheduled.mono {sequence : Nat} {digest : Digest} {prepared : PreparedTransaction} {outcome : Outcome}
    (scheduled : Scheduled initialPolicy log outcomes sequence digest prepared outcome)
    (more : List Record) (more' : List Outcome) (lengths : outcomes.length = log.length) :
    Scheduled initialPolicy (log ++ more) (outcomes ++ more') sequence digest prepared outcome := by
  obtain ⟨numbered, ⟨record, found, rest⟩, has, earlier, transaction, claims, manifest, serial, prepares⟩ := scheduled
  have inside := (List.getElem?_eq_some_iff.mp found).1
  refine ⟨numbered, ⟨record, ?_, rest⟩, ?_, earlier, transaction, claims, manifest, ?_, prepares⟩
  · rw [List.getElem?_append_left inside, found]
  · rw [List.getElem?_append_left (by omega), has]
  · rw [List.take_append_of_le_length inside.le, List.take_append_of_le_length (by omega)]
    exact serial

namespace Lined

section Positions

variable (lined : Lined initialPolicy log outcomes final frontier ahead entries)

include lined

/-- Every record above the frontier has an entry. -/
theorem entry_at {position : Nat} (above : frontier ≤ position) (inside : position < log.length) :
    ∃ before entry after, entries = before ++ entry :: after ∧ before.length = position - frontier ∧
      entry.sequence = position + 1 := by
  have counted := lined.counted
  have short : position - frontier < entries.length := by omega
  have split : entries = entries.take (position - frontier) ++
      entries[position - frontier] :: entries.drop (position - frontier + 1) := by
    rw [← List.drop_eq_getElem_cons short, List.take_append_drop]
  have length : (entries.take (position - frontier)).length = position - frontier := by
    rw [List.length_take]
    omega
  have numbered := lined.numbered _ _ _ split
  exact ⟨_, _, _, split, length, by omega⟩

/-- Every record above the frontier is a transaction. -/
theorem kinds {position : Nat} {record : Record} (above : frontier ≤ position)
    (found : log[position]? = some record) : uintAt 1 record.bytes 24 = 1 := by
  obtain ⟨before, entry, after, split, -, numbered⟩ :=
    lined.entry_at above (List.getElem?_eq_some_iff.mp found).1
  obtain ⟨prepared, outcome, scheduled, -⟩ := lined.assigned _ _ _ split
  obtain ⟨record', found', -, one⟩ := scheduled.record
  have isPrior : prepared.prior + 1 = position + 1 := scheduled.numbered.trans numbered
  rw [show prepared.prior = position by omega, found] at found'
  cases found'
  exact one

/-- The entry at a position is the record there, resolved with its serial outcome. -/
theorem outcome_at {position : Nat} {entry : Entry} (found : entries[position]? = some entry) :
    entry.sequence = frontier + position + 1 ∧
      ∀ outcome, entry.outcome = some outcome → outcomes[frontier + position]? = some outcome := by
  obtain ⟨inside, rfl⟩ := List.getElem?_eq_some_iff.mp found
  have split : entries = entries.take position ++ entries[position] :: entries.drop (position + 1) := by
    rw [← List.drop_eq_getElem_cons inside, List.take_append_drop]
  have numbered := lined.numbered _ _ _ split
  have length : (entries.take position).length = position := by
    rw [List.length_take]
    omega
  rw [length] at numbered
  refine ⟨numbered, fun outcome isOutcome => ?_⟩
  obtain ⟨prepared, outcome', scheduled, progress⟩ := lined.assigned _ _ _ split
  have isPrior : prepared.prior + 1 = entries[position].sequence := scheduled.numbered
  have has := scheduled.has
  rw [show prepared.prior = frontier + position by omega] at has
  cases progress with
  | unresolved none' =>
      rw [isOutcome] at none'
      cases none'
  | resolved some' =>
      rw [isOutcome] at some'
      cases some'
      exact has

/-- Entries with one sequence are one. -/
theorem unique {before before' after after' : List Entry} {entry entry' : Entry}
    (split : entries = before ++ entry :: after) (split' : entries = before' ++ entry' :: after')
    (same : entry.sequence = entry'.sequence) : before = before' ∧ entry = entry' ∧ after = after' := by
  have numbered := lined.numbered _ _ _ split
  have numbered' := lined.numbered _ _ _ split'
  obtain ⟨rfl, rest⟩ := List.append_inj (split.symm.trans split') (by omega)
  cases rest
  exact ⟨rfl, rfl, rfl⟩

/-- The entries before an entry are those of the records before it. -/
theorem mem_before {before before' after after' : List Entry} {entry entry' : Entry}
    (split : entries = before ++ entry :: after) (split' : entries = before' ++ entry' :: after')
    (earlier : entry'.sequence < entry.sequence) : entry' ∈ before := by
  have numbered := lined.numbered _ _ _ split
  have numbered' := lined.numbered _ _ _ split'
  have same : before[before'.length]? = some entry' := by
    calc before[before'.length]? = entries[before'.length]? := by
          rw [split, List.getElem?_append_left (by omega)]
      _ = some entry' := by
          rw [split', List.getElem?_append_right le_rfl, Nat.sub_self]
          rfl
  exact List.mem_of_getElem? same

end Positions

/-- A change of the entries in their places. -/
theorem map (lined : Lined initialPolicy log outcomes final frontier ahead entries)
    {ahead' : Nat → Option Installed} {change : Entry → Entry}
    (keeps : ∀ entry, (change entry).sequence = entry.sequence)
    (step : ∀ before entry after, entries = before ++ entry :: after →
      Assigned initialPolicy log outcomes ahead before entry →
        Assigned initialPolicy log outcomes ahead' (before.map change) (change entry)) :
    Lined initialPolicy log outcomes final frontier ahead' (entries.map change) := by
  refine ⟨lined.serial, by rw [List.length_map]; exact lined.counted, ?_, ?_⟩
  · intro before entry after split
    obtain ⟨before, rest, rfl, rfl, split'⟩ := List.map_eq_append_iff.mp split
    obtain ⟨entry, after, rfl, rfl, rfl⟩ := List.map_eq_cons_iff.mp split'
    rw [keeps, List.length_map]
    exact lined.numbered _ _ _ rfl
  · intro before entry after split
    obtain ⟨before, rest, rfl, rfl, split'⟩ := List.map_eq_append_iff.mp split
    obtain ⟨entry, after, rfl, rfl, rfl⟩ := List.map_eq_cons_iff.mp split'
    exact step _ _ _ rfl (lined.assigned _ _ _ rfl)

end Lined

/-! ## Dispatch -/

/-- Take the preparation out of the entry of a sequence. -/
def withoutPreparation (sequence : Nat) (entry : Entry) : Entry :=
  if entry.sequence = sequence then { entry with prepared := none } else entry

omit [Sha256] in
theorem waitsFor_withoutPreparation (sequence : Nat) (entries : List Entry) (manifest : AccessManifest) :
    waitsFor (entries.map (withoutPreparation sequence)) manifest = waitsFor entries manifest := by
  induction entries with
  | nil => rfl
  | cons entry entries ih =>
      simp only [waitsFor] at ih
      simp only [waitsFor, List.map_cons, List.filter_cons]
      have same : (withoutPreparation sequence entry).outcome = entry.outcome ∧
          (withoutPreparation sequence entry).writes = entry.writes ∧
          (withoutPreparation sequence entry).sequence = entry.sequence := by
        unfold withoutPreparation
        split_ifs <;> exact ⟨rfl, rfl, rfl⟩
      rw [same.1, same.2.1]
      split_ifs
      · rw [List.map_cons, List.map_cons, same.2.2, ih]
      · exact ih

/-- An entry without its preparation stays on its way. -/
theorem Lined.dispatched (lined : Lined initialPolicy log outcomes final frontier ahead entries) (sequence : Nat) :
    Lined initialPolicy log outcomes final frontier ahead (entries.map (withoutPreparation sequence)) := by
  refine lined.map (fun entry => by unfold withoutPreparation; split_ifs <;> rfl) ?_
  rintro before entry after - ⟨prepared, outcome, scheduled, progress⟩
  unfold withoutPreparation
  split_ifs with same
  · refine ⟨prepared, outcome, scheduled, ?_⟩
    cases progress with
    | unresolved none' taken writes dependencies absent =>
        refine .unresolved none' nofun writes ?_ absent
        exact dependencies.trans (waitsFor_withoutPreparation sequence before prepared.manifest).symm
    | resolved some' taken present => exact .resolved some' rfl present
  · refine ⟨prepared, outcome, scheduled, ?_⟩
    cases progress with
    | unresolved none' taken writes dependencies absent =>
        refine .unresolved none' taken writes ?_ absent
        exact dependencies.trans (waitsFor_withoutPreparation sequence before prepared.manifest).symm
    | resolved some' taken present => exact .resolved some' taken present

/-- On live roots where nothing is left to wait for, a transaction returns its serial
outcome. -/
theorem interpretPrepared_serial [Crc32c] {course : Course} (exact : course.Exact initialPolicy)
    (lined : Lined initialPolicy course.source.journal course.outcomes course.final course.source.frontier
      course.source.ahead entries) (split : entries = before ++ entry :: after) {prepared : PreparedTransaction}
    {outcome : Outcome}
    (scheduled : Scheduled initialPolicy course.source.journal course.outcomes entry.sequence entry.digest prepared
      outcome) (independent : waitsFor before prepared.manifest = []) :
    Vm.interpretPrepared course.source.store.view prepared = some (.ok outcome) := by
  have numbered := lined.numbered _ _ _ split
  have isPrior : prepared.prior + 1 = entry.sequence := scheduled.numbered
  obtain ⟨record, found, -⟩ := scheduled.record
  obtain ⟨earlier, transaction, claims, manifest, serial, prepares, ran⟩ := scheduled.ran
  have inside := (List.getElem?_eq_some_iff.mp found).1
  have small := exact.length_lt
  have length : (course.source.journal.take prepared.prior).length = prepared.prior := by
    rw [List.length_take]
    omega
  rw [← ran]
  apply Vm.interpretPrepared_congr prepares (by omega) exact.sound.uncorrupted (serial.presents (by omega)).uncorrupted
  intro address covered
  obtain ⟨positive, bounded⟩ := Vm.covered_table prepares covered
  refine exact.get_eq (by omega) inside.le serial positive bounded fun position above below => ?_
  -- Each earlier record is installed, or its writes do not overlap the reads.
  intro record' outcome' found' has'
  obtain ⟨before', entry', after', split', -, numbered'⟩ :=
    lined.entry_at above (List.getElem?_eq_some_iff.mp found').1
  have member := lined.mem_before split split' (by omega)
  obtain ⟨prepared', outcome'', scheduled', progress⟩ := lined.assigned _ _ _ split'
  have isPrior' : prepared'.prior + 1 = entry'.sequence := scheduled'.numbered
  have isPosition : prepared'.prior = position := by omega
  have has := scheduled'.has
  rw [isPosition, has'] at has
  cases has
  cases progress with
  | resolved some' taken present =>
      obtain ⟨bytes, present⟩ := present
      rw [numbered'] at present
      exact .inl ⟨_, present, rfl⟩
  | unresolved none' taken writes dependencies absent =>
      rw [numbered'] at absent
      refine .inr ⟨absent, ?_⟩
      obtain ⟨earlier', _, _, _, -, prepares', ran'⟩ := scheduled'.ran
      have inside' := Vm.interpretPrepared_writes prepares' ran'
      rw [← writes] at inside'
      refine unwritten_of_disjoint covered inside' ?_
      by_contra overlapping
      have waits : entry'.sequence ∈ waitsFor before prepared.manifest := by
        refine List.mem_map.mpr ⟨entry', List.mem_filter.mpr ⟨member, ?_⟩, rfl⟩
        rw [none', Bool.not_eq_false] at *
        simp [overlapping]
      rw [independent] at waits
      cases waits

/-! ## Completion -/

/-- One entry of `resolveEntries`. -/
def resolveEntry (sequence : Nat) (outcome : Outcome) (entry : Entry) : Entry :=
  let entry := if entry.sequence = sequence then { entry with outcome := some outcome, writes := [] } else entry
  { entry with dependencies := entry.dependencies.filter (· ≠ sequence) }

omit [Sha256] in
theorem resolveEntry_sequence (sequence : Nat) (outcome : Outcome) (entry : Entry) :
    (resolveEntry sequence outcome entry).sequence = entry.sequence := by
  unfold resolveEntry
  split_ifs <;> rfl

omit [Sha256] in
/-- A resolved record is waited for no longer. -/
theorem waitsFor_resolveEntry (sequence : Nat) (outcome : Outcome) (entries : List Entry) (manifest : AccessManifest) :
    waitsFor (entries.map (resolveEntry sequence outcome)) manifest =
      (waitsFor entries manifest).filter (· ≠ sequence) := by
  induction entries with
  | nil => rfl
  | cons entry entries ih =>
      simp only [waitsFor] at ih
      simp only [waitsFor, List.map_cons, List.filter_cons]
      by_cases same : entry.sequence = sequence
      · have resolved : (resolveEntry sequence outcome entry).outcome = some outcome := by
          simp only [resolveEntry, if_pos same]
        rw [resolved]
        simp only [Option.isNone_some, Bool.false_and, Bool.false_eq_true, if_false]
        rw [ih]
        split_ifs
        · rw [List.map_cons, List.filter_cons_of_neg (by simp [same])]
        · rfl
      · have kept : (resolveEntry sequence outcome entry).outcome = entry.outcome ∧
            (resolveEntry sequence outcome entry).writes = entry.writes := by
          simp only [resolveEntry, if_neg same, and_self]
        rw [kept.1, kept.2]
        split_ifs
        · rw [List.map_cons, List.map_cons, resolveEntry_sequence, List.filter_cons_of_pos (by simp [same]), ih]
        · exact ih

/-- An installed outcome resolves its entry. -/
theorem Lined.settled (lined : Lined initialPolicy log outcomes final frontier ahead entries)
    (split : entries = before ++ entry :: after) {outcome : Outcome} {bytes : Bytes}
    (has : outcomes[entry.sequence - 1]? = some outcome) (taken : entry.prepared = none) :
    Lined initialPolicy log outcomes final frontier
      (Function.update ahead entry.sequence (some ⟨entry.digest.1, 1, outcome, bytes⟩))
      (resolveEntries entry.sequence outcome entries) := by
  refine @Lined.map _ _ _ _ _ _ _ _ lined _ (resolveEntry entry.sequence outcome) (resolveEntry_sequence _ _) ?_
  rintro before' entry' after' split' ⟨prepared, outcome', scheduled, progress⟩
  have isPrior : prepared.prior + 1 = entry'.sequence := scheduled.numbered
  by_cases same : entry'.sequence = entry.sequence
  · obtain ⟨-, rfl, -⟩ := lined.unique split' split same
    have has' := scheduled.has
    rw [show prepared.prior = entry'.sequence - 1 by omega, has] at has'
    cases has'
    refine ⟨prepared, outcome, ?_, .resolved ?_ ?_ ⟨bytes, ?_⟩⟩
    · simpa only [resolveEntry, if_pos] using scheduled
    · simp only [resolveEntry, if_pos]
    · simpa only [resolveEntry, if_pos] using taken
    · simp only [resolveEntry, if_pos, Function.update_self]
  · refine ⟨prepared, outcome', ?_, ?_⟩
    · simpa only [resolveEntry, if_neg same] using scheduled
    · cases progress with
      | unresolved none' taken' writes dependencies absent =>
          refine .unresolved ?_ ?_ ?_ ?_ ?_
          · simpa only [resolveEntry, if_neg same] using none'
          · simpa only [resolveEntry, if_neg same] using taken'
          · simpa only [resolveEntry, if_neg same] using writes
          · simp only [resolveEntry, if_neg same, dependencies]
            exact (waitsFor_resolveEntry _ _ _ _).symm
          · simpa only [resolveEntry, if_neg same, Function.update_of_ne same] using absent
      | resolved some' taken' present =>
          refine .resolved ?_ ?_ ?_
          · simpa only [resolveEntry, if_neg same] using some'
          · simpa only [resolveEntry, if_neg same] using taken'
          · simpa only [resolveEntry, if_neg same, Function.update_of_ne same] using present

/-- The frontier passes a resolved entry. -/
theorem Lined.passed {rest : List Entry} (lined : Lined initialPolicy log outcomes final frontier ahead (entry :: rest))
    {outcome : Outcome} (resolved : entry.outcome = some outcome) :
    Lined initialPolicy log outcomes final (frontier + 1) (Function.update ahead (frontier + 1) none) rest := by
  have counted := lined.counted
  rw [List.length_cons] at counted
  refine ⟨lined.serial, by omega, ?_, ?_⟩
  · intro before other after split
    have numbered := lined.numbered (entry :: before) other after (by rw [split]; rfl)
    rw [List.length_cons] at numbered
    omega
  · intro before other after split
    obtain ⟨prepared, outcome', scheduled, progress⟩ :=
      lined.assigned (entry :: before) other after (by rw [split]; rfl)
    have numbered := lined.numbered (entry :: before) other after (by rw [split]; rfl)
    rw [List.length_cons] at numbered
    have different : other.sequence ≠ frontier + 1 := by omega
    refine ⟨prepared, outcome', scheduled, ?_⟩
    cases progress with
    | unresolved none' taken writes dependencies absent =>
        refine .unresolved none' taken writes (dependencies.trans ?_) (by rw [Function.update_of_ne different]; exact absent)
        simp only [waitsFor, List.filter_cons, resolved, Option.isNone_some, Bool.false_and, Bool.false_eq_true, if_false]
    | resolved some' taken present =>
        exact .resolved some' taken (by rw [Function.update_of_ne different]; exact present)

/-! ## Registration -/

/-- The entry of a prepared transaction. -/
def newEntry (entries : List Entry) (ticket : Nat) (prepared : Prepared) : Entry where
  sequence := prepared.transaction.sequence
  digest := sha256 prepared.bytes
  writes := prepared.transaction.manifest.writes
  dependencies := waitsFor entries prepared.transaction.manifest
  prepared := some prepared.transaction
  outcome := none
  ticket := ticket
  bytes := prepared.bytes.length
  reservation := prepared.reservation

/-- A prepared transaction becomes the last entry. -/
theorem Lined.assigned_next (lined : Lined initialPolicy log outcomes final frontier ahead entries) {command : Command}
    {prepared : Prepared} (sequenced : Sequenced log final command prepared)
    (fresh : ahead (log.length + 1) = none) (ticket : Nat) :
    ∃ outcome after, Lined initialPolicy (log ++ [prepared.logged]) (outcomes ++ [outcome]) after frontier ahead
      (entries ++ [newEntry entries ticket prepared]) ∧ Vm.SameMetadata final after := by
  have numbered : prepared.logged.sequence = log.length + 1 := sequenced.numbered
  have isPrior : prepared.transaction.prior = log.length := Nat.succ.inj numbered
  have small := sequenced.small
  have valid := sequenced.valid
  rw [← numbered] at valid
  obtain ⟨outcome, after, executed, serial⟩ := lined.serial.extend small numbered sequenced.decoded valid
  obtain ⟨transaction, claims, isCommand, found⟩ := sequenced.found
  obtain ⟨-, -, computed, -⟩ := execute_eq_ok.mp executed
  rw [numbered, isCommand, Command.outcome, found] at computed
  have metadata := sameMetadata_of_execute (numbered ▸ small) (by rw [isCommand]; rfl) executed
  refine ⟨outcome, after, ⟨serial, ?_, ?_, ?_⟩, metadata⟩
  · have := lined.counted
    simp only [List.length_append, List.length_singleton]
    omega
  · intro before entry after split
    rcases List.eq_nil_or_concat after with rfl | ⟨after, last, rfl⟩
    · obtain ⟨rfl, same⟩ := List.append_inj' split rfl
      cases same
      have := lined.counted
      change prepared.logged.sequence = _
      omega
    · rw [List.concat_eq_append, ← List.cons_append, ← List.append_assoc] at split
      obtain ⟨rfl, -⟩ := List.append_inj' split rfl
      exact lined.numbered _ _ _ rfl
  · intro before entry after split
    rcases List.eq_nil_or_concat after with rfl | ⟨after, last, rfl⟩
    · obtain ⟨rfl, same⟩ := List.append_inj' split rfl
      cases same
      refine ⟨prepared.transaction, outcome, ⟨rfl, ⟨prepared.logged, ?_, rfl, sequenced.kind⟩, ?_, final, transaction,
        claims, some prepared.transaction.manifest, ?_, ?_, computed⟩, .unresolved rfl ?_ rfl rfl ?_⟩
      · rw [isPrior, List.getElem?_append_right le_rfl, Nat.sub_self]
        rfl
      · rw [isPrior, ← lined.serial.length_eq, List.getElem?_append_right le_rfl, Nat.sub_self]
        rfl
      · rw [isPrior, List.take_left, ← lined.serial.length_eq, List.take_left]
        exact lined.serial
      · change Vm.prepareTransaction final prepared.logged.sequence _ _ _ = _
        rw [numbered]
        exact found
      · rintro held ⟨⟩
        rfl
      · change ahead prepared.logged.sequence = none
        rw [numbered]
        exact fresh
    · rw [List.concat_eq_append, ← List.cons_append, ← List.append_assoc] at split
      obtain ⟨rfl, -⟩ := List.append_inj' split rfl
      obtain ⟨prepared', outcome', scheduled, progress⟩ := lined.assigned _ _ _ rfl
      exact ⟨prepared', outcome', scheduled.mono _ _ lined.serial.length_eq, progress⟩

end BlopDb.Engine
