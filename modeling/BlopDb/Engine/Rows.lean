/-
# Rows of the serial state

What a row holds after a number of records is a fold over their effects.  The
serial trees keep enough versions to read it back at every sequence from the
history floor to the frontier, and the records installed ahead of the frontier do
not disturb such a read.
-/

import BlopDb.Engine.Visible

namespace BlopDb.Engine

open BlopDb.Lib
open Storage (LimitPolicy TreeId View maxU64)
open Storage.Mvcc (Holds Newest Readable Selects Uncorrupted seekKey valuePayload)
open Vm (Effect Ledger Outcome OutcomeRecord RecordFits Wrote)
open Vm.Database (effectEntry finalEffects)

/-! ## The fold of effects -/

/-- What an effect leaves in a row, if it writes that row. -/
def effectOn (table : Nat) (key : Bytes) : Effect → Option (Option Bytes)
  | .put table' key' value => if table' = table ∧ key' = key then some (some value) else none
  | .delete table' key' => if table' = table ∧ key' = key then some none else none
  | .catalogue _ _ | .limits _ => none

/-- What a record leaves in a row, if it writes that row. -/
def writtenRow (record : OutcomeRecord) (table : Nat) (key : Bytes) : Option (Option Bytes) :=
  (finalEffects record.outcome).findSome? (effectOn table key)

/-- What a row holds after the records. -/
def rowAfter (records : List OutcomeRecord) (table : Nat) (key : Bytes) : Option Bytes :=
  records.foldl (fun row record => (writtenRow record table key).getD row) none

theorem rowAfter_append (records : List OutcomeRecord) (record : OutcomeRecord) (table : Nat)
    (key : Bytes) :
    rowAfter (records ++ [record]) table key =
      (writtenRow record table key).getD (rowAfter records table key) := by
  rw [rowAfter, List.foldl_append]
  rfl

/-- The stored form of an effect on a row. -/
theorem effectOn_eq_some {sequence kind table : Nat} {key : Bytes} {effect : Effect}
    {payload : Option Bytes} (valid : Outcome.validateEffect sequence kind effect = .ok ()) :
    effectOn table key effect = some payload →
      ∃ encoded, effectEntry sequence effect = .ok (.state, seekKey table key sequence, encoded) ∧
        valuePayload encoded = .ok payload := by
  cases effect with
  | put table' key' value =>
      intro written
      rw [effectOn] at written
      split_ifs at written with same
      obtain ⟨rfl, rfl⟩ := same
      cases written
      by_cases one : kind = 1
      · subst one
        obtain ⟨⟨⟩, -, size⟩ := bind_eq_ok.mp valid
        exact ⟨_, Vm.Database.effectEntry_put valid,
          Vm.History.valuePayload_putBytes (not_lt.mp (refuse_eq_ok.mp size))⟩
      · rw [Outcome.validateEffect, if_neg one] at valid
        cases valid
  | delete table' key' =>
      intro written
      rw [effectOn] at written
      split_ifs at written with same
      obtain ⟨rfl, rfl⟩ := same
      cases written
      by_cases one : kind = 1
      · subst one
        exact ⟨_, Vm.Database.effectEntry_delete valid, rfl⟩
      · rw [Outcome.validateEffect, if_neg one] at valid
        cases valid
  | catalogue =>
      intro written
      cases written
  | limits =>
      intro written
      cases written

/-- The row that a stored effect writes. -/
theorem effectOn_of_entry {sequence kind : Nat} {effect : Effect} {entry : Storage.Entry}
    (valid : Outcome.validateEffect sequence kind effect = .ok ())
    (stored : effectEntry sequence effect = .ok (.state, entry)) :
    ∃ table key payload, table < sequence ∧ entry.1 = seekKey table key sequence ∧
      valuePayload entry.2 = .ok payload ∧ effectOn table key effect = some payload := by
  cases effect with
  | put table key value =>
      by_cases one : kind = 1
      · subst one
        obtain ⟨⟨⟩, address, size⟩ := bind_eq_ok.mp valid
        rw [Vm.Database.effectEntry_put valid] at stored
        cases stored
        exact ⟨table, key, some value, (Outcome.validateAddress_eq_ok.mp address).2.2.2.2, rfl,
          Vm.History.valuePayload_putBytes (not_lt.mp (refuse_eq_ok.mp size)), if_pos ⟨rfl, rfl⟩⟩
      · rw [Outcome.validateEffect, if_neg one] at valid
        cases valid
  | delete table key =>
      by_cases one : kind = 1
      · subst one
        rw [Vm.Database.effectEntry_delete valid] at stored
        cases stored
        exact ⟨table, key, none, (Outcome.validateAddress_eq_ok.mp valid).2.2.2.2, rfl, rfl,
          if_pos ⟨rfl, rfl⟩⟩
      · rw [Outcome.validateEffect, if_neg one] at valid
        cases valid
  | catalogue => cases stored
  | limits => cases stored

/-- A record writes a row once, as the payload of its version. -/
theorem writtenRow_eq_some {view : View} {record : OutcomeRecord} (fits : RecordFits view record)
    {table : Nat} {key : Bytes} (small : table ≤ maxU64) {payload : Option Bytes} :
    writtenRow record table key = some payload ↔
      ∃ encoded, Wrote record .state (seekKey table key record.sequence, encoded) ∧
        valuePayload encoded = .ok payload := by
  constructor
  · intro written
    obtain ⟨effect, member, on⟩ := List.exists_of_findSome?_eq_some written
    obtain ⟨encoded, stored, decoded⟩ := effectOn_eq_some (fits.valid effect member) on
    exact ⟨encoded, ⟨effect, member, stored⟩, decoded⟩
  · rintro ⟨encoded, ⟨effect, member, stored⟩, decoded⟩
    obtain ⟨table', key', payload', below, same, decoded', on⟩ :=
      effectOn_of_entry (fits.valid effect member) stored
    have less := fits.small
    obtain ⟨rfl, rfl, -⟩ := Storage.Mvcc.seekKey_inj small (below.trans less).le less same
    rw [decoded] at decoded'
    cases decoded'
    -- The first effect on the row is the only one, since addresses are distinct.
    cases found : writtenRow record table key with
    | none => exact absurd on (by simp [List.findSome?_eq_none_iff.mp found effect member])
    | some other =>
        obtain ⟨effect', member', on'⟩ := List.exists_of_findSome?_eq_some found
        obtain ⟨encoded', stored', -⟩ := effectOn_eq_some (fits.valid effect' member') on'
        have address := Vm.Database.effectEntry_inj less (fits.valid effect member)
          (fits.valid effect' member') stored stored'
        obtain rfl : effect = effect' :=
          List.inj_on_of_nodup_map (List.pairwise_map.mpr fits.distinct) member member' address
        rw [on] at on'
        exact on'.symm

/-! ## Reads of a ledger -/

/-- A read depends on the versions at or before its sequence. -/
theorem selects_congr {view view' : View} {table sequence : Nat} {key : Bytes}
    (same : ∀ stored ≤ sequence, ∀ payload, Holds (view.roots .state).entries table key stored payload ↔
      Holds (view'.roots .state).entries table key stored payload) {result : Option Bytes} :
    Selects view table key sequence result ↔ Selects view' table key sequence result := by
  refine or_congr ⟨?_, ?_⟩ (and_congr_right fun _ => forall₃_congr fun stored seen payload =>
    not_congr (same stored seen payload))
  · rintro ⟨stored, seen, holds, most⟩
    exact ⟨stored, seen, (same stored seen _).mp holds, fun other within payload holds' =>
      most other within payload ((same other within payload).mpr holds')⟩
  · rintro ⟨stored, seen, holds, most⟩
    exact ⟨stored, seen, (same stored seen _).mpr holds, fun other within payload holds' =>
      most other within payload ((same other within payload).mp holds')⟩

section Ledgers

variable {initialPolicy : LimitPolicy} {records : List OutcomeRecord} {last : Bytes} {floor : Nat}
variable {view : View}

/-- The state of a ledger decodes. -/
theorem uncorrupted_of_ledger (ledger : Ledger initialPolicy records last floor view) :
    Uncorrupted view := by
  intro entry member
  refine ⟨ledger.keysDecode entry member, ?_⟩
  rcases ledger.written (show TreeId.state ≠ .outcomes from nofun) member with
    ⟨tree, -⟩ | ⟨record, inRecords, effect, inEffects, stored⟩
  · cases tree
  · obtain ⟨_, _, payload, -, -, decoded, -⟩ :=
      effectOn_of_entry ((ledger.fits record inRecords).valid effect inEffects) stored
    exact ⟨payload, decoded⟩

/-- A version that a record wrote is the row it leaves. -/
theorem row_of_wrote {record : OutcomeRecord} (fits : RecordFits view record) {table stored : Nat}
    {key encoded : Bytes} {payload : Option Bytes} (small : table ≤ maxU64)
    (wrote : Wrote record .state (seekKey table key stored, encoded))
    (decoded : valuePayload encoded = .ok payload) :
    stored = record.sequence ∧ writtenRow record table key = some payload := by
  rcases wrote.cases fits with ⟨-, -, stateKey, valid, isSequence, shape⟩ | ⟨-, tree, -⟩ | ⟨-, tree, -⟩
  · obtain ⟨-, -, same⟩ := Storage.Mvcc.seekKey_inj small valid.table_lt.le
      (isSequence ▸ fits.small) shape
    obtain rfl : stored = record.sequence := same.trans isSequence
    exact ⟨rfl, (writtenRow_eq_some fits small).mpr ⟨encoded, wrote, decoded⟩⟩
  · cases tree
  · cases tree

/-- The rows of a ledger between its floor and its last record. -/
def RowsExact (records : List OutcomeRecord) (floor : Nat) (view : View) : Prop :=
  ∀ (table sequence : Nat) (key : Bytes), Readable table key sequence → floor ≤ sequence →
    sequence ≤ records.length →
    Selects view table key sequence (rowAfter (records.take sequence) table key)

/-- A further record in order. -/
theorem RowsExact.record {after : View} {record : OutcomeRecord} {last' : Bytes}
    (exact : RowsExact records floor view) (covered : floor ≤ records.length)
    (old : Ledger initialPolicy records last floor view)
    (new : Ledger initialPolicy (records ++ [record]) last' floor after)
    (kept : ∀ entry, entry ∈ (after.roots .state).entries ↔
      entry ∈ (view.roots .state).entries ∨ Wrote record .state entry) :
    RowsExact (records ++ [record]) floor after := by
  intro table sequence key readable above below
  have fits := new.fits record (by simp)
  have isSequence : record.sequence = records.length + 1 :=
    new.numbered (by rw [List.getElem?_append_right le_rfl, Nat.sub_self]; rfl)
  have small := fits.small
  -- The trees gain the row of the new record, at its own sequence.
  have holds {stored : Nat} {payload : Option Bytes} :
      Holds (after.roots .state).entries table key stored payload ↔
        Holds (view.roots .state).entries table key stored payload ∨
          stored = records.length + 1 ∧ writtenRow record table key = some payload := by
    constructor
    · rintro ⟨encoded, member, decoded⟩
      rcases (kept _).mp member with earlier | wrote
      · exact .inl ⟨encoded, earlier, decoded⟩
      · obtain ⟨rfl, written⟩ := row_of_wrote fits readable.table_lt.le wrote decoded
        exact .inr ⟨isSequence, written⟩
    · rintro (⟨encoded, member, decoded⟩ | ⟨rfl, written⟩)
      · exact ⟨encoded, (kept _).mpr (.inl member), decoded⟩
      · obtain ⟨encoded, wrote, decoded⟩ := (writtenRow_eq_some fits readable.table_lt.le).mp written
        rw [isSequence] at wrote
        exact ⟨encoded, (kept _).mpr (.inr wrote), decoded⟩
  rw [List.length_append, List.length_singleton] at below
  rcases Nat.lt_succ_iff_lt_or_eq.mp (Nat.lt_succ_of_le below) with before | rfl
  · -- Reads before the new record see the same versions.
    rw [List.take_append_of_le_length (Nat.le_of_lt_succ before)]
    refine (selects_congr fun stored seen payload => ?_).mp
      (exact table sequence key readable above (Nat.le_of_lt_succ before))
    rw [holds]
    exact (or_iff_left fun new => by omega).symm
  · rw [List.take_of_length_le (by simp), rowAfter_append]
    cases written : writtenRow record table key with
    | some payload =>
        refine .inl ⟨records.length + 1, le_rfl, holds.mpr (.inr ⟨rfl, written⟩), ?_⟩
        exact fun other within _ _ => within
    | none =>
        have earlier := exact table records.length key
          ⟨readable.table_pos, readable.table_lt, by omega, readable.key_le⟩ covered le_rfl
        rw [List.take_length] at earlier
        have same {stored : Nat} {payload : Option Bytes} :
            Holds (after.roots .state).entries table key stored payload ↔
              Holds (view.roots .state).entries table key stored payload := by
          rw [holds, written]
          exact or_iff_left fun new => nomatch new.2
        have old' {stored : Nat} {payload : Option Bytes}
            (within : stored ≤ records.length + 1)
            (present : Holds (view.roots .state).entries table key stored payload) :
            stored ≤ records.length := by
          obtain ⟨encoded, member, decoded⟩ := present
          rcases old.written (show TreeId.state ≠ .outcomes from nofun) member with
            ⟨tree, -⟩ | ⟨writer, inRecords, wrote⟩
          · cases tree
          · obtain ⟨rfl, -⟩ := row_of_wrote (old.fits writer inRecords) readable.table_lt.le wrote
              decoded
            exact (old.sequence_le inRecords).2
        rcases earlier with ⟨stored, seen, present, most⟩ | ⟨isNone, absent⟩
        · exact .inl ⟨stored, by omega, same.mpr present, fun other within payload holds' =>
            most other (old' within (same.mp holds')) payload (same.mp holds')⟩
        · exact .inr ⟨isNone, fun stored within payload holds' =>
            absent stored (old' within (same.mp holds')) payload (same.mp holds')⟩

/-- Collection keeps the rows from its floor on. -/
theorem RowsExact.collect {after : View} {floor' frontier : Nat} {removed : Nat × Nat}
    (exact : RowsExact records floor view) (ledger : Ledger initialPolicy records last floor view)
    (collected : Storage.Collect.collectView false floor view floor' frontier = .ok (after, removed))
    (covered : frontier ≤ records.length) : RowsExact records floor' after := by
  intro table sequence key readable above below
  have later := ledger.collect covered collected
  have allowed : floor' ≤ frontier ∧ floor ≤ floor' := by
    obtain ⟨⟨⟩, -, rest⟩ := bind_eq_ok.mp collected
    obtain ⟨⟨⟩, allowed, -⟩ := bind_eq_ok.mp rest
    rw [refuse_eq_ok, not_or, not_lt, not_lt] at allowed
    exact allowed
  obtain ⟨state, -, -⟩ := Storage.Collect.collectView_eq_ok ledger.keysDecode collected
  have before := (Storage.Mvcc.get_eq_ok_iff (uncorrupted_of_ledger ledger) readable).mpr
    (exact table sequence key readable (allowed.2.trans above) below)
  have same := @Storage.Collect.get_protected floor' table sequence key view after state readable.table_lt.le
    readable.sequence_lt.le above
  exact (Storage.Mvcc.get_eq_ok_iff (uncorrupted_of_ledger later) readable).mp (same.trans before)

end Ledgers

/-! ## Reads of a running engine -/

variable [Crc32c] [Sha256] {initialPolicy : LimitPolicy} {source : Source}

/-- Every step keeps the rows of the serial trees. -/
theorem Step.rows {next : Source} (step : Step source next) (sound : source.Sound initialPolicy)
    (rows : RowsExact source.resolved source.store.manifest.historyFloor source.serial) :
    RowsExact next.resolved next.store.manifest.historyFloor next.serial := by
  obtain ⟨last, ledger⟩ := sound.ledger
  obtain ⟨last', ledger'⟩ := (step.sound sound).ledger
  cases step with
  | append appended =>
      obtain ⟨append, list, plans, -, -, isManifest⟩ := appendWal_ok appended
      obtain ⟨-, -, -, -, history, -⟩ := plans_next plans
      simp only [isManifest, history]
      exact rows
  | install => exact rows
  | @advance installed command serial present kinded computed ordered =>
      obtain ⟨-, logged, encoded⟩ := sound.pending present
      obtain ⟨-, bounded, -⟩ := sound.logged_le logged
      have small : source.frontier + 1 < maxU64 := lt_of_le_of_lt bounded sound.small
      obtain ⟨bytes, installs⟩ := Vm.Database.install_installs small ordered
      refine rows.record ledger.covered ledger ledger' fun entry => ?_
      rw [Installs.entries_of_fresh installs (fun entry member =>
        sound.fresh_serial (Nat.lt_succ_self _) small member) entry]
      refine or_congr_right ⟨?_, ?_⟩
      · rintro (⟨tree, -⟩ | ⟨effect, member, stored⟩)
        · cases tree
        · exact ⟨effect, Vm.mem_canonical.mpr member, stored⟩
      · rintro ⟨effect, member, stored⟩
        exact .inr ⟨effect, Vm.mem_canonical.mp member, stored⟩
  | publish _ _ _ _ history _ =>
      simp only [history]
      exact rows
  | maintain drained collected ordered _ _ _ _ _ history =>
      have covered : source.frontier ≤ source.resolved.length := sound.counted.ge
      simp only [history]
      exact rows.collect ledger ordered covered

/-- The serial trees of every reachable source read back its rows. -/
theorem Running.rows (running : Running initialPolicy source) :
    RowsExact source.resolved source.store.manifest.historyFloor source.serial := by
  induction running with
  | genesis valid empty new =>
      intro table sequence key readable above below
      refine .inr ⟨by rw [Source.genesis, List.take_nil]; rfl, ?_⟩
      rintro stored - payload ⟨encoded, member, -⟩
      cases member
  | step running step ih => exact step.rows running.sound ih

/-- The live state decodes, also what is ahead of the frontier. -/
theorem Source.Sound.uncorrupted (sound : source.Sound initialPolicy) :
    Uncorrupted source.store.view := by
  intro entry member
  obtain ⟨last, ledger⟩ := sound.ledger
  rcases (sound.live (show TreeId.state ≠ .cursors from nofun) entry).mp member with
    old | ⟨sequence, installed, present, writes⟩
  · exact uncorrupted_of_ledger ledger entry old
  · obtain ⟨-, logged, encoded⟩ := sound.pending present
    have bounded := sound.logged_le logged
    have small := sound.small
    rcases writes with ⟨tree, -⟩ | ⟨effect, inEffects, stored⟩
    · cases tree
    · have valid := (Vm.Database.encodeOutcome_effects encoded).1 effect inEffects
      obtain ⟨table, key, payload, below, shape, decoded, -⟩ := effectOn_of_entry valid stored
      have inside : sequence < maxU64 := by omega
      refine ⟨?_, payload, decoded⟩
      rcases Vm.Database.effectEntry_cases valid stored with ⟨one, -, -, same⟩ | ⟨-, tree, -⟩ | ⟨-, tree, -⟩
      · rw [one] at valid
        obtain ⟨positive, -, -, short, below'⟩ :=
          Outcome.validateAddress_eq_ok.mp (Vm.validateAddress_of_valid valid)
        have valid : Storage.Mvcc.StateKey.Valid ⟨(Outcome.effectAddress effect).table,
            (Outcome.effectAddress effect).key, sequence⟩ :=
          ⟨positive, below'.trans inside, inside, short, below'⟩
        have read := Storage.Mvcc.StateKey.decode_encode valid
        rw [Storage.Mvcc.StateKey.encode, ← same] at read
        exact ⟨_, read⟩
      · cases tree
      · cases tree

/-- A read of the live roots at the frontier answers from the records in order. -/
theorem Source.Sound.selects (sound : source.Sound initialPolicy)
    (rows : RowsExact source.resolved source.store.manifest.historyFloor source.serial)
    {table : Nat} {key : Bytes} (readable : Readable table key source.frontier) :
    Selects source.store.view table key source.frontier (rowAfter source.resolved table key) := by
  have counted := sound.counted
  obtain ⟨last, ledger⟩ := sound.ledger
  have serial := rows table source.frontier key readable (counted ▸ ledger.covered) counted.ge
  rw [← counted, List.take_length, counted] at serial
  refine (selects_congr fun stored seen payload => ?_).mp serial
  -- A version ahead of the frontier has a sequence of its own.
  have same (encoded : Bytes) :
      (seekKey table key stored, encoded) ∈ (source.serial.roots .state).entries ↔
        (seekKey table key stored, encoded) ∈ (source.store.view.roots .state).entries := by
    rw [sound.live (show TreeId.state ≠ .cursors from nofun), or_iff_left]
    rintro ⟨sequence, installed, present, writes⟩
    obtain ⟨above, logged, written⟩ := sound.pending present
    obtain ⟨table', row, below, shape⟩ := writes.dated written
    have bounded := sound.logged_le logged
    have small := sound.small
    obtain ⟨-, -, rfl⟩ := Storage.Mvcc.seekKey_inj readable.table_lt.le (show table' ≤ maxU64 by omega)
      (show sequence < maxU64 by omega) shape
    omega
  exact exists_congr fun encoded => and_congr_left fun _ => same encoded

theorem Running.selects (running : Running initialPolicy source) {table : Nat} {key : Bytes}
    (readable : Readable table key source.frontier) :
    Selects source.store.view table key source.frontier (rowAfter source.resolved table key) :=
  running.sound.selects running.rows readable

end BlopDb.Engine
