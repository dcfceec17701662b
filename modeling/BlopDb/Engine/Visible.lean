/-
# Reads at visible sequences

Records ahead of the frontier have entries of their own sequences only, so every
read at a visible sequence answers from the serial state.  In particular a
retained visible record reads as the outcome it was resolved with.
-/

import BlopDb.Engine.SourceSound
import BlopDb.Vm.SchemaAgreement
import BlopDb.Vm.ValidateSound

namespace BlopDb.Engine

open BlopDb.Lib
open Storage (LimitPolicy TreeId View maxU64)
open Vm (CatalogueVersion Effect Ledger Outcome OutcomeRecord Table Typed Wrote)
open Vm.Database (Keyed Latest Stored VersionEntry catalogueKey effectEntry finalEffects)

variable [Crc32c] [Sha256] {initialPolicy : LimitPolicy} {source : Source}

/-- Live and serial roots have the same entries of visible sequences. -/
theorem Source.Sound.visible (sound : source.Sound initialPolicy) {tree : TreeId}
    (logical : tree ≠ .cursors) {sequence : Nat} (seen : sequence ≤ source.frontier)
    {entry : Storage.Entry} (dated : Dated tree sequence entry.1) :
    entry ∈ (source.store.view.roots tree).entries ↔ entry ∈ (source.serial.roots tree).entries := by
  refine (sound.live logical entry).trans ⟨?_, .inl⟩
  rintro (old | ⟨sequence', installed, present, writes⟩)
  · exact old
  · obtain ⟨above, logged, encoded⟩ := sound.pending present
    have bounded := sound.logged_le logged
    have small := sound.small
    have := Dated.unique (by omega) (by omega) dated (writes.dated encoded)
    omega

/-! ## Tables -/

/-- The live catalogue holds versions only, also of records ahead. -/
theorem Source.Sound.keyed (sound : source.Sound initialPolicy) :
    Keyed source.store.view source.store.manifest.durableSequence := by
  obtain ⟨last, ledger⟩ := sound.ledger
  have durable := sound.durable
  have counted := sound.counted
  refine ⟨sound.small, fun entry member => ?_⟩
  rcases (sound.live (show TreeId.catalogue ≠ .cursors from nofun) entry).mp member with
    old | ⟨sequence, installed, present, writes⟩
  · obtain ⟨id, sequence, version, key, positive, order, below, decoded⟩ :=
      ledger.life.keyed.entry entry old
    exact ⟨id, sequence, version, key, positive, order, by omega, decoded⟩
  · obtain ⟨above, logged, encoded⟩ := sound.pending present
    have bounded := sound.logged_le logged
    rcases writes with ⟨tree, -⟩ | ⟨effect, inEffects, stored⟩
    · cases tree
    · have valid := (Vm.Database.encodeOutcome_effects encoded).1 effect inEffects
      cases effect with
      | put | delete =>
          rcases Vm.Database.effectEntry_cases valid stored with
            ⟨-, tree, -⟩ | ⟨isTwo, -⟩ | ⟨-, tree, -⟩
          · cases tree
          · rw [isTwo] at valid
            cases valid
          · cases tree
      | limits => cases stored
      | catalogue table value =>
          rcases Vm.Database.effectEntry_cases valid stored with
            ⟨-, tree, -⟩ | ⟨isTwo, -⟩ | ⟨-, tree, -⟩
          · cases tree
          · cases stored
            rw [isTwo] at valid
            obtain ⟨version, decoded, allowed⟩ := bind_eq_ok.mp valid
            rw [refuse_eq_ok, not_or, not_lt] at allowed
            have positive : table ≠ 0 := by
              obtain ⟨⟨⟩, checked, -⟩ := bind_eq_ok.mp decoded
              exact (Vm.Database.validId_eq_ok.mp checked).1
            exact ⟨table, sequence, version, rfl, positive, allowed.1, bounded.2.1, decoded⟩
          · cases tree

/-- A visible version is stored in both roots or in none. -/
theorem Source.Sound.stored (sound : source.Sound initialPolicy) {id sequence : Nat}
    {version : CatalogueVersion} (seen : sequence ≤ source.frontier) :
    Stored source.store.view id sequence version ↔ Stored source.serial id sequence version := by
  have same {bytes : Bytes} (order : id ≤ sequence) :=
    @Source.Sound.visible _ _ _ _ sound .catalogue nofun sequence seen
      (catalogueKey id sequence, bytes) ⟨id, order, rfl⟩
  constructor
  · intro stored
    obtain ⟨_, -, -, -, order, -⟩ := sound.keyed.stored stored
    obtain ⟨hid, hs, bytes, member, decoded⟩ := stored
    exact ⟨hid, hs, bytes, (same order).mp member, decoded⟩
  · intro stored
    obtain ⟨last, ledger⟩ := sound.ledger
    obtain ⟨_, -, -, -, order, -⟩ := ledger.life.keyed.stored stored
    obtain ⟨hid, hs, bytes, member, decoded⟩ := stored
    exact ⟨hid, hs, bytes, (same order).mpr member, decoded⟩

/-- The last visible version of a table is the same in both roots. -/
theorem Source.Sound.latest (sound : source.Sound initialPolicy) {id bound : Nat}
    {version : CatalogueVersion} (seen : bound ≤ source.frontier + 1) :
    Latest source.store.view id bound version ↔ Latest source.serial id bound version := by
  constructor
  · rintro ⟨sequence, inside, stored, most⟩
    exact ⟨sequence, inside, (sound.stored (by omega)).mp stored, fun other within version' stored' =>
      most other within version' ((sound.stored (by omega)).mpr stored')⟩
  · rintro ⟨sequence, inside, stored, most⟩
    exact ⟨sequence, inside, (sound.stored (by omega)).mpr stored, fun other within version' stored' =>
      most other within version' ((sound.stored (by omega)).mp stored')⟩

/-- A lookup at a visible sequence finds the last serial version. -/
theorem Source.Sound.catalogueVersion (sound : source.Sound initialPolicy) {id sequence : Nat}
    (positive : id ≠ 0) (small : id < maxU64) (seen : sequence ≤ source.frontier) :
    ∃ result, Vm.Database.catalogueVersion source.store.view id sequence = .ok result ∧
      ∀ version, result = some version ↔ Latest source.serial id (sequence + 1) version := by
  have durable := sound.durable
  have bounded := sound.small
  obtain ⟨result, found, means⟩ := Vm.Database.catalogueVersion_latest sound.keyed positive small
    (show sequence < maxU64 by omega)
  exact ⟨result, found, fun version => (means version).trans (sound.latest (by omega))⟩

/-! ## Records -/

omit [Crc32c] [Sha256] in
theorem exactVersion_eq_ok {sequence : Nat} {effect : Effect} {stored : TreeId × Bytes × Bytes}
    (entry : effectEntry sequence effect = .ok stored) : exactVersion sequence effect = .ok stored := by
  cases effect with
  | put table key value =>
      simp only [effectEntry, exactVersion, bind_eq_ok, mapError_eq_ok, pure_eq_ok, Except.ok.injEq] at entry ⊢
      exact entry
  | delete table key =>
      simp only [effectEntry, exactVersion, bind_eq_ok, mapError_eq_ok, pure_eq_ok, Except.ok.injEq] at entry ⊢
      exact entry
  | catalogue table value =>
      cases entry
      rfl
  | limits policy =>
      cases entry
      rfl

/-- The visible entry of an effect. -/
theorem Source.Sound.get_wrote (sound : source.Sound initialPolicy) {record : OutcomeRecord}
    (member : record ∈ source.resolved)
    (above : source.store.manifest.historyFloor < record.sequence) {tree : TreeId}
    {entry : Storage.Entry} (wrote : Wrote record tree entry) :
    source.store.view.get tree entry.1 = .ok (some entry.2) := by
  obtain ⟨last, ledger⟩ := sound.ledger
  have fits := ledger.fits record member
  have kept : entry ∈ (source.serial.roots tree).entries := by
    rcases ledger.retained record member wrote with kept | ⟨-, below⟩
    · exact kept
    · omega
  have logical : tree ≠ .cursors := by
    rintro rfl
    rcases wrote.cases fits with ⟨-, tree, -⟩ | ⟨-, tree, -⟩ | ⟨-, tree, -⟩ <;> cases tree
  have found := Vm.History.Wrote.get wrote fits kept
  obtain ⟨⟨⟩, short, -⟩ := bind_eq_ok.mp found
  have live := (sound.live logical entry).mpr (.inl kept)
  rw [View.get, short, ok_bind, OrdMap.find?_eq_some.mpr live]
  rfl

/-- A written row has the types of its table at its sequence. -/
theorem Source.Sound.checkRow (sound : source.Sound initialPolicy) {record : OutcomeRecord}
    (member : record ∈ source.resolved) (one : record.recordKind = 1) {effect : Effect}
    (inOutcome : effect ∈ finalEffects record.outcome) :
    Engine.checkRow source.store.view record.sequence (Outcome.effectAddress effect).table
      (Outcome.effectAddress effect).key (Vm.History.effectRow effect).2 = .ok () := by
  obtain ⟨last, ledger⟩ := sound.ledger
  have fits := ledger.fits record member
  have small := ledger.small
  have visible := ledger.sequence_le member
  have counted := sound.counted
  obtain ⟨version, latest, live, ⟨key, accepted, isKey⟩, values⟩ :=
    (fits.transaction one).rows effect inOutcome
  -- The record is a transaction, so no version of a table has its sequence.
  have unwritten := Vm.History.unwritten_of_kind ledger member (show record.recordKind ≠ 2 by omega)
  have newest : Latest source.serial (Outcome.effectAddress effect).table (record.sequence + 1)
      version := by
    obtain ⟨sequence, inside, stored, most⟩ := latest
    refine ⟨sequence, by omega, stored, fun other within version' stored' => ?_⟩
    rcases Nat.lt_succ_iff_lt_or_eq.mp within with before | rfl
    · exact most other before version' stored'
    · exact absurd stored' (unwritten _ _)
  obtain ⟨sequence, inside, stored, -⟩ := latest
  obtain ⟨entry, inTree, holds⟩ := ledger.life.keyed.stored stored
  obtain ⟨-, positive, order, old, decoded⟩ := holds
  obtain ⟨result, found, means⟩ := sound.catalogueVersion positive (show _ < maxU64 by omega)
    (show record.sequence ≤ source.frontier by omega)
  obtain rfl := (means version).mpr newest
  obtain ⟨keySchema, valueSchema, schemas⟩ := Vm.History.decodeCatalogue_schemas decoded
  have described : (version.table.key.descriptorOrPanic : Except (Fault Exchange.Error) Bytes) =
      .ok version.table.key.descriptor := schemas.key.formed.descriptorOrPanic
  have decodedKey := schemas.key.decodeKey accepted
  rw [← isKey] at decodedKey
  have checked : checkValue version.table (Vm.History.effectRow effect).2 = .ok () := by
    cases put : (Vm.History.effectRow effect).2 with
    | none => rfl
    | some bytes =>
        obtain ⟨value, acceptedValue, rfl⟩ := values bytes put
        have decodedValue : Vm.decodeValue version.table.value value.encode = .ok value :=
          Vm.decodeValue_encode schemas.formed acceptedValue
        rw [checkValue, decodedValue]
        rfl
  simp only [Engine.checkRow, found, raise_ok, ok_bind, Option.filter, live, if_true, available,
    described, schemas.key.decoded, decodedKey, checked]

theorem Source.Sound.checkEffect (sound : source.Sound initialPolicy) {record : OutcomeRecord}
    (member : record ∈ source.resolved)
    (above : source.store.manifest.historyFloor < record.sequence) {effect : Effect}
    (inOutcome : effect ∈ finalEffects record.outcome) :
    Engine.checkEffect source.store.view record.sequence effect = .ok () := by
  obtain ⟨last, ledger⟩ := sound.ledger
  have fits := ledger.fits record member
  obtain ⟨tree, ⟨key, value⟩, stored⟩ := fits.stored effect inOutcome
  have got := sound.get_wrote member above ⟨effect, inOutcome, stored⟩
  have valid := fits.valid effect inOutcome
  have rows (one : record.recordKind = 1) := sound.checkRow member one inOutcome
  simp only [Engine.checkEffect, exactVersion_eq_ok stored, raise_ok, ok_bind, got, available, ne_eq,
    not_true_eq_false, refuse_false]
  cases effect with
  | catalogue | limits => rfl
  | put table address bytes =>
      refine rows ?_
      by_contra other
      rw [Outcome.validateEffect, if_neg other] at valid
      cases valid
  | delete table address =>
      refine rows ?_
      by_contra other
      rw [Outcome.validateEffect, if_neg other] at valid
      cases valid

omit [Crc32c] [Sha256] in
/-- A stored outcome is that of the record with its sequence. -/
theorem outcome_decodes {initialPolicy : LimitPolicy} {records : List OutcomeRecord} {last : Bytes} {floor : Nat}
    {view : View} (ledger : Ledger initialPolicy records last floor view) {record : OutcomeRecord} (member : record ∈ records)
    {value : Bytes} (stored : (beBytes 8 record.sequence, value) ∈ (view.roots .outcomes).entries) :
    floor < record.sequence ∧ Outcome.decodeOutcome value = .ok record := by
  have width : maxU64 < 256 ^ 8 := by decide
  have small := (ledger.fits record member).small
  obtain ⟨record', member', above, key, decoded⟩ := ledger.outcomes _ stored
  have small' := (ledger.fits record' member').small
  obtain rfl := ledger.unique member member' (beBytes_inj (by omega) (by omega) key)
  exact ⟨above, decoded⟩

/-- The outcome of a retained visible record is stored. -/
theorem Source.Sound.outcome_stored (sound : source.Sound initialPolicy) {record : OutcomeRecord}
    (member : record ∈ source.resolved)
    (above : source.store.manifest.historyFloor < record.sequence) :
    ∃ value, (beBytes 8 record.sequence, value) ∈ (source.serial.roots .outcomes).entries ∧
      Outcome.decodeOutcome value = .ok record := by
  obtain ⟨last, ledger⟩ := sound.ledger
  obtain ⟨value, stored⟩ := ledger.resolved record member above
  exact ⟨value, stored, (outcome_decodes ledger member stored).2⟩

/-- The outcome of a retained visible record is read by its sequence. -/
theorem Source.Sound.readOutcome (sound : source.Sound initialPolicy) {record : OutcomeRecord}
    (member : record ∈ source.resolved)
    (above : source.store.manifest.historyFloor < record.sequence) :
    Outcome.readOutcome source.store.view record.sequence = .ok (some record) := by
  obtain ⟨last, ledger⟩ := sound.ledger
  have small := (ledger.fits record member).small
  have positive := (ledger.sequence_le member).1
  obtain ⟨value, stored, decoded⟩ := sound.outcome_stored member above
  have live := (sound.live (show TreeId.outcomes ≠ .cursors from nofun) _).mpr (.inl stored)
  have valid : Vm.Database.validId record.sequence = .ok () :=
    Vm.Database.validId_eq_ok.mpr ⟨by omega, small.ne⟩
  have got : source.store.view.get .outcomes (beBytes 8 record.sequence) = .ok (some value) := by
    simp only [View.get, Storage.checkKey, length_beBytes, Storage.maxKey, gt_iff_lt,
      OrdMap.find?_eq_some.mpr live, pure_eq_ok]
    rfl
  simp only [Outcome.readOutcome, valid, ok_bind, got, Except.mapError, decoded, ne_eq,
    not_true_eq_false, refuse_false, pure_eq_ok]

/-- A retained visible record reads as the outcome it was resolved with. -/
theorem Source.Sound.readRecord (sound : source.Sound initialPolicy) {record : OutcomeRecord}
    (member : record ∈ source.resolved)
    (above : source.store.manifest.historyFloor < record.sequence) :
    Engine.readRecord source.store.view record.sequence = .ok record := by
  have read := sound.readOutcome member above
  have effects : ∀ effects ⊆ finalEffects record.outcome,
      checkEffects source.store.view record.sequence effects = .ok () := by
    intro effects
    induction effects with
    | nil => exact fun _ => rfl
    | cons effect effects ih =>
        intro inOutcome
        obtain ⟨first, rest⟩ := List.cons_subset.mp inOutcome
        simp only [checkEffects, sound.checkEffect member above first, ok_bind, ih rest]
  simp only [Engine.readRecord, read, raise_ok, ok_bind, available, effects _ (List.Subset.refl _),
    pure_eq_ok]

end BlopDb.Engine
