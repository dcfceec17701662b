/-
# The versions that a validation counts

The walks over the trees of a ledger count the versions at every sequence.  At the
sequence of an administrative record they find the effects of the record, and at the
sequence of a transaction the state versions that no collection removed.
-/

import BlopDb.Vm.ValidateSound

namespace BlopDb.Vm.History

open BlopDb.Lib
open Storage (LimitPolicy View maxU64)
open Database (Stored finalEffects)

variable {initialPolicy : LimitPolicy} {records : List OutcomeRecord} {record : OutcomeRecord} {last : Bytes}
variable {floor : Nat} {view : View} {versions catalogued counted : Versions}

/-- The versions of a record that the trees still hold. -/
def heldVersions (view : View) (record : OutcomeRecord) : Nat :=
  if record.recordKind = 1 then versionCount (view.roots .state).entries record.sequence
  else (finalEffects record.outcome).length

/-- No state version has the sequence of an administrative record. -/
theorem versionCount_of_kind (ledger : Ledger initialPolicy records last floor view) (inRecords : record ∈ records)
    (other : record.recordKind ≠ 1) : versionCount (view.roots .state).entries record.sequence = 0 := by
  rw [versionCount, List.countP_eq_zero]
  intro entry member same
  obtain ⟨writer, inRecords', at', isOne, -⟩ := state_record ledger member
  obtain rfl := ledger.unique inRecords' inRecords (at'.trans (of_decide_eq_true same))
  exact other isOne

/-- No policy has the sequence of another record. -/
theorem unlisted_of_kind (ledger : Ledger initialPolicy records last floor view) (inRecords : record ∈ records)
    (other : record.recordKind ≠ 3 ∨ finalEffects record.outcome = []) (value : Bytes) :
    (beBytes 8 record.sequence, value) ∉ (view.roots .policy).entries := by
  intro member
  obtain ⟨positive, old⟩ := ledger.sequence_le inRecords
  obtain ⟨writer, inRecords', same, three, entry, effect, inOutcome, -⟩ :=
    policy_record ledger (by omega) old member
  obtain rfl := ledger.unique inRecords' inRecords same
  rcases other with other | empty
  · exact other three
  · rw [empty] at inOutcome
    cases inOutcome

/-- What the walk over the policies adds to the counts of the catalogue. -/
theorem counted_policy (ledger : Ledger initialPolicy records last floor view) (inRecords : record ∈ records)
    (catalogue : (record.recordKind ≠ 2 → catalogued.find? record.sequence = none) ∧
      (record.recordKind = 2 → (catalogued.find? record.sequence).getD (2, 0) =
        (2, (finalEffects record.outcome).length)))
    (listed : ∀ sequence ≤ records.length, ∀ policy : LimitPolicy,
      (beBytes 8 sequence, policy.encode) ∈ (view.roots .policy).entries →
        sequence ≠ 0 → counted.find? sequence = some (3, 1))
    (others : ∀ sequence, (∀ value, (beBytes 8 sequence, value) ∉ (view.roots .policy).entries) →
      counted.find? sequence = catalogued.find? sequence) :
    (record.recordKind = 1 → counted.find? record.sequence = none) ∧
      (record.recordKind ≠ 1 → (counted.find? record.sequence).getD (record.recordKind, 0) =
        (record.recordKind, (finalEffects record.outcome).length)) := by
  obtain ⟨notCatalogue, isCatalogue⟩ := catalogue
  obtain ⟨positive, old⟩ := ledger.sequence_le inRecords
  refine ⟨fun one => ?_, fun other => ?_⟩
  · rw [others _ (unlisted_of_kind ledger inRecords (.inl (by omega))), notCatalogue (by omega)]
  · by_cases two : record.recordKind = 2
    · rw [others _ (unlisted_of_kind ledger inRecords (.inl (by omega))), two]
      exact isCatalogue two
    · rcases single_effect ledger inRecords other with empty | ⟨single, tree, entry, wrote, kept⟩
      · rw [others _ (unlisted_of_kind ledger inRecords (.inr empty)), notCatalogue two, empty]
        rfl
      · rcases wrote.cases (ledger.fits record inRecords) with ⟨isOne, -⟩ | ⟨isTwo, -⟩ | ⟨three, rfl, key, policy, value⟩
        · exact absurd isOne other
        · exact absurd isTwo two
        · have member : (beBytes 8 record.sequence, policy.encode) ∈ (view.roots .policy).entries := by
            rw [← key, ← value]
            exact kept
          rw [listed record.sequence old policy member (by omega), three, single]
          rfl

/-- The walks over a ledger succeed and count what it holds of each record. -/
theorem validate_counts (ledger : Ledger initialPolicy records last floor view)
    (valid : validate view records.length floor last initialPolicy = .ok versions) (inRecords : record ∈ records) :
    (versions.find? record.sequence).getD (record.recordKind, 0) = (record.recordKind, heldVersions view record) := by
  have small := ledger.small
  obtain ⟨⟨⟩, -, valid⟩ := bind_eq_ok.mp valid
  obtain ⟨⟨catalogued, tables⟩, replays, valid⟩ := bind_eq_ok.mp valid
  obtain ⟨policyEntries, scanned, valid⟩ := bind_eq_ok.mp valid
  obtain ⟨⟨counted, policies⟩, walked, valid⟩ := bind_eq_ok.mp valid
  obtain ⟨⟨⟩, -, valid⟩ := bind_eq_ok.mp valid
  obtain ⟨stateEntries, scanned', valid⟩ := bind_eq_ok.mp valid
  obtain ⟨versions', walked', valid⟩ := bind_eq_ok.mp valid
  obtain ⟨outcomeEntries, -, valid⟩ := bind_eq_ok.mp valid
  obtain ⟨next, -, valid⟩ := bind_eq_ok.mp valid
  obtain ⟨⟨⟩, -, same⟩ := bind_eq_ok.mp valid
  obtain rfl := Except.ok.inj same
  rw [view.scan_unbounded] at scanned scanned'
  obtain rfl := Except.ok.inj (raise_eq_ok.mp scanned)
  obtain rfl := Except.ok.inj (raise_eq_ok.mp scanned')
  obtain ⟨found, foundTables, replays', replayed⟩ := catalogueHistory_accepts ledger.life le_rfl
  obtain ⟨rfl, rfl⟩ := Prod.mk.inj (Except.ok.inj (replays.symm.trans replays'))
  have catalogue {record : OutcomeRecord} (inRecords : record ∈ records) := catalogue_counts ledger replayed inRecords
  obtain ⟨found, foundPolicies, walks, listed, others⟩ := policyHistory_eq small (view.roots .policy).increasing
    ledger.policyKeyed catalogued ∅ fun sequence old positive value member => by
      obtain ⟨record, inRecords, rfl, three, -⟩ := policy_record ledger positive old member
      exact (catalogue inRecords).1 (by omega)
  obtain ⟨rfl, rfl⟩ := Prod.mk.inj (Except.ok.inj ((raise_eq_ok.mp walked).symm.trans walks))
  have policy {record : OutcomeRecord} (inRecords : record ∈ records) :=
    counted_policy ledger inRecords (catalogue inRecords)
      (fun sequence old policy member => (listed sequence old policy member).2) fun sequence absent =>
        (others sequence absent).1
  obtain ⟨found, walks, finds⟩ := stateHistory_eq small (fun entry member => rowPasses ledger replayed member) counted
    (fun _ => 0) (by
      intro sequence some
      obtain ⟨entry, member, isSequence⟩ := List.countP_pos_iff.mp (Nat.pos_of_ne_zero some)
      obtain ⟨record, inRecords, same, one, -⟩ := state_record ledger member
      rw [← of_decide_eq_true isSequence, ← same]
      exact .inl ⟨(policy inRecords).1 one, rfl⟩) (by
      intro sequence
      rw [Nat.zero_add]
      exact versionCount_lt ledger sequence)
  obtain rfl := Except.ok.inj ((raise_eq_ok.mp walked').symm.trans walks)
  obtain ⟨transaction, administrative⟩ := policy inRecords
  rw [finds, heldVersions]
  by_cases one : record.recordKind = 1
  · rw [if_pos one]
    split_ifs with empty
    · rw [transaction one, empty]
      rfl
    · rw [Nat.zero_add, one]
      rfl
  · rw [if_pos (versionCount_of_kind ledger inRecords one), if_neg one]
    exact administrative one

/-- A retained effect is found. -/
theorem exactEffect_of_kept (fits : RecordFits view record) {effect : Effect} {tree : Storage.TreeId} {entry : Storage.Entry}
    (inOutcome : effect ∈ finalEffects record.outcome)
    (stored : Database.effectEntry record.sequence effect = .ok (tree, entry)) (kept : entry ∈ (view.roots tree).entries) :
    exactEffect view record.sequence effect floor = .ok true := by
  obtain ⟨key, value⟩ := entry
  have wrote : Wrote record tree (key, value) := ⟨effect, inOutcome, stored⟩
  have read : (view.get tree key).mapError Error.storage = .ok (some value) :=
    mapError_eq_ok.mpr (Wrote.get wrote fits kept)
  simp only [exactEffect, stored, ok_bind, read, reduceCtorEq, false_and, if_false, ne_eq, not_true_eq_false,
    refuse_false, pure_eq_ok]

/-- The outcome of an administrative record describes its versions at every floor. -/
theorem exactOutcome_administrative (ledger : Ledger initialPolicy records last floor view)
    (inRecords : record ∈ records) (other : record.recordKind ≠ 1)
    (counts : (versions.find? record.sequence).getD (record.recordKind, 0) =
      (record.recordKind, heldVersions view record)) :
    exactOutcome view versions floor record.sequence record.recordKind record.outcome = .ok () := by
  have matched : matchedEffects view record.sequence floor (finalEffects record.outcome) =
      .ok (finalEffects record.outcome).length := by
    rcases single_effect ledger inRecords other with empty | ⟨single, tree, entry, ⟨effect, member, stored⟩, kept⟩
    · rw [empty]
      rfl
    · obtain ⟨effect', isSingle⟩ := List.length_eq_one_iff.mp single
      have found : exactEffect view record.sequence effect floor = .ok true :=
        exactEffect_of_kept (ledger.fits record inRecords) member stored kept
      rw [isSingle] at member ⊢
      obtain rfl := List.mem_singleton.mp member
      simp only [matchedEffects, found, ok_bind, pure_eq_ok]
      rfl
  rw [heldVersions, if_neg other] at counts
  simp only [exactOutcome, counts, matched, ne_eq, not_true_eq_false, gt_iff_lt, lt_irrefl, or_self, refuse_false, ok_bind]

end BlopDb.Vm.History
