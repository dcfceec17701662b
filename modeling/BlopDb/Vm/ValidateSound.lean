/-
# The validator accepts every history

The checks of the validator are answered by the ledger: versions at a sequence
are those of one record, so their kinds agree and their number is that of the
record's effects; rows fit the tables that were live when they were written;
outcomes follow each other from the floor to the checkpoint.
-/

import BlopDb.Vm.Ledger
import BlopDb.Vm.Replay

namespace BlopDb.Vm.History

open BlopDb.Lib
open Storage (View TreeId LimitPolicy maxU64)
open Storage.Encoding (Schema)
open Storage.Mvcc (StateKey StateValue)
open Storage.Collect (stateKey)
open Database (Lifecycle Stored Latest finalEffects effectEntry putBytes)
open Outcome (effectAddress)

/-! ## Rows -/

theorem validateValue_encode {ty : Ty} {schema : Schema} (formed : ty.Formed 16)
    (decoded : Schema.decode ty.descriptor = .ok schema) {value : Value}
    (accepted : ty.accepts value = true) :
    Storage.Encoding.validateValue schema value.encode = .ok () := by
  obtain ⟨matched, maxValue, -⟩ := schema_matches formed decoded
  have total := encodedLen_le ty value accepted
  have limit := formed.size_le
  have read := readValue_encode ty schema.node value [] matched accepted
    (by simp only [maxValueBytes] at limit; omega)
  rw [List.append_nil] at read
  have short : ¬ value.encode.length > schema.maxValueBytes := by
    rw [length_encode, maxValue]
    omega
  simp only [Storage.Encoding.validateValue, refuse_of_not _ short, ok_bind, read, ne_eq,
    not_true_eq_false, refuse_false]

/-- A typed row passes the check against the schemas of its table. -/
theorem checkRow_of_typed {table : Table} {known : TableHistory} {effect : Effect}
    (schemas : TableSchemas table known.key known.value) (typed : Typed table effect) :
    checkRow known (effectAddress effect).key (effectRow effect).2 = .ok () := by
  obtain ⟨⟨key, accepted, isKey⟩, values⟩ := typed
  have decoded : (Storage.Encoding.decodeKey known.key (effectAddress effect).key).mapError
      Error.storage = .ok key.encode := by
    rw [isKey, schemas.key.decodeKey accepted]
    rfl
  cases put : (effectRow effect).2 with
  | none => simp only [checkRow, decoded, ok_bind, pure_eq_ok]
  | some bytes =>
      obtain ⟨value, fits, rfl⟩ := values bytes put
      have valid : (Storage.Encoding.validateValue known.value value.encode).mapError Error.storage =
          .ok () := mapError_eq_ok.mpr (validateValue_encode schemas.formed schemas.value fits)
      simp only [checkRow, decoded, ok_bind, valid]

theorem effectRow_key (effect : Effect) : (effectRow effect).1 = (effectAddress effect).key := by
  cases effect <;> rfl

section Replayed

variable {view : View} {frontier : Nat} {versions : Versions} {tables : OrdMap Nat TableHistory}

/-- A table that is live before a record without catalogue versions is found
alive at its sequence. -/
theorem liveTable_eq (life : Lifecycle view frontier)
    (replayed : CatalogueReplay view frontier versions tables) {id sequence : Nat}
    {version : CatalogueVersion} (latest : Latest view id sequence version)
    (live : version.live = true)
    (unwritten : ∀ id' version', ¬ Stored view id' sequence version') :
    ∃ table, liveTable tables id sequence = .ok table ∧
      TableSchemas version.table table.key table.value := by
  obtain ⟨last, inside, stored, most⟩ := latest
  obtain ⟨table, found⟩ := replayed.known stored
  obtain ⟨⟨end', -, storedEnd, -⟩, schemas, dropped⟩ := replayed.latest found
  obtain ⟨entry, -, holds⟩ := life.keyed.stored stored
  refine ⟨table, ?_, life.tables storedEnd stored ▸ schemas⟩
  have alive : ¬ (sequence ≤ id ∨
      (table.dropped.any fun drop => decide (sequence ≥ drop)) = true) := by
    have := holds.2.2.1
    rintro (early | isDropped)
    · omega
    · cases isDrop : table.dropped with
      | none => simp [isDrop] at isDropped
      | some drop =>
          obtain ⟨-, ending, storedDrop, dead⟩ := (dropped drop).mp isDrop
          rw [isDrop, Option.any_some, decide_eq_true_eq] at isDropped
          have before : drop < sequence := by
            refine lt_of_le_of_ne isDropped ?_
            rintro rfl
            exact unwritten _ _ storedDrop
          have same : drop = last :=
            le_antisymm (most drop before ending storedDrop) (life.ended storedDrop dead stored)
          subst same
          rw [storedDrop.unique stored, live] at dead
          cases dead
  simp only [liveTable, found, refuse_of_not _ alive, ok_bind, pure_eq_ok]

end Replayed

/-! ## Policies -/

theorem systemSequence_eq {sequence checkpoint : Nat} {genesis : Bool} (bounded : checkpoint < maxU64)
    (old : sequence ≤ checkpoint) (positive : genesis = false → sequence ≠ 0) :
    systemSequence (beBytes 8 sequence) checkpoint genesis = .ok sequence := by
  have width : maxU64 < 256 ^ 8 := by decide
  have number : beNat (beBytes 8 sequence) = sequence := beNat_beBytes 8 sequence (by omega)
  have allowed : ¬ (sequence = maxU64 ∨ sequence > checkpoint ∨ (genesis = false ∧ sequence = 0)) := by
    rintro (reserved | late | ⟨system, zero⟩)
    · omega
    · omega
    · exact positive system zero
  simp only [systemSequence, length_beBytes, ne_eq, not_true_eq_false, refuse_false, ok_bind, number]
  rw [refuse_of_not _ allowed, ok_bind, pure_eq_ok]

/-- The policies of entries at increasing sequences, counted once each, the one
at genesis apart. -/
theorem policyHistory_eq {checkpoint : Nat} (bounded : checkpoint < maxU64)
    {entries : List Storage.Entry} (sorted : Increasing entries)
    (each : ∀ entry ∈ entries, ∃ sequence ≤ checkpoint, ∃ policy : LimitPolicy,
      entry = (beBytes 8 sequence, policy.encode)) (versions : Versions)
    (policies : OrdMap Nat LimitPolicy)
    (uncounted : ∀ sequence ≤ checkpoint, sequence ≠ 0 → ∀ value,
      (beBytes 8 sequence, value) ∈ entries → versions.find? sequence = none) :
    ∃ versions' policies', policyHistory checkpoint entries versions policies =
        .ok (versions', policies') ∧
      (∀ sequence ≤ checkpoint, ∀ policy : LimitPolicy, (beBytes 8 sequence, policy.encode) ∈ entries →
        policies'.find? sequence = some policy ∧
          (sequence ≠ 0 → versions'.find? sequence = some (3, 1))) ∧
      ∀ sequence, (∀ value, (beBytes 8 sequence, value) ∉ entries) →
        versions'.find? sequence = versions.find? sequence ∧
          policies'.find? sequence = policies.find? sequence := by
  have width : maxU64 < 256 ^ 8 := by decide
  induction entries generalizing versions policies with
  | nil => exact ⟨versions, policies, rfl, nofun, fun _ _ => ⟨rfl, rfl⟩⟩
  | cons entry entries ih =>
      obtain ⟨later, tail⟩ := List.pairwise_cons.mp sorted
      obtain ⟨sequence, old, policy, rfl⟩ := each entry List.mem_cons_self
      have absent (value : Bytes) : (beBytes 8 sequence, value) ∉ entries := fun member =>
        lt_irrefl _ (later (beBytes 8 sequence, value) member)
      have isSequence : systemSequence (beBytes 8 sequence) checkpoint true = .ok sequence :=
        systemSequence_eq bounded old nofun
      let next := if sequence ≠ 0 then versions.insert sequence (3, 1) else versions
      have counted : (if sequence ≠ 0 then version versions sequence 3 checkpoint
          else pure versions) = .ok next := by
        by_cases zero : sequence = 0
        · simp [next, zero]
        · simp only [ne_eq, zero, not_false_eq_true, if_true, next]
          exact version_eq_ok zero (by omega) old
            (.inl ⟨uncounted sequence old zero _ List.mem_cons_self, rfl⟩) (by norm_num)
      have kept {other : Nat} (different : sequence ≠ other) :
          next.find? other = versions.find? other := by
        simp only [next]
        split_ifs
        · exact OrdMap.find?_insert_of_ne _ _ different
        · rfl
      obtain ⟨versions', policies', returns, new, unlisted⟩ := ih tail
        (fun other member => each other (List.mem_cons_of_mem _ member)) next
        (policies.insert sequence policy) (by
          intro other within positive value member
          have different : sequence ≠ other := by
            rintro rfl
            exact absent value member
          rw [kept different]
          exact uncounted other within positive value (List.mem_cons_of_mem _ member))
      refine ⟨versions', policies', ?_, ?_, ?_⟩
      · have decoded : (LimitPolicy.decode policy.encode).mapError Error.storage = .ok policy := by
          rw [LimitPolicy.decode_encode]
          rfl
        simp only [policyHistory, isSequence, ok_bind, decoded]
        split_ifs at counted ⊢ with positive
        · rw [counted, ok_bind, returns]
        · rw [counted, ok_bind, returns]
      · intro other within policy' member
        rcases List.mem_cons.mp member with same | inTail
        · obtain ⟨key, value⟩ := Prod.mk.inj same
          obtain rfl := beBytes_inj (by omega) (by omega) key
          have samePolicy : policy' = policy := by
            have := LimitPolicy.decode_encode policy'
            rw [value, LimitPolicy.decode_encode] at this
            exact (Except.ok.inj this).symm
          obtain ⟨sameVersion, samePolicies⟩ := unlisted other absent
          rw [sameVersion, samePolicies, OrdMap.find?_insert_self, samePolicy]
          refine ⟨rfl, fun positive => ?_⟩
          simp only [next, ne_eq, positive, not_false_eq_true, if_true, OrdMap.find?_insert_self]
        · exact new other within policy' inTail
      · intro other notListed
        have different : sequence ≠ other := by
          rintro rfl
          exact notListed _ List.mem_cons_self
        obtain ⟨sameVersion, samePolicies⟩ :=
          unlisted other fun value member => notListed value (List.mem_cons_of_mem _ member)
        rw [sameVersion, samePolicies, kept different, OrdMap.find?_insert_of_ne _ _ different]
        exact ⟨rfl, rfl⟩

/-! ## State versions -/

/-- The number of state versions at a sequence. -/
def versionCount (entries : List Storage.Entry) (sequence : Nat) : Nat :=
  entries.countP fun entry => decide ((stateKey entry).sequence = sequence)

/-- A state entry passes the checks of the walk. -/
structure RowPasses (checkpoint : Nat) (tables : OrdMap Nat TableHistory) (entry : Storage.Entry) :
    Prop where
  key : StateKey.decode entry.1 = .ok (stateKey entry)
  positive : (stateKey entry).sequence ≠ 0
  old : (stateKey entry).sequence ≤ checkpoint
  row : ∃ value table, StateValue.decode entry.2 = .ok value ∧
    liveTable tables (stateKey entry).tableId (stateKey entry).sequence = .ok table ∧
    checkRow table (stateKey entry).key (putValue value) = .ok ()

/-- Counting the state versions, from counts of the entries before. -/
theorem stateHistory_eq {checkpoint : Nat} (bounded : checkpoint < maxU64)
    {tables : OrdMap Nat TableHistory} {entries : List Storage.Entry}
    (each : ∀ entry ∈ entries, RowPasses checkpoint tables entry) (versions : Versions)
    (start : Nat → Nat)
    (counted : ∀ sequence, versionCount entries sequence ≠ 0 →
      versions.find? sequence = none ∧ start sequence = 0 ∨
        versions.find? sequence = some (1, start sequence))
    (few : ∀ sequence, start sequence + versionCount entries sequence < 2 ^ 64) :
    ∃ versions', stateHistory checkpoint tables entries versions = .ok versions' ∧
      ∀ sequence, versions'.find? sequence =
        if versionCount entries sequence = 0 then versions.find? sequence
        else some (1, start sequence + versionCount entries sequence) := by
  induction entries generalizing versions start with
  | nil => exact ⟨versions, rfl, fun sequence => by simp [versionCount]⟩
  | cons entry entries ih =>
      obtain ⟨key, positive, old, value, table, isValue, isTable, checked⟩ :=
        each entry List.mem_cons_self
      generalize isSequence : (stateKey entry).sequence = sequence at *
      have ahead (other : Nat) : versionCount (entry :: entries) other =
          versionCount entries other + if sequence = other then 1 else 0 := by
        rw [versionCount, List.countP_cons, versionCount, isSequence]
        simp
      have here := counted sequence (by
        rw [ahead, if_pos rfl]
        omega)
      have enough := few sequence
      rw [ahead, if_pos rfl] at enough
      have counts := @version_eq_ok versions sequence 1 checkpoint (start sequence) positive
        (lt_of_le_of_lt old bounded) old (here.imp_right fun found => ⟨rfl, found⟩) (by omega)
      obtain ⟨versions', returns, finds⟩ := ih
        (fun other member => each other (List.mem_cons_of_mem _ member))
        (versions.insert sequence (1, start sequence + 1))
        (Function.update start sequence (start sequence + 1)) (by
          intro other some
          by_cases same : sequence = other
          · subst same
            rw [OrdMap.find?_insert_self, Function.update_self]
            exact .inr rfl
          · rw [OrdMap.find?_insert_of_ne _ _ same, Function.update_of_ne (Ne.symm same)]
            exact counted other (by
              rw [ahead]
              omega)) (by
          intro other
          have total := few other
          rw [ahead] at total
          by_cases same : sequence = other
          · subst same
            rw [if_pos rfl] at total
            rw [Function.update_self]
            omega
          · rw [if_neg same] at total
            rwa [Function.update_of_ne (Ne.symm same)])
      refine ⟨versions', ?_, fun other => ?_⟩
      · have decodedKey : (StateKey.decode entry.1).mapError Error.storage = .ok (stateKey entry) :=
          mapError_eq_ok.mpr key
        have decodedValue : (StateValue.decode entry.2).mapError Error.storage = .ok value :=
          mapError_eq_ok.mpr isValue
        simp only [stateHistory, decodedKey, decodedValue, ok_bind, isSequence, counts, isTable,
          checked, returns]
      · rw [finds, ahead]
        by_cases same : sequence = other
        · subst same
          rw [OrdMap.find?_insert_self, Function.update_self, if_pos rfl,
            if_neg (Nat.succ_ne_zero (versionCount entries sequence))]
          split_ifs with absent
          · rw [absent]
          · congr 2
            omega
        · rw [OrdMap.find?_insert_of_ne _ _ same, Function.update_of_ne (Ne.symm same),
            if_neg same, Nat.add_zero]

/-! ## The versions of one record -/

section Versions

variable {initialPolicy : LimitPolicy} {records : List OutcomeRecord} {last : Bytes} {floor : Nat}
variable {view : View}

/-- The record of a catalogue version. -/
theorem catalogue_record (ledger : Ledger initialPolicy records last floor view) {id sequence : Nat}
    {version : CatalogueVersion} (stored : Stored view id sequence version) :
    ∃ record ∈ records, record.sequence = sequence ∧ record.recordKind = 2 ∧
      ∃ entry, Wrote record .catalogue entry := by
  obtain ⟨entry, member, key, -, order, old, -⟩ := ledger.life.keyed.stored stored
  have small := ledger.small
  rcases ledger.written (show TreeId.catalogue ≠ .outcomes from nofun) member with
    ⟨tree, -⟩ | ⟨record, inRecords, wrote⟩
  · cases tree
  · have fits := ledger.fits record inRecords
    rcases wrote.cases fits with ⟨-, tree, -⟩ | ⟨two, -, id', below, key'⟩ | ⟨-, tree, -⟩
    · cases tree
    · have bound := fits.small
      obtain ⟨-, same⟩ := Database.catalogueKey_inj (by omega) (by omega) (by omega) (by omega)
        (key'.symm.trans key)
      exact ⟨record, inRecords, same, two, entry, wrote⟩
    · cases tree

/-- No catalogue version is written at the sequence of another record. -/
theorem unwritten_of_kind (ledger : Ledger initialPolicy records last floor view)
    {record : OutcomeRecord} (inRecords : record ∈ records) (other : record.recordKind ≠ 2) (id : Nat)
    (version : CatalogueVersion) : ¬ Stored view id record.sequence version := by
  intro stored
  obtain ⟨writer, inRecords', same, two, -⟩ := catalogue_record ledger stored
  obtain rfl := ledger.unique inRecords' inRecords same
  exact other two

/-- The record of a policy, the initial one apart. -/
theorem policy_record (ledger : Ledger initialPolicy records last floor view) {sequence : Nat}
    {value : Bytes} (positive : sequence ≠ 0) (old : sequence ≤ records.length)
    (member : (beBytes 8 sequence, value) ∈ (view.roots .policy).entries) :
    ∃ record ∈ records, record.sequence = sequence ∧ record.recordKind = 3 ∧
      ∃ entry, Wrote record .policy entry := by
  have width : maxU64 < 256 ^ 8 := by decide
  have small := ledger.small
  rcases ledger.written (show TreeId.policy ≠ .outcomes from nofun) member with
    ⟨-, initial⟩ | ⟨record, inRecords, wrote⟩
  · exact absurd (beBytes_inj (by omega) (by omega) (Prod.mk.inj initial).1) positive
  · have fits := ledger.fits record inRecords
    rcases wrote.cases fits with ⟨-, tree, -⟩ | ⟨-, tree, -⟩ | ⟨three, -, key, -⟩
    · cases tree
    · cases tree
    · have bound := fits.small
      have same := beBytes_inj (by omega) (by omega) key
      exact ⟨record, inRecords, same.symm, three, _, wrote⟩

/-- The record of a state version. -/
theorem state_record (ledger : Ledger initialPolicy records last floor view) {entry : Storage.Entry}
    (member : entry ∈ (view.roots .state).entries) :
    ∃ record ∈ records, record.sequence = (stateKey entry).sequence ∧ record.recordKind = 1 ∧
      Wrote record .state entry := by
  rcases ledger.written (show TreeId.state ≠ .outcomes from nofun) member with
    ⟨tree, -⟩ | ⟨record, inRecords, wrote⟩
  · cases tree
  · have fits := ledger.fits record inRecords
    rcases wrote.cases fits with ⟨one, -⟩ | ⟨-, tree, -⟩ | ⟨-, tree, -⟩
    · exact ⟨record, inRecords, (wrote.stateKey fits).symm, one, wrote⟩
    · cases tree
    · cases tree

/-- The entries of a record's effects are different. -/
theorem nodup_entries {record : OutcomeRecord} (fits : RecordFits view record) :
    ((finalEffects record.outcome).map (effectEntry record.sequence)).Nodup := by
  refine List.pairwise_map.mpr (fits.distinct.imp_of_mem ?_)
  intro left right inLeft inRight different same
  obtain ⟨tree, entry, stored⟩ := fits.stored left inLeft
  exact different (Database.effectEntry_inj fits.small (fits.valid left inLeft)
    (fits.valid right inRight) stored (same ▸ stored))

/-- The state entries at a sequence, as stored effects. -/
def entriesAt (view : View) (sequence : Nat) : List (Except Error (TreeId × Storage.Entry)) :=
  ((view.roots .state).entries.filter fun entry => decide ((stateKey entry).sequence = sequence)).map
    fun entry => .ok (.state, entry)

theorem length_entriesAt (view : View) (sequence : Nat) :
    (entriesAt view sequence).length = versionCount (view.roots .state).entries sequence := by
  rw [entriesAt, List.length_map, versionCount, List.countP_eq_length_filter]

theorem nodup_entriesAt (view : View) (sequence : Nat) : (entriesAt view sequence).Nodup := by
  have sorted : (view.roots .state).entries.Nodup := by
    refine (view.roots .state).increasing.imp ?_
    rintro left right less rfl
    exact lt_irrefl _ less
  refine (sorted.filter _).map ?_
  intro left right same
  simpa using same

theorem mem_entriesAt {view : View} {sequence : Nat} {stored : Except Error (TreeId × Storage.Entry)} :
    stored ∈ entriesAt view sequence ↔ ∃ entry ∈ (view.roots .state).entries,
      (stateKey entry).sequence = sequence ∧ stored = .ok (.state, entry) := by
  simp only [entriesAt, List.mem_map, List.mem_filter, decide_eq_true_eq, and_assoc]
  exact exists_congr fun entry => and_congr_right' (and_congr_right' eq_comm)

/-- The state versions at a sequence are effects of its record. -/
theorem entriesAt_subset (ledger : Ledger initialPolicy records last floor view)
    {record : OutcomeRecord} (inRecords : record ∈ records) :
    entriesAt view record.sequence ⊆ (finalEffects record.outcome).map (effectEntry record.sequence) := by
  intro stored member
  obtain ⟨entry, inState, same, rfl⟩ := mem_entriesAt.mp member
  obtain ⟨writer, inRecords', sequence, -, effect, inOutcome, isStored⟩ := state_record ledger inState
  obtain rfl := ledger.unique inRecords' inRecords (sequence.trans same)
  exact List.mem_map.mpr ⟨effect, inOutcome, isStored⟩

/-- Above the floor every effect of a transaction is retained, and is counted. -/
theorem versionCount_eq (ledger : Ledger initialPolicy records last floor view)
    {record : OutcomeRecord} (inRecords : record ∈ records) (above : floor < record.sequence)
    (one : record.recordKind = 1) :
    versionCount (view.roots .state).entries record.sequence = (finalEffects record.outcome).length := by
  have fits := ledger.fits record inRecords
  have same : (entriesAt view record.sequence).Perm
      ((finalEffects record.outcome).map (effectEntry record.sequence)) := by
    refine (List.perm_ext_iff_of_nodup (nodup_entriesAt _ _) (nodup_entries fits)).mpr fun stored =>
      ⟨fun member => entriesAt_subset ledger inRecords member, fun member => ?_⟩
    obtain ⟨effect, inOutcome, rfl⟩ := List.mem_map.mp member
    obtain ⟨tree, entry, isStored⟩ := fits.stored effect inOutcome
    have wrote : Wrote record tree entry := ⟨effect, inOutcome, isStored⟩
    rcases wrote.cases fits with ⟨-, rfl, -⟩ | ⟨two, -⟩ | ⟨three, -⟩
    · rcases ledger.retained record inRecords wrote with kept | ⟨-, below⟩
      · exact mem_entriesAt.mpr ⟨entry, kept, wrote.stateKey fits, isStored⟩
      · omega
    · omega
    · omega
  rw [← length_entriesAt, same.length_eq, List.length_map]

/-- Versions at a sequence are never more than its record's effects. -/
theorem versionCount_lt (ledger : Ledger initialPolicy records last floor view) (sequence : Nat) :
    versionCount (view.roots .state).entries sequence < 2 ^ 64 := by
  by_cases written : ∃ record ∈ records, record.sequence = sequence
  · obtain ⟨record, inRecords, rfl⟩ := written
    have short := ((nodup_entriesAt view record.sequence).subperm
      (entriesAt_subset ledger inRecords)).length_le
    rw [length_entriesAt, List.length_map] at short
    exact lt_of_le_of_lt short (ledger.fits record inRecords).few
  · have absent : versionCount (view.roots .state).entries sequence = 0 := by
      rw [versionCount, List.countP_eq_zero]
      intro entry member same
      obtain ⟨record, inRecords, at', -⟩ := state_record ledger member
      exact written ⟨record, inRecords, at'.trans (of_decide_eq_true same)⟩
    rw [absent]
    exact Nat.two_pow_pos 64

/-- A stored put decodes to its value. -/
theorem valuePayload_putBytes {value : Bytes}
    (fits : value.length ≤ Storage.Encoding.maxValueBytes) :
    Storage.Mvcc.valuePayload (putBytes value) = .ok (some value) := by
  have frame : (leBytes 4 value.length).length = 4 := length_leBytes 4 value.length
  have length : leNat (((putBytes value).drop 1).take 4) = value.length := by
    have small : value.length < 256 ^ 4 := by
      simp only [Storage.Encoding.maxValueBytes] at fits
      omega
    simp [putBytes, List.take_append_of_le_length frame.ge, List.take_of_length_le frame.le,
      leNat_leBytes 4 _ small]
  have payload : (putBytes value).drop 5 = value := by
    rw [putBytes, List.drop_succ_cons, List.drop_append_of_le_length frame.ge,
      List.drop_of_length_le frame.le, List.nil_append]
  have tagged : ¬ ((putBytes value).length < 5 ∨ (putBytes value).head? ≠ some 1) := by
    simp [putBytes, frame]
  have exact' : ¬ (value.length > Storage.Encoding.maxValueBytes ∨
      value.length ≠ (putBytes value).length - 5) := by
    simp only [putBytes, List.length_cons, List.length_append, frame]
    omega
  have put : putBytes value ≠ [0] := by simp [putBytes]
  simp only [Storage.Mvcc.valuePayload, if_neg put, refuse_of_not _ tagged, ok_bind, length,
    refuse_of_not _ exact', payload, pure_eq_ok]

/-- The row of a stored effect of a transaction. -/
theorem decode_stored {sequence : Nat} {effect : Effect} {entry : Storage.Entry}
    (valid : Outcome.validateEffect sequence 1 effect = .ok ())
    (stored : effectEntry sequence effect = .ok (.state, entry)) :
    ∃ value, StateValue.decode entry.2 = .ok value ∧ putValue value = (effectRow effect).2 := by
  cases effect with
  | put table key value =>
      rw [Database.effectEntry_put valid] at stored
      cases stored
      obtain ⟨⟨⟩, -, size⟩ := bind_eq_ok.mp valid
      refine ⟨.put value, ?_, rfl⟩
      have payload := valuePayload_putBytes (not_lt.mp (refuse_eq_ok.mp size))
      simp only [StateValue.decode, payload, ok_bind, pure_eq_ok]
  | delete table key =>
      rw [Database.effectEntry_delete valid] at stored
      cases stored
      exact ⟨.delete, rfl, rfl⟩
  | catalogue table value => cases valid
  | limits policy => cases valid

/-- Every state version passes the checks of the walk. -/
theorem rowPasses (ledger : Ledger initialPolicy records last floor view) {versions : Versions}
    {tables : OrdMap Nat TableHistory}
    (replayed : CatalogueReplay view records.length versions tables) {entry : Storage.Entry}
    (member : entry ∈ (view.roots .state).entries) : RowPasses records.length tables entry := by
  obtain ⟨record, inRecords, sequence, one, wrote⟩ := state_record ledger member
  have fits := ledger.fits record inRecords
  obtain ⟨positive, old⟩ := ledger.sequence_le inRecords
  obtain ⟨effect, inOutcome, stored⟩ := wrote
  have valid := fits.valid effect inOutcome
  rw [one] at valid
  obtain ⟨version, latest, live, typed⟩ := (fits.transaction one).rows effect inOutcome
  have unwritten := unwritten_of_kind ledger inRecords (by omega)
  obtain ⟨table, isLive, schemas⟩ := liveTable_eq ledger.life replayed latest live unwritten
  obtain ⟨value, decoded, isPut⟩ := decode_stored valid stored
  have decodedKey := ledger.keysDecode.decode member
  have address : (stateKey entry).tableId = (effectAddress effect).table ∧
      (stateKey entry).key = (effectAddress effect).key := by
    obtain ⟨shape, validKey⟩ := ledger.keysDecode.shape member
    have small := fits.small
    obtain ⟨key, value⟩ := entry
    rcases Database.effectEntry_cases (fits.valid effect inOutcome) stored with
      ⟨-, -, below, key⟩ | ⟨two, -⟩ | ⟨three, -⟩
    · obtain ⟨sameTable, sameKey, -⟩ := Storage.Mvcc.seekKey_inj validKey.table_lt.le (by omega) small
        (shape.symm.trans key)
      exact ⟨sameTable, sameKey⟩
    · omega
    · omega
  refine ⟨decodedKey, by omega, by omega, value, table, decoded, ?_, ?_⟩
  · rw [address.1, ← sequence]
    exact isLive
  · rw [address.2, isPut]
    exact checkRow_of_typed schemas typed

end Versions

/-! ## Outcomes -/

section Outcomes

variable {initialPolicy : LimitPolicy} {records : List OutcomeRecord} {last : Bytes} {floor : Nat}
variable {view : View} {versions : Versions} {tables : OrdMap Nat TableHistory}
variable {policies : OrdMap Nat LimitPolicy} {record : OutcomeRecord}

/-- What the walks over the other trees know of the records above the floor. -/
structure Walked (records : List OutcomeRecord) (floor : Nat) (view : View) (versions : Versions)
    (policies : OrdMap Nat LimitPolicy) : Prop where
  counts : ∀ record ∈ records, floor < record.sequence →
    (versions.find? record.sequence).getD (record.recordKind, 0) =
      (record.recordKind, (finalEffects record.outcome).length)
  policies : ∀ sequence ≤ records.length, ∀ policy : LimitPolicy,
    policies.find? sequence = some policy ↔
      (beBytes 8 sequence, policy.encode) ∈ (view.roots .policy).entries

/-- The physical keys of stored effects are within the ceiling. -/
theorem Wrote.get {tree : TreeId} {entry : Storage.Entry} (wrote : Wrote record tree entry)
    (fits : RecordFits view record) (stored : entry ∈ (view.roots tree).entries) :
    view.get tree entry.1 = .ok (some entry.2) := by
  have short : ¬ entry.1.length > Storage.maxKey := by
    rcases wrote.cases fits with ⟨-, -, key, valid, -, shape⟩ | ⟨-, -, id, -, shape⟩ | ⟨-, -, shape, -⟩
    · rw [shape]
      exact not_lt.mpr (Storage.Mvcc.length_seekKey_le _ _ valid.key_le)
    · rw [shape, Database.catalogueKey, List.length_append, length_beBytes, length_beBytes]
      decide
    · rw [shape, length_beBytes]
      decide
  rw [View.get, Storage.checkKey, if_neg short, ok_bind, OrdMap.find?_eq_some.mpr stored, pure_eq_ok]

theorem exactEffect_eq (ledger : Ledger initialPolicy records last floor view)
    (inRecords : record ∈ records) (above : floor < record.sequence) {effect : Effect}
    (inOutcome : effect ∈ finalEffects record.outcome) :
    exactEffect view record.sequence effect floor = .ok true := by
  have fits := ledger.fits record inRecords
  obtain ⟨tree, ⟨key, value⟩, stored⟩ := fits.stored effect inOutcome
  have wrote : Wrote record tree (key, value) := ⟨effect, inOutcome, stored⟩
  have kept : (key, value) ∈ (view.roots tree).entries := by
    rcases ledger.retained record inRecords wrote with kept | ⟨-, below⟩
    · exact kept
    · omega
  have read : (view.get tree key).mapError Error.storage = .ok (some value) :=
    mapError_eq_ok.mpr (Wrote.get wrote fits kept)
  simp only [exactEffect, stored, ok_bind, read, reduceCtorEq, false_and, if_false, ne_eq,
    not_true_eq_false, refuse_false, pure_eq_ok]

theorem matchedEffects_eq (ledger : Ledger initialPolicy records last floor view)
    (inRecords : record ∈ records) (above : floor < record.sequence) {effects : List Effect}
    (inOutcome : effects ⊆ finalEffects record.outcome) :
    matchedEffects view record.sequence floor effects = .ok effects.length := by
  induction effects with
  | nil => rfl
  | cons effect effects ih =>
      obtain ⟨first, rest⟩ := List.cons_subset.mp inOutcome
      simp only [matchedEffects, exactEffect_eq ledger inRecords above first, ok_bind, ih rest,
        pure_eq_ok, Bool.toNat_true, List.length_cons, Nat.add_comm]

theorem exactOutcome_eq (ledger : Ledger initialPolicy records last floor view)
    (walked : Walked records floor view versions policies) (inRecords : record ∈ records)
    (above : floor < record.sequence) :
    exactOutcome view versions floor record.sequence record.recordKind record.outcome = .ok () := by
  simp only [exactOutcome, walked.counts record inRecords above,
    matchedEffects_eq ledger inRecords above (List.Subset.refl _), ne_eq, not_true_eq_false,
    gt_iff_lt, lt_irrefl, or_self, refuse_false, ok_bind]

/-- The policy that the validator uses is the one in force. -/
theorem policyBefore_eq (walked : Walked records floor view versions policies) {sequence : Nat}
    (old : sequence ≤ records.length) {policy : LimitPolicy}
    (before : PolicyBefore view sequence policy) : policyBefore policies sequence = .ok policy := by
  obtain ⟨newest, inside, stored, most⟩ := before
  have listed : (newest, policy) ∈ policies.range .unbounded (.excluded sequence) :=
    OrdMap.mem_range.mpr ⟨OrdMap.find?_eq_some.mp
      ((walked.policies newest (by omega) policy).mpr stored), rfl, decide_eq_true inside⟩
  cases isLast : (policies.range .unbounded (.excluded sequence)).getLast? with
  | none =>
      rw [List.getLast?_eq_none_iff.mp isLast] at listed
      cases listed
  | some found =>
      obtain ⟨other, policy'⟩ := found
      obtain ⟨member, -, below⟩ := OrdMap.mem_range.mp (List.mem_of_getLast? isLast)
      have within : other < sequence := of_decide_eq_true below
      have notAfter : newest ≤ other :=
        (policies.increasing_range _ _).le_getLast isLast listed
      have isPolicy := OrdMap.find?_eq_some.mpr member
      have notBefore := most other within _ ((walked.policies other (by omega) policy').mp isPolicy)
      obtain rfl : other = newest := by omega
      rw [(walked.policies other (by omega) policy).mpr stored] at isPolicy
      cases isPolicy
      simp only [policyBefore, isLast]

theorem checkEffects_eq (ledger : Ledger initialPolicy records last floor view)
    (replayed : CatalogueReplay view records.length versions tables) (inRecords : record ∈ records)
    (one : record.recordKind = 1) {effects : List Effect}
    (inOutcome : effects ⊆ finalEffects record.outcome) :
    checkEffects tables record.sequence effects = .ok () := by
  have fits := ledger.fits record inRecords
  have unwritten := unwritten_of_kind ledger inRecords (by omega)
  induction effects with
  | nil => rfl
  | cons effect effects ih =>
      obtain ⟨first, rest⟩ := List.cons_subset.mp inOutcome
      obtain ⟨version, latest, live, typed⟩ := (fits.transaction one).rows effect first
      obtain ⟨table, isLive, schemas⟩ := liveTable_eq ledger.life replayed latest live unwritten
      simp only [checkEffects, isLive, ok_bind, effectRow_key, checkRow_of_typed schemas typed, ih rest]

/-- The outcome of the next record passes its checks. -/
theorem checkOutcome_eq (ledger : Ledger initialPolicy records last floor view)
    {replayedVersions : Versions}
    (replayed : CatalogueReplay view records.length replayedVersions tables)
    (walked : Walked records floor view versions policies) (inRecords : record ∈ records)
    (above : floor < record.sequence) {entry : Storage.Entry}
    (key : entry.1 = beBytes 8 record.sequence)
    (decoded : Outcome.decodeOutcome entry.2 = .ok record) :
    checkOutcome view records.length floor last tables policies versions record.sequence entry =
      .ok (record.sequence + 1) := by
  have small := ledger.small
  have fits := ledger.fits record inRecords
  obtain ⟨positive, old⟩ := ledger.sequence_le inRecords
  have isSequence : systemSequence entry.1 records.length false = .ok record.sequence := by
    rw [key]
    exact systemSequence_eq small old fun _ => by omega
  have digest : ¬ (record.sequence = records.length ∧ record.recordDigest ≠ last) := by
    rintro ⟨newest, different⟩
    exact different (ledger.newest record inRecords newest)
  have exactly' := exactOutcome_eq ledger walked inRecords above
  simp only [checkOutcome, isSequence, decoded, raise_ok, ok_bind, ne_eq, not_true_eq_false,
    refuse_false, and_false, refuse_of_not _ digest, exactly', if_pos above, pure_eq_ok]
  split_ifs with one
  · obtain ⟨policy, before, limits⟩ := (fits.transaction one).limits
    simp only [policyBefore_eq walked old before, ok_bind, limits, raise_ok,
      checkEffects_eq ledger replayed inRecords one (List.Subset.refl _)]
  · rfl

/-- The outcomes from a sequence to the checkpoint pass their checks. -/
theorem checkOutcomes_eq (ledger : Ledger initialPolicy records last floor view)
    {replayedVersions : Versions}
    (replayed : CatalogueReplay view records.length replayedVersions tables)
    (walked : Walked records floor view versions policies) {entries : List Storage.Entry} {next : Nat}
    (sorted : Increasing entries) (start : floor < next) (within : next ≤ records.length + 1)
    (each : ∀ entry ∈ entries, ∃ record ∈ records, next ≤ record.sequence ∧
      entry.1 = beBytes 8 record.sequence ∧ Outcome.decodeOutcome entry.2 = .ok record)
    (complete : ∀ record ∈ records, next ≤ record.sequence →
      ∃ value, (beBytes 8 record.sequence, value) ∈ entries) :
    checkOutcomes view records.length floor last tables policies versions next entries =
      .ok (records.length + 1) := by
  have width : maxU64 < 256 ^ 8 := by decide
  have small := ledger.small
  induction entries generalizing next with
  | nil =>
      have done : next = records.length + 1 := by
        by_contra unfinished
        obtain ⟨record, inRecords, same⟩ :=
          ledger.exists_record (show 1 ≤ next by omega) (show next ≤ records.length by omega)
        obtain ⟨value, member⟩ := complete record inRecords same.ge
        cases member
      rw [checkOutcomes, done]
  | cons entry entries ih =>
      obtain ⟨later, tail⟩ := List.pairwise_cons.mp sorted
      obtain ⟨record, inRecords, notBefore, key, decoded⟩ := each entry List.mem_cons_self
      have old := (ledger.sequence_le inRecords).2
      have first : record.sequence = next := by
        by_contra different
        obtain ⟨missing, inRecords', same⟩ :=
          ledger.exists_record (show 1 ≤ next by omega) (show next ≤ records.length by omega)
        obtain ⟨value, member⟩ := complete missing inRecords' same.ge
        rcases List.mem_cons.mp member with isFirst | inTail
        · rw [← isFirst] at key
          have := beBytes_inj (by omega) (by omega) key
          omega
        · have order := later _ inTail
          rw [key, Storage.Mvcc.beBytes_lt_iff (by omega) (by omega)] at order
          omega
      have passes := checkOutcome_eq ledger replayed walked inRecords (by omega) key decoded
      rw [first] at passes
      rw [checkOutcomes, passes, ok_bind]
      refine ih tail (by omega) (by omega) ?_ ?_
      · intro other member
        obtain ⟨record', inRecords', -, key', decoded'⟩ := each other (List.mem_cons_of_mem _ member)
        have order := later other member
        have old' := (ledger.sequence_le inRecords').2
        rw [key, key', Storage.Mvcc.beBytes_lt_iff (by omega) (by omega)] at order
        exact ⟨record', inRecords', by omega, key', decoded'⟩
      · intro record' inRecords' after
        have old' := (ledger.sequence_le inRecords').2
        obtain ⟨value, member⟩ := complete record' inRecords' (by omega)
        rcases List.mem_cons.mp member with isFirst | inTail
        · rw [← isFirst] at key
          have := beBytes_inj (by omega) (by omega) key
          omega
        · exact ⟨value, inTail⟩

/-- An administrative record writes nothing, or one retained entry. -/
theorem single_effect (ledger : Ledger initialPolicy records last floor view)
    (inRecords : record ∈ records) (other : record.recordKind ≠ 1) :
    finalEffects record.outcome = [] ∨ (finalEffects record.outcome).length = 1 ∧
      ∃ tree entry, Wrote record tree entry ∧ entry ∈ (view.roots tree).entries := by
  have fits := ledger.fits record inRecords
  have single := fits.single other
  match isOutcome : finalEffects record.outcome with
  | [] => exact .inl rfl
  | [effect] =>
      have inOutcome : effect ∈ finalEffects record.outcome := isOutcome ▸ List.mem_cons_self
      obtain ⟨tree, entry, stored⟩ := fits.stored effect inOutcome
      have wrote : Wrote record tree entry := ⟨effect, inOutcome, stored⟩
      refine .inr ⟨rfl, tree, entry, wrote, ?_⟩
      rcases ledger.retained record inRecords wrote with kept | ⟨rfl, -⟩
      · exact kept
      · rcases wrote.cases fits with ⟨one, -⟩ | ⟨-, tree, -⟩ | ⟨-, tree, -⟩
        · exact absurd one other
        · cases tree
        · cases tree
  | first :: second :: rest =>
      rw [isOutcome] at single
      simp at single

/-- The counts of catalogue versions describe the catalogue records. -/
theorem catalogue_counts (ledger : Ledger initialPolicy records last floor view)
    (replayed : CatalogueReplay view records.length versions tables) (inRecords : record ∈ records) :
    (record.recordKind ≠ 2 → versions.find? record.sequence = none) ∧
      (record.recordKind = 2 → (versions.find? record.sequence).getD (2, 0) =
        (2, (finalEffects record.outcome).length)) := by
  refine ⟨fun other => replayed.uncounted (unwritten_of_kind ledger inRecords other), fun two => ?_⟩
  have fits := ledger.fits record inRecords
  rcases single_effect ledger inRecords (by omega) with empty | ⟨single, tree, entry, wrote, kept⟩
  · have unwritten : ∀ id version, ¬ Stored view id record.sequence version := by
      intro id version stored
      obtain ⟨writer, inRecords', same, -, entry, effect, member, -⟩ := catalogue_record ledger stored
      obtain rfl := ledger.unique inRecords' inRecords same
      rw [empty] at member
      cases member
    rw [replayed.uncounted unwritten, empty]
    rfl
  · rcases wrote.cases fits with ⟨one, -⟩ | ⟨-, rfl, id, below, key⟩ | ⟨three, -⟩
    · omega
    · have small := fits.small
      have bounded := ledger.small
      obtain ⟨id', sequence, version, holds⟩ := ledger.life.keyed.entry entry kept
      have old := holds.2.2.2.1
      have order := holds.2.2.1
      obtain ⟨rfl, same⟩ := Database.catalogueKey_inj (by omega) (by omega) (by omega) (by omega)
        (key.symm.trans holds.1)
      have stored := holds.stored bounded kept
      rw [← same] at stored
      rw [replayed.counted stored, single]
      rfl
    · omega

/-- The walks over catalogue, policies and state succeed. -/
theorem walks (ledger : Ledger initialPolicy records last floor view) :
    ∃ catalogued tables counted policies versions,
      catalogueHistory view records.length ∅ = .ok (catalogued, tables) ∧
      CatalogueReplay view records.length catalogued tables ∧
      policyHistory records.length (view.roots .policy).entries catalogued ∅ =
        .ok (counted, policies) ∧
      stateHistory records.length tables (view.roots .state).entries counted = .ok versions ∧
      Walked records floor view versions policies := by
  have width : maxU64 < 256 ^ 8 := by decide
  have small := ledger.small
  obtain ⟨catalogued, tables, replays, replayed⟩ := catalogueHistory_accepts ledger.life le_rfl
  have unlisted {sequence : Nat} (positive : sequence ≠ 0) (old : sequence ≤ records.length)
      {value : Bytes} (member : (beBytes 8 sequence, value) ∈ (view.roots .policy).entries) :
      catalogued.find? sequence = none := by
    obtain ⟨record, inRecords, rfl, three, -⟩ := policy_record ledger positive old member
    exact (catalogue_counts ledger replayed inRecords).1 (by omega)
  obtain ⟨counted, policies, walkPolicies, listed, others⟩ := policyHistory_eq small
    (view.roots .policy).increasing ledger.policyKeyed catalogued ∅
    fun sequence old positive value member => unlisted positive old member
  -- Before the state walk, nothing is counted at the sequence of a transaction.
  have uncounted {record : OutcomeRecord} (inRecords : record ∈ records) (other : record.recordKind ≠ 3) :
      counted.find? record.sequence = catalogued.find? record.sequence := by
    obtain ⟨positive, old⟩ := ledger.sequence_le inRecords
    refine (others record.sequence fun value member => ?_).1
    obtain ⟨writer, inRecords', same, three, -⟩ := policy_record ledger (by omega) old member
    obtain rfl := ledger.unique inRecords' inRecords same
    exact other three
  obtain ⟨versions, walkState, finds⟩ := stateHistory_eq small
    (fun entry member => rowPasses ledger replayed member) counted (fun _ => 0) (by
      intro sequence some
      obtain ⟨entry, member, isSequence⟩ := List.countP_pos_iff.mp (Nat.pos_of_ne_zero some)
      obtain ⟨record, inRecords, same, one, -⟩ := state_record ledger member
      rw [← of_decide_eq_true isSequence, ← same, uncounted inRecords (by omega),
        (catalogue_counts ledger replayed inRecords).1 (by omega)]
      exact .inl ⟨rfl, rfl⟩) (by
      intro sequence
      rw [Nat.zero_add]
      exact versionCount_lt ledger sequence)
  refine ⟨catalogued, tables, counted, policies, versions, replays, replayed, walkPolicies, walkState,
    ?_, ?_⟩
  · intro record inRecords above
    have fits := ledger.fits record inRecords
    obtain ⟨positive, old⟩ := ledger.sequence_le inRecords
    obtain ⟨notCatalogue, catalogue⟩ := catalogue_counts ledger replayed inRecords
    rw [finds]
    by_cases one : record.recordKind = 1
    · rw [versionCount_eq ledger inRecords above one]
      split_ifs with empty
      · rw [uncounted inRecords (by omega), notCatalogue (by omega), empty]
        rfl
      · rw [Nat.zero_add, one]
        rfl
    · have absent : versionCount (view.roots .state).entries record.sequence = 0 := by
        rw [versionCount, List.countP_eq_zero]
        intro entry member same
        obtain ⟨writer, inRecords', at', isOne, -⟩ := state_record ledger member
        obtain rfl := ledger.unique inRecords' inRecords (at'.trans (of_decide_eq_true same))
        exact one isOne
      rw [if_pos absent]
      by_cases three : record.recordKind = 3
      · rcases single_effect ledger inRecords one with empty | ⟨single, tree, entry, wrote, kept⟩
        · have unwritten (value : Bytes) :
              (beBytes 8 record.sequence, value) ∉ (view.roots .policy).entries := by
            intro member
            obtain ⟨writer, inRecords', same, -, entry, effect, inOutcome, -⟩ :=
              policy_record ledger (by omega) old member
            obtain rfl := ledger.unique inRecords' inRecords same
            rw [empty] at inOutcome
            cases inOutcome
          rw [(others record.sequence unwritten).1, notCatalogue (by omega), empty]
          rfl
        · rcases wrote.cases fits with ⟨isOne, -⟩ | ⟨two, -⟩ | ⟨-, rfl, key, policy, value⟩
          · exact absurd isOne one
          · omega
          · have member : (beBytes 8 record.sequence, policy.encode) ∈ (view.roots .policy).entries := by
              rw [← key, ← value]
              exact kept
            rw [(listed record.sequence old policy member).2 (by omega), three, single]
            rfl
      · rw [uncounted inRecords three]
        by_cases two : record.recordKind = 2
        · rw [two]
          exact catalogue two
        · rcases single_effect ledger inRecords one with empty | ⟨-, tree, entry, wrote, -⟩
          · rw [notCatalogue two, empty]
            rfl
          · rcases wrote.cases fits with ⟨isOne, -⟩ | ⟨isTwo, -⟩ | ⟨isThree, -⟩
            · exact absurd isOne one
            · exact absurd isTwo two
            · exact absurd isThree three
  · intro sequence old policy
    constructor
    · intro found
      by_cases member : ∃ value, (beBytes 8 sequence, value) ∈ (view.roots .policy).entries
      · obtain ⟨value, member⟩ := member
        obtain ⟨sequence', old', policy', same⟩ := ledger.policyKeyed _ member
        obtain ⟨key, rfl⟩ := Prod.mk.inj same
        rw [(listed sequence old policy' member).1] at found
        cases found
        exact member
      · rw [(others sequence fun value isMember => member ⟨value, isMember⟩).2] at found
        cases found
    · intro member
      exact (listed sequence old policy member).1

end Outcomes

/-- The validator accepts every ledger. -/
theorem validate_ledger {initialPolicy : LimitPolicy} {records : List OutcomeRecord} {last : Bytes}
    {floor : Nat} {view : View} (ledger : Ledger initialPolicy records last floor view) :
    ∃ versions, validate view records.length floor last initialPolicy = .ok versions := by
  have small := ledger.small
  obtain ⟨catalogued, tables, counted, policies, versions, replays, replayed, walkPolicies, walkState,
    walked⟩ := walks ledger
  have outcomes := checkOutcomes_eq ledger replayed walked (view.roots .outcomes).increasing
    (Nat.lt_succ_self floor) (Nat.succ_le_succ ledger.covered) ledger.outcomes ledger.resolved
  have bounds : ¬ (floor > records.length ∨ records.length = maxU64) := by
    have := ledger.covered
    omega
  have genesis := (walked.policies 0 (Nat.zero_le _) initialPolicy).mpr ledger.genesis
  refine ⟨versions, ?_⟩
  simp only [validate, refuse_of_not _ bounds, raise_ok, ok_bind, replays, view.scan_unbounded,
    walkPolicies, genesis, ne_eq, not_true_eq_false, refuse_false, walkState, outcomes, pure_eq_ok]

end BlopDb.Vm.History

namespace BlopDb.Vm

open BlopDb.Lib
open Storage (View LimitPolicy)

/-- Validation raises no false alarm: it accepts the trees of every history,
after whatever records and collections. -/
theorem reached_validateHistory [Sha256] {initialPolicy : LimitPolicy} {commands : List Command}
    {floor : Nat} {last : Bytes} {view : View}
    (reached : Reached initialPolicy commands floor last view) :
    ∃ versions, History.validateHistory view commands.length floor last initialPolicy =
      .ok versions := by
  obtain ⟨records, same, ledger⟩ := reached.ledger
  obtain ⟨versions, valid⟩ := History.validate_ledger ledger
  rw [same] at valid
  exact ⟨versions, by simp only [History.validateHistory, valid]⟩

namespace Sample

/-- The creation of the table that the sample transaction writes. -/
def tableCreation : Command := .catalogue (.create "a" .u64 .u64)

/-- The sample transaction as a record. -/
def writing : Command := .transaction transaction claims none

/-- The trees after a creation and two transactions that write the same row. -/
def rewritten : View :=
  install (install (install (genesisView claims) 1 tableCreation) 2 writing) 3 writing

/-- The trees after the first version of the row is collected. -/
def collected : View :=
  match Storage.Collect.collectView false 0 rewritten 3 3 with
  | .ok (after, _) => after
  | .error _ => rewritten

theorem rewritten_collects :
    (Storage.Collect.collectView false 0 rewritten 3 3).toOption.isSome = true := by
  decide +kernel

/-- A history with two versions of a row, of which the first is collected. -/
theorem collected_validates : ∃ versions,
    History.validateHistory collected 3 3 recordDigest claims = .ok versions := by
  have first : Reached claims [tableCreation] 0 recordDigest
      (install (genesisView claims) 1 tableCreation) :=
    reached_install (.genesis []) (by decide +kernel)
  have second : Reached claims [tableCreation, writing] 0 recordDigest
      (install (install (genesisView claims) 1 tableCreation) 2 writing) :=
    reached_install first (by decide +kernel)
  have third : Reached claims [tableCreation, writing, writing] 0 recordDigest rewritten :=
    reached_install second (by decide +kernel)
  refine @reached_validateHistory _ claims [tableCreation, writing, writing] 3 recordDigest collected ?_
  have works := rewritten_collects
  unfold collected
  cases result : Storage.Collect.collectView false 0 rewritten 3 3 with
  | error error =>
      rw [result] at works
      cases works
  | ok pair =>
      obtain ⟨after, removed⟩ := pair
      exact .collect third (show 3 ≤ 3 from le_rfl) result

end Sample

end BlopDb.Vm
