/-
# The trees as a ledger of records

The trees of a history are a projection of its resolved records: every version
is an effect of one record, every record above the collection floor still has
all its versions and its outcome, and what a transaction wrote fits the tables
and the policy in force before it.
-/

import BlopDb.Vm.CatalogueSound
import BlopDb.Vm.HistorySound

namespace BlopDb.Vm

open BlopDb.Lib
open Storage (View TreeId LimitPolicy maxU64)
open Storage.Mvcc (StateKey StateValue)
open Database (Lifecycle Stored Latest Keyed finalEffects effectEntry)
open Outcome (effectAddress)

/-- The last policy before a sequence. -/
def PolicyBefore (view : View) (bound : Nat) (policy : LimitPolicy) : Prop :=
  ∃ last < bound, (beBytes 8 last, policy.encode) ∈ (view.roots .policy).entries ∧
    ∀ sequence < bound, ∀ value, (beBytes 8 sequence, value) ∈ (view.roots .policy).entries →
      sequence ≤ last

/-- An effect writes a row of its table's types. -/
def Typed (table : Table) (effect : Effect) : Prop :=
  (∃ key, table.key.accepts key = true ∧ (effectAddress effect).key = key.keyBytes) ∧
    ∀ bytes, (History.effectRow effect).2 = some bytes →
      ∃ value, table.value.accepts value = true ∧ bytes = value.encode

/-- What holds of a transaction's outcome at its sequence. -/
structure TransactionFits (view : View) (sequence : Nat) (outcome : Outcome) : Prop where
  /-- It respects the policy in force. -/
  limits : ∃ policy, PolicyBefore view sequence policy ∧
    History.transactionLimits outcome policy = .ok ()
  /-- It writes rows of tables that are live. -/
  rows : ∀ effect ∈ finalEffects outcome, ∃ version,
    Latest view (effectAddress effect).table sequence version ∧ version.live = true ∧
      Typed version.table effect

/-- What holds of a resolved record. -/
structure RecordFits (view : View) (record : OutcomeRecord) : Prop where
  small : record.sequence < maxU64
  valid : ∀ effect ∈ finalEffects record.outcome,
    Outcome.validateEffect record.sequence record.recordKind effect = .ok ()
  stored : ∀ effect ∈ finalEffects record.outcome, ∃ tree entry,
    effectEntry record.sequence effect = .ok (tree, entry)
  distinct : (finalEffects record.outcome).Pairwise fun left right =>
    effectAddress left ≠ effectAddress right
  single : record.recordKind ≠ 1 → (finalEffects record.outcome).length ≤ 1
  few : (finalEffects record.outcome).length < 2 ^ 64
  transaction : record.recordKind = 1 → TransactionFits view record.sequence record.outcome

/-- A record wrote an entry of a tree. -/
def Wrote (record : OutcomeRecord) (tree : TreeId) (entry : Storage.Entry) : Prop :=
  ∃ effect ∈ finalEffects record.outcome, effectEntry record.sequence effect = .ok (tree, entry)

/-- The trees describe the resolved records down to a floor. -/
structure Ledger (initialPolicy : LimitPolicy) (records : List OutcomeRecord) (last : Bytes)
    (floor : Nat) (view : View) : Prop where
  life : Lifecycle view records.length
  covered : floor ≤ records.length
  numbered : ∀ {position record}, records[position]? = some record → record.sequence = position + 1
  newest : ∀ record ∈ records, record.sequence = records.length → record.recordDigest = last
  fits : ∀ record ∈ records, RecordFits view record
  /-- Every version is written by a record, the initial policy apart. -/
  written : ∀ {tree entry}, tree ≠ .outcomes → entry ∈ (view.roots tree).entries →
    (tree = .policy ∧ entry = (beBytes 8 0, initialPolicy.encode)) ∨
      ∃ record ∈ records, Wrote record tree entry
  /-- Only state versions at or below the floor may be missing. -/
  retained : ∀ record ∈ records, ∀ {tree entry}, Wrote record tree entry →
    entry ∈ (view.roots tree).entries ∨ (tree = .state ∧ record.sequence ≤ floor)
  genesis : (beBytes 8 0, initialPolicy.encode) ∈ (view.roots .policy).entries
  outcomes : ∀ entry ∈ (view.roots .outcomes).entries, ∃ record ∈ records,
    floor < record.sequence ∧ entry.1 = beBytes 8 record.sequence ∧
      Outcome.decodeOutcome entry.2 = .ok record
  resolved : ∀ record ∈ records, floor < record.sequence →
    ∃ value, (beBytes 8 record.sequence, value) ∈ (view.roots .outcomes).entries

/-! ## Entries and their sequences -/

section Entries

variable {view view' : View} {record record' : OutcomeRecord} {tree : TreeId}
variable {entry entry' : Storage.Entry}

/-- The address of a valid effect of a transaction. -/
theorem validateAddress_of_valid {sequence : Nat} {effect : Effect}
    (valid : Outcome.validateEffect sequence 1 effect = .ok ()) :
    Outcome.validateAddress sequence (effectAddress effect).table (effectAddress effect).key =
      .ok () := by
  cases effect with
  | put table key value =>
      obtain ⟨⟨⟩, addressed, -⟩ := bind_eq_ok.mp valid
      exact addressed
  | delete table key => exact valid
  | catalogue table value => cases valid
  | limits policy => cases valid

/-- An entry that a record wrote, by the kind of the record. -/
theorem Wrote.cases (wrote : Wrote record tree entry) (fits : RecordFits view record) :
    (record.recordKind = 1 ∧ tree = .state ∧ ∃ key : StateKey, key.Valid ∧
        key.sequence = record.sequence ∧ entry.1 = key.encode) ∨
      (record.recordKind = 2 ∧ tree = .catalogue ∧ ∃ id ≤ record.sequence,
        entry.1 = Database.catalogueKey id record.sequence) ∨
      (record.recordKind = 3 ∧ tree = .policy ∧ entry.1 = beBytes 8 record.sequence ∧
        ∃ policy : LimitPolicy, entry.2 = policy.encode) := by
  obtain ⟨effect, member, stored⟩ := wrote
  have valid := fits.valid effect member
  have small := fits.small
  obtain ⟨key, value⟩ := entry
  rcases Database.effectEntry_cases valid stored with
    ⟨one, rfl, below, rfl⟩ | ⟨two, rfl, below, -, rfl⟩ | ⟨three, rfl, -, rfl⟩
  · rw [one] at valid
    obtain ⟨positive, -, -, short, -⟩ :=
      Outcome.validateAddress_eq_ok.mp (validateAddress_of_valid valid)
    exact .inl ⟨one, rfl, ⟨(effectAddress effect).table, (effectAddress effect).key,
      record.sequence⟩, ⟨positive, below.trans small, small, short, below⟩, rfl, rfl⟩
  · exact .inr (.inl ⟨two, rfl, _, below, rfl⟩)
  · refine .inr (.inr ⟨three, rfl, rfl, ?_⟩)
    cases effect with
    | limits policy =>
        cases stored
        exact ⟨policy, rfl⟩
    | put table key value | delete table key | catalogue table value =>
        simp [Outcome.validateEffect, three] at valid

/-- Records at different sequences write different entries of a tree. -/
theorem Wrote.sequence_eq (wrote : Wrote record tree entry) (wrote' : Wrote record' tree entry')
    (fits : RecordFits view record) (fits' : RecordFits view' record') (same : entry.1 = entry'.1) :
    record.sequence = record'.sequence := by
  have width : maxU64 < 256 ^ 8 := by decide
  have small := fits.small
  have small' := fits'.small
  rcases wrote.cases fits with
    ⟨-, rfl, key, valid, isSequence, shape⟩ | ⟨-, rfl, id, below, shape⟩ | ⟨-, rfl, shape, -⟩ <;>
  rcases wrote'.cases fits' with
    ⟨-, isTree, key', valid', isSequence', shape'⟩ | ⟨-, isTree, id', below', shape'⟩ |
      ⟨-, isTree, shape', -⟩ <;>
  try cases isTree
  · have decoded := StateKey.decode_encode valid
    rw [← shape, same, shape', StateKey.decode_encode valid'] at decoded
    cases decoded
    exact isSequence.symm.trans isSequence'
  · exact (Database.catalogueKey_inj (by omega) (by omega) (by omega) (by omega)
      (shape.symm.trans (same.trans shape'))).2
  · exact beBytes_inj (by omega) (by omega) (shape.symm.trans (same.trans shape'))

end Entries

/-! ## Tables and policies before a record -/

section Before

variable {view after : View} {frontier bound : Nat}

/-- The last policy of the entries that a lookup reads. -/
theorem latestPolicy_eq_ok {entries : List Storage.Entry} {latest : Option LimitPolicy}
    {policy : LimitPolicy}
    (found : Database.latestPolicy entries latest = .ok (some policy)) :
    (entries = [] ∧ latest = some policy) ∨
      ∃ entry, entries.getLast? = some entry ∧ LimitPolicy.decode entry.2 = .ok policy := by
  induction entries generalizing latest with
  | nil =>
      cases found
      exact .inl ⟨rfl, rfl⟩
  | cons entry entries ih =>
      obtain ⟨⟨⟩, -, found⟩ := bind_eq_ok.mp found
      obtain ⟨⟨⟩, -, found⟩ := bind_eq_ok.mp found
      obtain ⟨decoded, read, found⟩ := bind_eq_ok.mp found
      rcases ih found with ⟨rfl, same⟩ | ⟨last, isLast, decodes⟩
      · cases same
        exact .inr ⟨entry, rfl, mapError_eq_ok.mp read⟩
      · refine .inr ⟨last, ?_, decodes⟩
        rw [List.getLast?_cons, isLast]
        rfl

/-- Every policy entry is the policy of a sequence. -/
def PolicyKeyed (view : View) (frontier : Nat) : Prop :=
  ∀ entry ∈ (view.roots .policy).entries, ∃ sequence ≤ frontier, ∃ policy : LimitPolicy,
    entry = (beBytes 8 sequence, policy.encode)

/-- The policy that a lookup finds is the last one at or before its sequence. -/
theorem policyBefore_of_policy (keyed : PolicyKeyed view frontier) (bounded : frontier < maxU64)
    (inside : bound < maxU64) {policy : LimitPolicy}
    (found : Database.policy view bound = .ok policy) : PolicyBefore view (bound + 1) policy := by
  have width : maxU64 < 256 ^ 8 := by decide
  obtain ⟨⟨⟩, -, found⟩ := bind_eq_ok.mp found
  obtain ⟨entries, scanned, found⟩ := bind_eq_ok.mp found
  obtain ⟨latest, chosen, found⟩ := bind_eq_ok.mp found
  cases latest with
  | none => cases found
  | some latest =>
      cases found
      obtain ⟨⟨⟩, -, scanned⟩ := bind_eq_ok.mp (mapError_eq_ok.mp scanned)
      obtain ⟨⟨⟩, -, scanned⟩ := bind_eq_ok.mp scanned
      have same : (view.roots .policy).range .unbounded (.included (beBytes 8 bound)) = entries :=
        Except.ok.inj scanned
      rcases latestPolicy_eq_ok chosen with ⟨-, none⟩ | ⟨entry, isLast, decoded⟩
      · cases none
      · rw [← same] at isLast
        have member := List.mem_of_getLast? isLast
        obtain ⟨stored, -, below⟩ := OrdMap.mem_range.mp member
        obtain ⟨last, old, policy', rfl⟩ := keyed entry stored
        rw [LimitPolicy.decode_encode] at decoded
        cases decoded
        have order : last ≤ bound := by
          have := of_decide_eq_true below
          by_contra beyond
          have less := (Storage.Mvcc.beBytes_lt_iff (show bound < 256 ^ 8 by omega)
            (show last < 256 ^ 8 by omega)).mpr (not_le.mp beyond)
          exact absurd this (not_le.mpr less)
        refine ⟨last, Nat.lt_succ_of_le order, stored, ?_⟩
        intro sequence within value other
        have scannedToo : (beBytes 8 sequence, value) ∈
            (view.roots .policy).range .unbounded (.included (beBytes 8 bound)) := by
          refine OrdMap.mem_range.mpr ⟨other, rfl, decide_eq_true (not_lt.mp ?_)⟩
          rw [Storage.Mvcc.beBytes_lt_iff (by omega) (by omega)]
          omega
        have notAfter := ((view.roots .policy).increasing_range _ _).le_getLast isLast scannedToo
        by_contra after
        have less := (Storage.Mvcc.beBytes_lt_iff (show last < 256 ^ 8 by omega)
          (show sequence < 256 ^ 8 by omega)).mpr (not_le.mp after)
        exact absurd notAfter (not_le.mpr less)

/-- The tables of a prepared program are live before its sequence. -/
theorem resolveTables_latest (keyed : Keyed view frontier) (inside : bound < maxU64) {ids : List Nat}
    {tables : List Table} (resolved : resolveTables view bound ids = .ok tables) :
    ∀ table ∈ tables, ∃ version, Latest view table.id (bound + 1) version ∧ version.live = true ∧
      version.table = table := by
  induction ids generalizing tables with
  | nil =>
      cases resolved
      nofun
  | cons id ids ih =>
      obtain ⟨table, found, rest⟩ := bind_eq_ok.mp resolved
      obtain ⟨others, resolvedRest, same⟩ := bind_eq_ok.mp rest
      cases same
      obtain ⟨version, read, isLive⟩ := bind_eq_ok.mp found
      simp only [List.mem_cons, forall_eq_or_imp]
      refine ⟨?_, ih resolvedRest⟩
      cases version with
      | none => cases isLive
      | some version =>
          obtain ⟨latest, named⟩ := Database.latest_of_catalogueVersion keyed inside read
          simp only at isLive
          split at isLive
          case isTrue live =>
            cases isLive
            exact ⟨version, named ▸ latest, live, rfl⟩
          case isFalse => cases isLive

theorem prepareProgram_latest {programBytes argumentBytes : Bytes} {claims : LimitPolicy}
    {prior : Nat} {program : Program} (keyed : Keyed view frontier)
    (prepared : prepareProgram view (frontier + 1) programBytes argumentBytes claims =
      .ok (prior, program)) :
    ∀ table ∈ program.tables, ∃ version, Latest view table.id (frontier + 1) version ∧
      version.live = true ∧ version.table = table := by
  obtain ⟨prior', found, prepared⟩ := bind_eq_ok.mp prepared
  obtain ⟨policy, -, prepared⟩ := bind_eq_ok.mp prepared
  obtain ⟨⟨⟩, -, prepared⟩ := bind_eq_ok.mp prepared
  obtain ⟨ids, -, prepared⟩ := bind_eq_ok.mp prepared
  obtain ⟨tables, resolved, prepared⟩ := bind_eq_ok.mp prepared
  obtain ⟨program', decoded, same⟩ := bind_eq_ok.mp prepared
  cases same
  obtain ⟨-, next⟩ := priorSequence_eq_ok found
  obtain rfl : frontier = prior := by omega
  obtain ⟨-, rfl⟩ := Program.decode_loaded decoded
  exact resolveTables_latest keyed keyed.bounded resolved

end Before

/-! ## What a record computes -/

section Computed

variable {view after : View} {frontier : Nat} {outcome : Outcome}

theorem effectRow_effect (entry : Address × Option Bytes) :
    (History.effectRow (Runtime.effect entry)).2 = entry.2 := by
  obtain ⟨address, value⟩ := entry
  cases value <;> rfl

variable [Sha256]

/-- The outcome of a transaction fits the state before it. -/
theorem transactionFits_of_computed (keyed : Keyed view frontier)
    (policies : PolicyKeyed view frontier) {transaction : Transaction} {claims : LimitPolicy}
    {manifest : Option AccessManifest} {prepared : PreparedTransaction}
    (found : prepareTransaction view (frontier + 1) transaction claims manifest = .ok prepared)
    (ran : interpretPrepared view prepared = some (.ok outcome)) :
    TransactionFits view (frontier + 1) outcome := by
  have sound := interpretPrepared_sound found ran
  obtain ⟨read, -, -⟩ := prepareTransaction_eq_ok found
  have established := prepareProgram_prepared read
  have next := established.sequence_eq
  obtain ⟨policy, known, under⟩ := established.policy
  obtain rfl : frontier = prepared.prior := by omega
  refine ⟨⟨policy, policyBefore_of_policy policies keyed.bounded keyed.bounded known,
    sound.transactionLimits (value_le_of_not_exceeds under)⟩, ?_⟩
  cases outcome with
  | aborted abort => nofun
  | success ty value effects =>
      obtain ⟨rfl, -, -, -, overlay, usage, rfl, overlaid, -⟩ := sound
      intro effect member
      obtain ⟨entry, inOverlay, rfl⟩ := List.mem_map.mp member
      obtain ⟨-, position, table, instruction, isTable, named, -, -, key, stores⟩ :=
        overlaid.written entry inOverlay
      obtain ⟨version, latest, live, rfl⟩ :=
        prepareProgram_latest keyed read table (List.mem_of_getElem? isTable)
      rw [Runtime.effectAddress_effect, ← named]
      refine ⟨version, latest, live, ?_, ?_⟩
      · rw [Runtime.effectAddress_effect]
        exact key
      · rw [effectRow_effect]
        intro bytes isPut
        exact (stores bytes isPut).2

omit [Sha256] in
/-- The outcomes of catalogue records have the types of identities and unit. -/
theorem catalogue_outcome {operation : CatalogueOperation} {sequence : Nat}
    (computed : Database.catalogue view sequence operation = .ok outcome) :
    (∃ reason, outcome = Database.administrativeAbort reason) ∨
      ∃ ty value effects, outcome = .success ty value effects ∧ (ty = .u64 ∨ ty = .unit) := by
  have success {version : CatalogueVersion} {ty : Ty} {value : Value} (simple : ty = .u64 ∨ ty = .unit)
      (returned : Database.catalogueSuccess version ty value = .ok outcome) :
      ∃ ty value effects, outcome = .success ty value effects ∧ (ty = .u64 ∨ ty = .unit) := by
    obtain ⟨bytes, -, same⟩ := bind_eq_ok.mp returned
    cases same
    exact ⟨ty, value, _, rfl, simple⟩
  obtain ⟨⟨⟩, -, computed⟩ := bind_eq_ok.mp computed
  obtain ⟨⟨⟩, -, computed⟩ := bind_eq_ok.mp computed
  cases operation with
  | create name key value =>
      obtain ⟨taken, -, computed⟩ := bind_eq_ok.mp computed
      cases taken with
      | true =>
          cases computed
          exact .inl ⟨_, rfl⟩
      | false => exact .inr (success (.inl rfl) computed)
  | rename table name =>
      obtain ⟨version, -, computed⟩ := bind_eq_ok.mp computed
      cases version with
      | none =>
          cases computed
          exact .inl ⟨_, rfl⟩
      | some version =>
          obtain ⟨taken, -, computed⟩ := bind_eq_ok.mp computed
          cases taken with
          | true =>
              cases computed
              exact .inl ⟨_, rfl⟩
          | false => exact .inr (success (.inr rfl) computed)
  | drop table =>
      obtain ⟨version, -, computed⟩ := bind_eq_ok.mp computed
      cases version with
      | none =>
          cases computed
          exact .inl ⟨_, rfl⟩
      | some version => exact .inr (success (.inr rfl) computed)

/-- The encoded outcome of a record decodes to its canonical form. -/
theorem decodeOutcome_computed {command : Command} {digest bytes : Bytes} {sequence : Nat}
    (small : sequence < maxU64) (width : digest.length = 32)
    (computed : command.outcome view sequence = some (.ok outcome))
    (encoded : Outcome.encodeOutcome sequence digest command.kind outcome = .ok bytes) :
    Outcome.decodeOutcome bytes =
      .ok ⟨sequence, digest, command.kind, Outcome.canonical outcome⟩ := by
  have fits : maxU64 < 2 ^ 64 := by decide
  suffices shape : (∀ abort, outcome = .aborted abort → abort.userCode < 2 ^ 32) ∧
      ∀ ty value effects, outcome = .success ty value effects → ty.Formed 16 from
    Outcome.decode_encode (by omega) width shape.1 shape.2 encoded
  cases command with
  | transaction transaction claims manifest =>
      simp only [Command.outcome] at computed
      split at computed
      case h_1 prepared found =>
        have sound := interpretPrepared_sound found computed
        obtain ⟨read, -, -⟩ := prepareTransaction_eq_ok found
        have loaded := (prepareProgram_prepared read).loaded
        refine ⟨fun abort same => ?_, fun ty value effects same => ?_⟩
        · rw [same] at sound
          exact sound.userCode_lt loaded
        · rw [same] at sound
          rw [sound.1]
          exact loaded.result.1
      case h_2 => cases computed
  | catalogue operation =>
      rcases catalogue_outcome (Option.some.inj computed) with
        ⟨reason, rfl⟩ | ⟨ty, value, effects, rfl, simple⟩
      · refine ⟨fun abort same => ?_, nofun⟩
        cases same
        exact Nat.two_pow_pos 32
      · refine ⟨nofun, fun ty' value' effects' same => ?_⟩
        cases same
        rcases simple with rfl | rfl <;> trivial
  | limits policy =>
      cases computed
      refine ⟨nofun, fun ty value effects same => ?_⟩
      cases same
      trivial

end Computed

/-! ## Steps and runs -/

section Steps

variable {initialPolicy : LimitPolicy} {records : List OutcomeRecord} {last : Bytes} {floor : Nat}
variable {view after : View}

theorem Ledger.small (ledger : Ledger initialPolicy records last floor view) :
    records.length < maxU64 := ledger.life.keyed.bounded

/-- The sequences of the records. -/
theorem Ledger.sequence_le (ledger : Ledger initialPolicy records last floor view)
    {record : OutcomeRecord} (member : record ∈ records) :
    1 ≤ record.sequence ∧ record.sequence ≤ records.length := by
  obtain ⟨position, inside, rfl⟩ := List.mem_iff_getElem.mp member
  have := ledger.numbered (List.getElem?_eq_getElem inside)
  omega

/-- There is one record for each sequence. -/
theorem Ledger.unique (ledger : Ledger initialPolicy records last floor view)
    {record record' : OutcomeRecord} (member : record ∈ records) (member' : record' ∈ records)
    (same : record.sequence = record'.sequence) : record = record' := by
  obtain ⟨position, inside, rfl⟩ := List.mem_iff_getElem.mp member
  obtain ⟨position', inside', rfl⟩ := List.mem_iff_getElem.mp member'
  have first := ledger.numbered (List.getElem?_eq_getElem inside)
  have second := ledger.numbered (List.getElem?_eq_getElem inside')
  obtain rfl : position = position' := by omega
  rfl

theorem Ledger.exists_record (ledger : Ledger initialPolicy records last floor view) {sequence : Nat}
    (positive : 1 ≤ sequence) (old : sequence ≤ records.length) :
    ∃ record ∈ records, record.sequence = sequence := by
  have inside : sequence - 1 < records.length := by omega
  refine ⟨records[sequence - 1], List.getElem_mem inside, ?_⟩
  have := ledger.numbered (List.getElem?_eq_getElem inside)
  omega

theorem Ledger.policyKeyed (ledger : Ledger initialPolicy records last floor view) :
    PolicyKeyed view records.length := by
  intro entry member
  rcases ledger.written (show TreeId.policy ≠ .outcomes from nofun) member with
    ⟨-, rfl⟩ | ⟨record, inRecords, wrote⟩
  · exact ⟨0, Nat.zero_le _, initialPolicy, rfl⟩
  · rcases wrote.cases (ledger.fits record inRecords) with
      ⟨-, tree, -⟩ | ⟨-, tree, -⟩ | ⟨-, -, key, policy, value⟩
    · cases tree
    · cases tree
    · exact ⟨record.sequence, (ledger.sequence_le inRecords).2, policy, Prod.ext key value⟩

theorem TransactionFits.mono {sequence : Nat} {outcome : Outcome}
    (fits : TransactionFits view sequence outcome)
    (policies : ∀ policy, PolicyBefore view sequence policy → PolicyBefore after sequence policy)
    (tables : ∀ id version, Latest view id sequence version → Latest after id sequence version) :
    TransactionFits after sequence outcome := by
  obtain ⟨policy, before, limits⟩ := fits.limits
  refine ⟨⟨policy, policies policy before, limits⟩, fun effect member => ?_⟩
  obtain ⟨version, latest, rest⟩ := fits.rows effect member
  exact ⟨version, tables _ version latest, rest⟩

theorem RecordFits.mono {record : OutcomeRecord} (fits : RecordFits view record)
    (transactions : TransactionFits view record.sequence record.outcome →
      TransactionFits after record.sequence record.outcome) : RecordFits after record :=
  { fits with transaction := fun one => transactions (fits.transaction one) }

theorem ledger_genesis (last : Bytes) :
    Ledger initialPolicy [] last 0 (genesisView initialPolicy) := by
  refine ⟨lifecycle_genesis, le_rfl, nofun, nofun, nofun, ?_, nofun, ?_, nofun, nofun⟩
  · intro tree entry notOutcome member
    cases tree with
    | policy => exact .inl ⟨rfl, List.mem_singleton.mp member⟩
    | state | catalogue | outcomes | cursors => cases member
  · exact List.mem_singleton.mpr rfl

theorem mem_canonical {outcome : Outcome} {effect : Effect} :
    effect ∈ finalEffects (Outcome.canonical outcome) ↔ effect ∈ finalEffects outcome := by
  cases outcome with
  | aborted abort => rfl
  | success ty value effects => exact (List.mergeSort_perm effects _).mem_iff

/-- A transaction's effects are in address order. -/
theorem canonical_of_sound {program : Program} {claims : LimitPolicy} {outcome : Outcome}
    (sound : Runtime.OutcomeSound program claims outcome) : Outcome.canonical outcome = outcome := by
  cases outcome with
  | aborted abort => rfl
  | success ty value effects =>
      obtain ⟨-, -, -, -, overlay, usage, rfl, -⟩ := sound
      simp only [Outcome.canonical,
        Outcome.sortEffects_of_increasing (Runtime.increasing_effects overlay)]

/-- The resolved form of an installed record fits the state before it. -/
theorem recordFits_of_installs [Sha256] (ledger : Ledger initialPolicy records last floor view)
    {command : Command} {outcome : Outcome} {digest bytes : Bytes}
    (small : records.length + 1 < maxU64)
    (computed : command.outcome view (records.length + 1) = some (.ok outcome))
    (installs : Database.Installs view (records.length + 1) digest command.kind outcome after bytes) :
    RecordFits view ⟨records.length + 1, digest, command.kind, Outcome.canonical outcome⟩ := by
  obtain ⟨each, single, distinct⟩ := Database.encodeOutcome_effects installs.encoded
  have sorted : (finalEffects (Outcome.canonical outcome)).Perm (finalEffects outcome) := by
    cases outcome with
    | aborted abort => exact .refl _
    | success ty value effects => exact List.mergeSort_perm effects _
  refine ⟨small, fun effect member => each effect (mem_canonical.mp member), fun effect member => ?_,
    (sorted.pairwise_iff fun different => different.symm).mpr distinct, ?_, ?_, ?_⟩
  · obtain ⟨tree, key, value, stored⟩ := installs.stored effect (mem_canonical.mp member)
    exact ⟨tree, (key, value), stored⟩
  · rw [sorted.length_eq]
    exact single
  · rw [sorted.length_eq]
    exact Database.encodeOutcome_few installs.encoded
  · intro one
    cases command with
    | transaction transaction claims manifest =>
        simp only [Command.outcome] at computed
        split at computed
        case h_1 prepared found =>
          have fits := transactionFits_of_computed ledger.life.keyed ledger.policyKeyed found computed
          rwa [canonical_of_sound (interpretPrepared_sound found computed)]
        case h_2 => cases computed
    | catalogue operation => cases one
    | limits policy => cases one

/-- A record keeps the ledger. -/
theorem Ledger.record [Sha256] (ledger : Ledger initialPolicy records last floor view)
    {command : Command} {outcome : Outcome} {digest bytes : Bytes} (width : digest.length = 32)
    (small : records.length + 1 < maxU64)
    (computed : command.outcome view (records.length + 1) = some (.ok outcome))
    (installs : Database.Installs view (records.length + 1) digest command.kind outcome after bytes) :
    Ledger initialPolicy (records ++ [⟨records.length + 1, digest, command.kind,
      Outcome.canonical outcome⟩]) digest floor after := by
  have fitsNew := recordFits_of_installs ledger small computed installs
  generalize isNew : (⟨records.length + 1, digest, command.kind, Outcome.canonical outcome⟩ :
    OutcomeRecord) = new at fitsNew ⊢
  have sequence : new.sequence = records.length + 1 := by rw [← isNew]
  have wroteNew {tree : TreeId} {entry : Storage.Entry} : Wrote new tree entry ↔
      ∃ effect ∈ finalEffects outcome, effectEntry (records.length + 1) effect = .ok (tree, entry) := by
    simp only [Wrote, ← isNew, mem_canonical]
  have width8 : maxU64 < 256 ^ 8 := by decide
  have separate : TreeId.policy ≠ .outcomes := nofun
  -- No version of an earlier record is overwritten, since keys name their sequence.
  have kept {tree : TreeId} {entry : Storage.Entry} (other : tree ≠ .outcomes)
      (member : entry ∈ (view.roots tree).entries) {effect : Effect}
      (inOutcome : effect ∈ finalEffects outcome) (value : Bytes) :
      effectEntry (records.length + 1) effect ≠ .ok (tree, entry.1, value) := by
    intro stored
    have wrote : Wrote new tree (entry.1, value) := wroteNew.mpr ⟨effect, inOutcome, stored⟩
    rcases ledger.written other member with ⟨rfl, rfl⟩ | ⟨record, inRecords, earlier⟩
    · rcases wrote.cases fitsNew with ⟨-, tree, -⟩ | ⟨-, tree, -⟩ | ⟨-, -, key, -⟩
      · cases tree
      · cases tree
      · have := beBytes_inj (by omega) (by omega) key
        omega
    · have same := wrote.sequence_eq earlier fitsNew (ledger.fits record inRecords) rfl
      have := (ledger.sequence_le inRecords).2
      omega
  have entries {tree : TreeId} {entry : Storage.Entry} (other : tree ≠ .outcomes) :
      entry ∈ (after.roots tree).entries ↔ Wrote new tree entry ∨ entry ∈ (view.roots tree).entries := by
    rw [installs.entries, wroteNew]
    constructor
    · rintro (⟨isOutcome, -⟩ | wrote | ⟨old, -⟩)
      · exact absurd isOutcome other
      · exact .inl wrote
      · exact .inr old
    · rintro (wrote | old)
      · exact .inr (.inl wrote)
      · exact .inr (.inr ⟨old, fun effect inOutcome value => kept other old inOutcome value⟩)
  have outcomes {entry : Storage.Entry} : entry ∈ (after.roots .outcomes).entries ↔
      entry = (beBytes 8 (records.length + 1), bytes) ∨ entry ∈ (view.roots .outcomes).entries := by
    have notOutcome {found : Storage.Entry} : ¬ Wrote new .outcomes found := by
      intro wrote
      rcases wrote.cases fitsNew with ⟨-, tree, -⟩ | ⟨-, tree, -⟩ | ⟨-, tree, -⟩ <;> cases tree
    rw [installs.entries]
    constructor
    · rintro (⟨-, same⟩ | wrote | ⟨old, -⟩)
      · exact .inl same
      · exact absurd (wroteNew.mpr wrote) notOutcome
      · exact .inr old
    · rintro (same | old)
      · exact .inl ⟨rfl, same⟩
      · refine .inr (.inr ⟨old, fun effect inOutcome value stored => ?_⟩)
        exact notOutcome (wroteNew.mpr ⟨effect, inOutcome, stored⟩)
  have latestBefore {id bound : Nat} {version : CatalogueVersion} (before : bound ≤ records.length + 1)
      (latest : Latest view id bound version) : Latest after id bound version := by
    rcases catalogue_step ledger.life.keyed small computed installs with
      same | ⟨_, _, _, _, -, -, -, -, -, extended⟩
    · simpa only [Latest, Stored, same] using latest
    · exact (extended.latest_before before).mpr latest
  have policyBefore {bound : Nat} {policy : LimitPolicy} (before : bound ≤ records.length + 1)
      (known : PolicyBefore view bound policy) : PolicyBefore after bound policy := by
    obtain ⟨newest, inside, stored, most⟩ := known
    refine ⟨newest, inside, (entries separate).mpr (.inr stored), fun sequence within value member => ?_⟩
    rcases (entries separate).mp member with wrote | old
    · rcases wrote.cases fitsNew with ⟨-, tree, -⟩ | ⟨-, tree, -⟩ | ⟨-, -, key, -⟩
      · cases tree
      · cases tree
      · have := beBytes_inj (by omega) (by omega) key
        omega
    · exact most sequence within value old
  have fitsAfter {record : OutcomeRecord} (old : record.sequence ≤ records.length + 1)
      (fits : RecordFits view record) : RecordFits after record :=
    fits.mono fun transaction => transaction.mono (fun _ => policyBefore old)
      fun _ _ => latestBefore old
  have length : (records ++ [new]).length = records.length + 1 := by simp
  have members {record : OutcomeRecord} : record ∈ records ++ [new] ↔ record ∈ records ∨ record = new := by
    simp
  refine ⟨?_, ?_, ?_, ?_, ?_, ?_, ?_, (entries separate).mpr (.inr ledger.genesis), ?_, ?_⟩
  · rw [length]
    exact lifecycle_record ledger.life small computed installs
  · rw [length]
    exact ledger.covered.trans (Nat.le_succ _)
  · intro position record found
    by_cases inside : position < records.length
    · rw [List.getElem?_append_left inside] at found
      exact ledger.numbered found
    · have within := (List.getElem?_eq_some_iff.mp found).1
      rw [length] at within
      obtain rfl : position = records.length := by omega
      rw [List.getElem?_concat_length] at found
      cases found
      exact sequence
  · intro record member newest
    rw [length] at newest
    rcases members.mp member with inRecords | rfl
    · have := (ledger.sequence_le inRecords).2
      omega
    · rw [← isNew]
  · intro record member
    rcases members.mp member with inRecords | rfl
    · exact fitsAfter ((ledger.sequence_le inRecords).2.trans (Nat.le_succ _))
        (ledger.fits record inRecords)
    · exact fitsAfter sequence.le fitsNew
  · intro tree entry other member
    rcases (entries other).mp member with wrote | old
    · exact .inr ⟨new, members.mpr (.inr rfl), wrote⟩
    · rcases ledger.written other old with initial | ⟨record, inRecords, wrote⟩
      · exact .inl initial
      · exact .inr ⟨record, members.mpr (.inl inRecords), wrote⟩
  · intro record member tree entry wrote
    have other : tree ≠ .outcomes := by
      rintro rfl
      have fits : RecordFits view record := by
        rcases members.mp member with inRecords | rfl
        · exact ledger.fits record inRecords
        · exact fitsNew
      rcases wrote.cases fits with ⟨-, tree, -⟩ | ⟨-, tree, -⟩ | ⟨-, tree, -⟩ <;> cases tree
    rcases members.mp member with inRecords | rfl
    · rcases ledger.retained record inRecords wrote with old | missing
      · exact .inl ((entries other).mpr (.inr old))
      · exact .inr missing
    · exact .inl ((entries other).mpr (.inl wrote))
  · intro entry member
    rcases outcomes.mp member with rfl | old
    · refine ⟨new, members.mpr (.inr rfl), ?_, ?_, ?_⟩
      · have := ledger.covered
        omega
      · rw [sequence]
      · rw [← isNew]
        exact decodeOutcome_computed small width computed installs.encoded
    · obtain ⟨record, inRecords, rest⟩ := ledger.outcomes entry old
      exact ⟨record, members.mpr (.inl inRecords), rest⟩
  · intro record member above
    rcases members.mp member with inRecords | rfl
    · obtain ⟨value, stored⟩ := ledger.resolved record inRecords above
      exact ⟨value, outcomes.mpr (.inr stored)⟩
    · exact ⟨bytes, outcomes.mpr (.inl (by rw [sequence]))⟩

/-- The state keys of a ledger decode. -/
theorem Ledger.keysDecode (ledger : Ledger initialPolicy records last floor view) :
    Storage.Collect.KeysDecode view := by
  intro entry member
  rcases ledger.written (show TreeId.state ≠ .outcomes from nofun) member with
    ⟨tree, -⟩ | ⟨record, inRecords, wrote⟩
  · cases tree
  · rcases wrote.cases (ledger.fits record inRecords) with
      ⟨-, -, key, valid, -, shape⟩ | ⟨-, tree, -⟩ | ⟨-, tree, -⟩
    · exact ⟨key, shape ▸ StateKey.decode_encode valid⟩
    · cases tree
    · cases tree

/-- A state entry is a version of the record that wrote it. -/
theorem Wrote.stateKey {record : OutcomeRecord} {entry : Storage.Entry}
    (wrote : Wrote record .state entry) (fits : RecordFits view record) :
    (Storage.Collect.stateKey entry).sequence = record.sequence := by
  rcases wrote.cases fits with ⟨-, -, key, valid, same, shape⟩ | ⟨-, tree, -⟩ | ⟨-, tree, -⟩
  · rw [Storage.Collect.stateKey, shape, StateKey.decode_encode valid]
    exact same
  · cases tree
  · cases tree

theorem outcomeSequence_beBytes {sequence : Nat} (positive : sequence ≠ 0)
    (small : sequence < maxU64) :
    Storage.Collect.outcomeSequence (beBytes 8 sequence) = sequence := by
  have width : maxU64 < 256 ^ 8 := by decide
  have read : Storage.entrySequence .outcomes (beBytes 8 sequence) = .ok sequence := by
    simp [Storage.entrySequence, beNat_beBytes 8 sequence (by omega), refuse_of_not, positive,
      small.ne]
  rw [Storage.Collect.outcomeSequence, read]
  rfl

/-- Collection keeps the ledger, at its floor. -/
theorem Ledger.collect (ledger : Ledger initialPolicy records last floor view) {floor' frontier : Nat}
    {removed : Nat × Nat} (covered : frontier ≤ records.length)
    (collected : Storage.Collect.collectView false floor view floor' frontier = .ok (after, removed)) :
    Ledger initialPolicy records last floor' after := by
  have small := ledger.small
  obtain ⟨state, outcomes, others⟩ :=
    Storage.Collect.collectView_eq_ok ledger.keysDecode collected
  have allowed : floor' ≤ frontier ∧ floor ≤ floor' := by
    obtain ⟨⟨⟩, -, rest⟩ := bind_eq_ok.mp collected
    obtain ⟨⟨⟩, allowed, -⟩ := bind_eq_ok.mp rest
    rw [refuse_eq_ok, not_or, not_lt, not_lt] at allowed
    exact allowed
  have policies : after.roots .policy = view.roots .policy := others .policy nofun nofun
  have catalogue : after.roots .catalogue = view.roots .catalogue := others .catalogue nofun nofun
  have latest {id bound : Nat} {version : CatalogueVersion} (before : Latest view id bound version) :
      Latest after id bound version := by
    simpa only [Latest, Stored, catalogue] using before
  have policyBefore {bound : Nat} {policy : LimitPolicy} (before : PolicyBefore view bound policy) :
      PolicyBefore after bound policy := by
    simpa only [PolicyBefore, policies] using before
  refine ⟨ledger.life.mono catalogue le_rfl small, allowed.1.trans covered, ledger.numbered,
    ledger.newest, ?_, ?_, ?_, ?_, ?_, ?_⟩
  · intro record member
    exact (ledger.fits record member).mono fun transaction =>
      transaction.mono (fun _ => policyBefore) fun _ _ => latest
  · intro tree entry other member
    refine ledger.written other ?_
    by_cases isState : tree = .state
    · subst isState
      exact state.subset member
    · rwa [← others tree isState other]
  · intro record member tree entry wrote
    by_cases isState : tree = .state
    · subst isState
      by_cases old : record.sequence ≤ floor'
      · exact .inr ⟨rfl, old⟩
      · refine .inl ?_
        rcases ledger.retained record member wrote with stored | ⟨-, below⟩
        · rw [state.state]
          refine Storage.Collect.mem_kept_of_gt stored ?_
          rw [wrote.stateKey (ledger.fits record member)]
          omega
        · omega
    · rcases ledger.retained record member wrote with stored | ⟨same, -⟩
      · rcases wrote.cases (ledger.fits record member) with
          ⟨-, same, -⟩ | ⟨-, rfl, -⟩ | ⟨-, rfl, -⟩
        · exact absurd same isState
        · exact .inl (catalogue ▸ stored)
        · exact .inl (policies ▸ stored)
      · exact absurd same isState
  · rw [policies]
    exact ledger.genesis
  · intro entry member
    rw [outcomes, List.mem_filter] at member
    obtain ⟨record, inRecords, -, key, decoded⟩ := ledger.outcomes entry member.1
    obtain ⟨positive, old⟩ := ledger.sequence_le inRecords
    refine ⟨record, inRecords, ?_, key, decoded⟩
    have above := of_decide_eq_true member.2
    rwa [key, outcomeSequence_beBytes (by omega) (by omega)] at above
  · intro record member above
    obtain ⟨positive, old⟩ := ledger.sequence_le member
    obtain ⟨value, stored⟩ := ledger.resolved record member (by omega)
    refine ⟨value, ?_⟩
    rw [outcomes, List.mem_filter]
    refine ⟨stored, decide_eq_true ?_⟩
    rwa [outcomeSequence_beBytes (by omega) (by omega)]

/-- The trees of every history are a ledger. -/
theorem Reached.ledger [Sha256] {commands : List Command}
    (reached : Reached initialPolicy commands floor last view) :
    ∃ records, records.length = commands.length ∧ Ledger initialPolicy records last floor view := by
  induction reached with
  | genesis digest => exact ⟨[], rfl, ledger_genesis digest⟩
  | @record commands floor last digest view after command outcome checkpoint before computed width
      installed ih =>
      obtain ⟨records, same, ledger⟩ := ih
      have small := (Reached.record before computed width installed).length_lt
      rw [List.length_append, List.length_singleton] at small
      obtain ⟨bytes, installs⟩ := Database.install_installs small installed
      rw [← same] at small computed installs
      exact ⟨_, by simp [same], ledger.record width small computed installs⟩
  | collect before covered collected ih =>
      obtain ⟨records, same, ledger⟩ := ih
      rw [← same] at covered
      exact ⟨records, same, ledger.collect covered collected⟩

end Steps

end BlopDb.Vm
