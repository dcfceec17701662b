/-
# Serial histories

Executing the records of a log one at a time, from the trees of a new database on,
gives every record its outcome.  Trees that present the same resolved records, also
after collections, answer the next record alike: its preparation reads the catalogue
and the policies, and its run reads rows before its sequence.
-/

import BlopDb.Engine.Execution
import BlopDb.Storage.MvccExact
import BlopDb.Vm.Noninterference

namespace BlopDb.Vm

open BlopDb.Lib
open Storage (View TreeId LimitPolicy maxU64)

/-! ## What a record reads -/

/-- Two views with the same catalogue and the same policies. -/
structure SameMetadata (view view' : View) : Prop where
  catalogue : view.roots .catalogue = view'.roots .catalogue
  policy : view.roots .policy = view'.roots .policy

section Metadata

variable {view view' : View} (same : SameMetadata view view')

include same

theorem catalogueVersion_congr (id sequence : Nat) :
    Database.catalogueVersion view id sequence = Database.catalogueVersion view' id sequence := by
  simp only [Database.catalogueVersion, View.scan, same.catalogue]

theorem table_congr (id sequence : Nat) :
    Database.table view id sequence = Database.table view' id sequence := by
  simp only [Database.table, catalogueVersion_congr same]

theorem policy_congr (sequence : Nat) :
    Database.policy view sequence = Database.policy view' sequence := by
  simp only [Database.policy, View.scan, same.policy]

theorem resolveTables_congr (prior : Nat) (ids : List Nat) :
    resolveTables view prior ids = resolveTables view' prior ids := by
  induction ids with
  | nil => rfl
  | cons id ids ih => simp only [resolveTables, table_congr same, ih]

theorem prepareProgram_congr (sequence : Nat) (program arguments : Bytes) (claims : LimitPolicy) :
    prepareProgram view sequence program arguments claims =
      prepareProgram view' sequence program arguments claims := by
  simp only [prepareProgram, policy_congr same, resolveTables_congr same]

theorem prepareTransaction_congr [Sha256] (sequence : Nat) (transaction : Transaction) (claims : LimitPolicy)
    (manifest : Option AccessManifest) :
    prepareTransaction view sequence transaction claims manifest =
      prepareTransaction view' sequence transaction claims manifest := by
  simp only [prepareTransaction, prepareProgram_congr same]

/-- Catalogue records read the catalogue only. -/
theorem catalogue_congr (sequence : Nat) (operation : CatalogueOperation) :
    Database.catalogue view sequence operation = Database.catalogue view' sequence operation := by
  cases operation with
  | create name key value =>
      simp only [Database.catalogue, Database.nameInUse, View.scan, same.catalogue]
  | rename table name =>
      simp only [Database.catalogue, Database.nameInUse, Database.liveVersion, View.scan, same.catalogue,
        catalogueVersion_congr same]
  | drop table =>
      simp only [Database.catalogue, Database.liveVersion, catalogueVersion_congr same]

end Metadata

section Reads

variable [Sha256] {view view' catalogue : View} {sequence : Nat} {transaction : Transaction}
variable {claims : LimitPolicy} {declared : Option AccessManifest} {prepared : PreparedTransaction}

/-- A transaction runs alike where the rows in its read scopes are the same. -/
theorem interpretPrepared_congr
    (found : prepareTransaction catalogue sequence transaction claims declared = .ok prepared)
    (small : sequence ≤ maxU64) (uncorrupted : Storage.Mvcc.Uncorrupted view)
    (uncorrupted' : Storage.Mvcc.Uncorrupted view')
    (agree : ∀ address, AccessManifest.Covered prepared.manifest.reads address →
      Storage.Mvcc.get view address.table address.key prepared.prior =
        Storage.Mvcc.get view' address.table address.key prepared.prior) :
    interpretPrepared view prepared = interpretPrepared view' prepared := by
  have established := prepareProgram_prepared (prepareTransaction_eq_ok found).1
  have next := established.sequence_eq
  have open' := established.sequence_ne
  have intact {view : View} (uncorrupted : Storage.Mvcc.Uncorrupted view) :
      ∀ table ∈ prepared.program.tables, Database.Intact view table.id prepared.prior := by
    intro table member
    obtain ⟨positive, bounded⟩ := established.loaded.tables table member
    exact ⟨uncorrupted, positive, bounded, by omega⟩
  apply Runtime.runFrom_congr _ _ .start
  intro machine reachable
  apply Runtime.step_congr (intact uncorrupted) (intact uncorrupted')
  intro address consults
  exact agree address ((prepared_covers found reachable).1 address consults)

/-- What a transaction writes lies inside its write scopes. -/
theorem interpretPrepared_writes
    (found : prepareTransaction catalogue sequence transaction claims declared = .ok prepared)
    {outcome : Outcome} (ran : interpretPrepared view prepared = some (.ok outcome)) :
    ∀ effect ∈ Database.finalEffects outcome,
      AccessManifest.Covered prepared.manifest.writes (Outcome.effectAddress effect) := by
  cases outcome with
  | aborted abort => nofun
  | success ty value effects =>
      exact Runtime.runFrom_effects (fun _ reachable => (prepared_covers found reachable).2) .start ran

/-- A declared scope names a valid table. -/
theorem covered_table
    (found : prepareTransaction catalogue sequence transaction claims declared = .ok prepared)
    {address : Address} (covered : AccessManifest.Covered prepared.manifest.reads address) :
    address.table ≠ 0 ∧ address.table < maxU64 := by
  obtain ⟨read, -, required, -, -, validated⟩ := prepareTransaction_eq_ok found
  have loaded := (prepareProgram_prepared read).loaded
  obtain ⟨⟨⟩, -, validated⟩ := bind_eq_ok.mp validated
  obtain ⟨declarations, declared, -⟩ := bind_eq_ok.mp validated
  have fits := Engine.Record.declare_scoped loaded.tables declared
  have inside {scope : Scope} (member : scope ∈ prepared.manifest.reads) :
      scope.tableId ≠ 0 ∧ scope.tableId < maxU64 := by
    obtain ⟨entry, declared, rfl⟩ := List.mem_map.mp member
    obtain ⟨positive, bounded, -⟩ := fits entry (List.mem_filter.mp declared).1
    exact ⟨positive, bounded⟩
  exact covered.elim inside inside

end Reads

/-- A read that its checks exclude fails alike on every view. -/
theorem get_congr_excluded {view view' : View} {table sequence : Nat} {key : Bytes}
    (positive : table ≠ 0) (bounded : table < maxU64) (snapshot : sequence < maxU64)
    (excluded : ¬ Storage.Mvcc.Readable table key sequence) :
    Storage.Mvcc.get view table key sequence = Storage.Mvcc.get view' table key sequence := by
  have long : key.length > Storage.Encoding.maxKeyBytes := by
    by_contra short
    exact excluded ⟨positive, bounded, snapshot, not_lt.mp short⟩
  have allowed : ¬ (table = 0 ∨ table = maxU64 ∨ sequence = maxU64) := by omega
  simp only [Storage.Mvcc.get, Storage.Mvcc.checkSnapshot_accepts allowed, Storage.Mvcc.checkUserKey, ok_bind,
    refuse_of _ long]
  rfl

end BlopDb.Vm

namespace BlopDb.Engine

open BlopDb.Lib
open Storage (LimitPolicy TreeId View maxU64)
open Storage.Wal (Record)
open Vm (Command Ledger Outcome OutcomeRecord SameMetadata Wrote)
open Vm.Database (Installs finalEffects install)

variable {initialPolicy : LimitPolicy} {records : List OutcomeRecord} {last last' : Bytes}
variable {floor floor' : Nat} {view view' : View}

/-! ## Trees that present records -/

/-- Every tree but the state and the outcomes is a function of the records. -/
theorem mem_iff_of_ledger (ledger : Ledger initialPolicy records last floor view) {tree : TreeId}
    (versioned : tree ≠ .state) (resolved : tree ≠ .outcomes) {entry : Storage.Entry} :
    entry ∈ (view.roots tree).entries ↔ (tree = .policy ∧ entry = (beBytes 8 0, initialPolicy.encode)) ∨
      ∃ record ∈ records, Wrote record tree entry := by
  constructor
  · exact ledger.written resolved
  · rintro (⟨rfl, rfl⟩ | ⟨record, member, wrote⟩)
    · exact ledger.genesis
    · exact (ledger.retained record member wrote).resolve_right fun stale => versioned stale.1

/-- Ledgers of the same records have the same catalogue and policies. -/
theorem sameMetadata_of_ledger (ledger : Ledger initialPolicy records last floor view)
    (ledger' : Ledger initialPolicy records last' floor' view') : SameMetadata view view' := by
  have equal {tree : TreeId} (versioned : tree ≠ .state) (resolved : tree ≠ .outcomes) :
      view.roots tree = view'.roots tree := by
    apply OrdMap.ext
    intro key
    apply Option.ext
    intro value
    rw [OrdMap.find?_eq_some, OrdMap.find?_eq_some,
      mem_iff_of_ledger ledger versioned resolved, mem_iff_of_ledger ledger' versioned resolved]
  exact ⟨equal nofun nofun, equal nofun nofun⟩

/-- The trees present the resolved records, down to a floor of the rows. -/
structure Presents (initialPolicy : LimitPolicy) (records : List OutcomeRecord) (floor : Nat) (view : View) :
    Prop where
  ledger : ∃ last, Ledger initialPolicy records last floor view
  rows : RowsExact records floor view

namespace Presents

theorem small (presents : Presents initialPolicy records floor view) : records.length < maxU64 := by
  obtain ⟨last, ledger⟩ := presents.ledger
  exact ledger.small

theorem uncorrupted (presents : Presents initialPolicy records floor view) :
    Storage.Mvcc.Uncorrupted view := by
  obtain ⟨last, ledger⟩ := presents.ledger
  exact uncorrupted_of_ledger ledger

theorem sameMetadata (presents : Presents initialPolicy records floor view)
    (presents' : Presents initialPolicy records floor' view') : SameMetadata view view' := by
  obtain ⟨last, ledger⟩ := presents.ledger
  obtain ⟨last', ledger'⟩ := presents'.ledger
  exact sameMetadata_of_ledger ledger ledger'

/-- A read after all records answers from the records. -/
theorem get (presents : Presents initialPolicy records floor view) {table : Nat} {key : Bytes}
    (readable : Storage.Mvcc.Readable table key records.length) :
    Storage.Mvcc.get view table key records.length = .ok (rowAfter records table key) := by
  obtain ⟨last, ledger⟩ := presents.ledger
  have reads := presents.rows table records.length key readable ledger.covered le_rfl
  rw [List.take_length] at reads
  exact (Storage.Mvcc.get_eq_ok_iff presents.uncorrupted readable).mpr reads

/-- The trees of a new database. -/
theorem genesis (initialPolicy : LimitPolicy) : Presents initialPolicy [] 0 (Vm.genesisView initialPolicy) := by
  refine ⟨⟨[], Vm.ledger_genesis []⟩, fun table sequence key readable above below => ?_⟩
  refine .inr ⟨by rw [List.take_nil]; rfl, ?_⟩
  rintro stored - payload ⟨encoded, member, -⟩
  cases member

variable [Sha256]

/-- A further record. -/
theorem record (presents : Presents initialPolicy records floor view) {command : Command} {outcome : Outcome}
    {digest : Bytes} {checkpoint : Nat} {after : View} (width : digest.length = 32)
    (small : records.length + 1 < maxU64)
    (computed : command.outcome view (records.length + 1) = some (.ok outcome))
    (installed : install false checkpoint view (records.length + 1) digest command.kind outcome = .ok after) :
    Presents initialPolicy (records ++ [⟨records.length + 1, digest, command.kind,
      Vm.Outcome.canonical outcome⟩]) floor after := by
  obtain ⟨last, ledger⟩ := presents.ledger
  obtain ⟨bytes, installs⟩ := Vm.Database.install_installs small installed
  have later := ledger.record width small computed installs
  refine ⟨⟨digest, later⟩, presents.rows.record ledger.covered ledger later fun entry => ?_⟩
  have fresh : ∀ entry ∈ (view.roots .state).entries, ¬ Dated .state (records.length + 1) entry.1 := by
    intro entry member dated
    obtain ⟨sequence, old, dated'⟩ := dated_of_ledger ledger member
    have := Dated.unique (by omega) small dated' dated
    omega
  rw [Installs.entries_of_fresh installs fresh entry]
  refine or_congr_right ⟨?_, ?_⟩
  · rintro (⟨tree, -⟩ | ⟨effect, member, stored⟩)
    · cases tree
    · exact ⟨effect, Vm.mem_canonical.mpr member, stored⟩
  · rintro ⟨effect, member, stored⟩
    exact .inr ⟨effect, Vm.mem_canonical.mp member, stored⟩

/-- Trees that present the same records compute the same outcome of the next one. -/
theorem outcome_congr (presents : Presents initialPolicy records floor view)
    (presents' : Presents initialPolicy records floor' view') (command : Command) :
    command.outcome view (records.length + 1) = command.outcome view' (records.length + 1) := by
  have same := presents.sameMetadata presents'
  cases command with
  | limits policy => rfl
  | catalogue operation => rw [Command.outcome, Command.outcome, Vm.catalogue_congr same]
  | transaction transaction claims manifest =>
      rw [Command.outcome, Command.outcome, ← Vm.prepareTransaction_congr same]
      cases found : Vm.prepareTransaction view (records.length + 1) transaction claims manifest with
      | error error => rfl
      | ok prepared =>
          have small := presents.small
          have next := (Vm.prepareProgram_prepared (Vm.prepareTransaction_eq_ok found).1).sequence_eq
          obtain isPrior : prepared.prior = records.length := by omega
          apply Vm.interpretPrepared_congr found small presents.uncorrupted presents'.uncorrupted
          intro address covered
          obtain ⟨positive, bounded⟩ := Vm.covered_table found covered
          rw [isPrior]
          by_cases readable : Storage.Mvcc.Readable address.table address.key records.length
          · rw [presents.get readable, presents'.get readable]
          · exact Vm.get_congr_excluded positive bounded small readable

end Presents

/-! ## Commands of log records -/

/-- A command whose types have descriptors and whose table is an unsigned 64-bit integer. -/
def Described : Command → Prop
  | .catalogue operation => Vm.Database.Described operation
  | .transaction _ _ _ | .limits _ => True

/-- The kind of an encoded command. -/
theorem kind_of_encode {command : Command} {kind : Nat} {body : Bytes}
    (encoded : Record.encode command = .ok (kind, body)) : command.kind = kind := by
  cases command with
  | transaction transaction claims manifest =>
      obtain ⟨_, -, encoded⟩ := bind_eq_ok.mp encoded
      obtain ⟨_, -, encoded⟩ := bind_eq_ok.mp encoded
      obtain ⟨_, -, encoded⟩ := bind_eq_ok.mp encoded
      obtain ⟨_, -, encoded⟩ := bind_eq_ok.mp encoded
      obtain ⟨_, -, encoded⟩ := bind_eq_ok.mp encoded
      obtain ⟨_, -, same⟩ := bind_eq_ok.mp encoded
      cases same
      rfl
  | catalogue operation =>
      obtain ⟨_, -, encoded⟩ := bind_eq_ok.mp encoded
      obtain ⟨_, -, same⟩ := bind_eq_ok.mp encoded
      cases same
      rfl
  | limits policy =>
      cases encoded
      rfl

/-- The kind of a record's command is the kind in its header. -/
theorem kind_of_recordCommand {record : Record} {command : Command}
    (decoded : recordCommand record = .ok command) : command.kind = uintAt 1 record.bytes 24 :=
  kind_of_encode (Record.encode_of_decode decoded)

theorem described_of_readOperation {number : Nat} {input rest : Bytes} {operation : Vm.CatalogueOperation}
    (read : Record.readOperation number input = .ok (operation, rest)) : Vm.Database.Described operation := by
  unfold Record.readOperation at read
  split at read
  · simp only [bind_eq_ok, Prod.exists, Record.readType_eq_ok, pure_eq_ok, Except.ok.injEq, Prod.mk.injEq] at read
    obtain ⟨name, _, -, key, _, ⟨-, keyFormed, keyShort⟩, value, _, ⟨-, valueFormed, valueShort⟩, rfl, -⟩ := read
    exact ⟨⟨keyFormed, keyShort⟩, valueFormed, valueShort⟩
  · simp only [bind_eq_ok, Prod.exists, readNat_eq_ok, pure_eq_ok, Except.ok.injEq, Prod.mk.injEq] at read
    obtain ⟨table, _, ⟨-, small⟩, name, _, -, rfl, -⟩ := read
    exact small
  · simp only [bind_eq_ok, Prod.exists, readNat_eq_ok, pure_eq_ok, Except.ok.injEq, Prod.mk.injEq] at read
    obtain ⟨table, _, ⟨-, small⟩, rfl, -⟩ := read
    exact small
  · cases read

/-- The command of a log record is described. -/
theorem described_of_recordCommand {record : Record} {command : Command}
    (decoded : recordCommand record = .ok command) : Described command := by
  simp only [recordCommand, Record.decode, bind_eq_ok, Prod.exists, raise_eq_ok, pure_eq_ok, Except.ok.injEq] at decoded
  obtain ⟨_, -, _, -, _, _, -, _, -, command', rest, read, _, -, rfl⟩ := decoded
  unfold Record.readBody at read
  split at read
  · simp only [raise_eq_ok, Record.readTransaction, bind_eq_ok, Prod.exists, pure_eq_ok, Except.ok.injEq,
      Prod.mk.injEq] at read
    obtain ⟨_, _, -, _, -, _, _, -, _, _, -, _, _, -, _, _, -, _, -, _, -, _, -, rfl, -⟩ := read
    trivial
  · simp only [Record.readCatalogue, bind_eq_ok, Prod.exists, raise_eq_ok, pure_eq_ok, Except.ok.injEq,
      Prod.mk.injEq] at read
    obtain ⟨number, _, -, _, _, -, _, -, operation, _, read, _, -, rfl, -⟩ := read
    exact described_of_readOperation read
  · simp only [raise_eq_ok, Record.readLimits, bind_eq_ok, Prod.exists, pure_eq_ok, Except.ok.injEq,
      Prod.mk.injEq] at read
    obtain ⟨_, _, -, _, -, _, _, -, rfl, -⟩ := read
    trivial
  · cases read

/-! ## Every valid record executes -/

section Total

variable [Sha256] {checkpoint : Nat} {digest : Bytes} {command prepared : Command}

/-- A valid command has an outcome, which encodes. -/
theorem Presents.outcome_total (presents : Presents initialPolicy records floor view)
    (small : records.length + 1 < maxU64) (width : digest.length = 32) (described : Described command)
    (valid : Record.prepare view (records.length + 1) command = .ok prepared) :
    ∃ outcome bytes, command.outcome view (records.length + 1) = some (.ok outcome) ∧
      Vm.Outcome.encodeOutcome (records.length + 1) digest command.kind outcome = .ok bytes := by
  obtain ⟨last, ledger⟩ := presents.ledger
  have id : Vm.Database.validId (records.length + 1) = .ok () :=
    Vm.Database.validId_eq_ok.mpr ⟨Nat.succ_ne_zero _, small.ne⟩
  obtain ⟨⟨⟩, -, valid⟩ := bind_eq_ok.mp valid
  cases command with
  | limits policy =>
      obtain ⟨bytes, encoded⟩ := Vm.Database.limits_total id width policy
      exact ⟨_, bytes, rfl, encoded⟩
  | catalogue operation =>
      obtain ⟨⟨⟩, valid, -⟩ := bind_eq_ok.mp valid
      obtain ⟨outcome, bytes, computed, encoded⟩ :=
        Vm.Database.catalogue_total ledger.life.keyed small width described valid
      exact ⟨outcome, bytes, congrArg some computed, encoded⟩
  | transaction transaction claims manifest =>
      obtain ⟨⟨⟩, -, valid⟩ := bind_eq_ok.mp valid
      obtain ⟨ready, found, -⟩ := bind_eq_ok.mp valid
      obtain ⟨outcome, ran⟩ := interpretPrepared_total ledger found
      have sound := Vm.interpretPrepared_sound found ran
      have established := Vm.prepareProgram_prepared (Vm.prepareTransaction_eq_ok found).1
      obtain ⟨bytes, encoded, -⟩ := Vm.encodeOutcome_sound established
        (small.trans (by decide)) width sound
      refine ⟨outcome, bytes, ?_, encoded⟩
      simp only [Command.outcome, found, ran]

omit [Sha256] in
/-- The next record is the one after the resolved records. -/
theorem Presents.nextView (presents : Presents initialPolicy records floor view)
    (small : records.length + 1 < maxU64) (above : floor ≤ checkpoint) (below : checkpoint ≤ records.length) :
    Vm.nextView checkpoint view (records.length + 1) = .ok () := by
  obtain ⟨last, ledger⟩ := presents.ledger
  have width8 : maxU64 < 256 ^ 8 := by decide
  have prior : Vm.priorSequence (records.length + 1) = .ok records.length := by
    simp only [Vm.priorSequence, refuse_of_not _ (show ¬ (records.length + 1 = 0 ∨ records.length + 1 = maxU64) by omega),
      ok_bind, Nat.add_sub_cancel, pure_eq_ok]
  have found : records.length ≠ checkpoint → ∃ value,
      (view.get .outcomes (beBytes 8 records.length)).mapError Vm.Error.storage = .ok (some value) := by
    intro later
    obtain ⟨record, member, isLast⟩ := ledger.exists_record (show 1 ≤ records.length by omega) le_rfl
    obtain ⟨value, stored⟩ := ledger.resolved record member (by omega)
    rw [isLast] at stored
    refine ⟨value, ?_⟩
    simp only [View.get, Storage.checkKey, length_beBytes, Storage.maxKey, gt_iff_lt, OrdMap.find?_eq_some.mpr stored,
      pure_eq_ok]
    rfl
  have empty : (view.roots .outcomes).range (.included (beBytes 8 (records.length + 1))) .unbounded = [] := by
    rw [List.eq_nil_iff_forall_not_mem]
    intro entry member
    obtain ⟨stored, above, -⟩ := OrdMap.mem_range.mp member
    obtain ⟨record, inRecords, -, key, -⟩ := ledger.outcomes entry stored
    have old := (ledger.sequence_le inRecords).2
    have less := (Storage.Mvcc.beBytes_lt_iff (show record.sequence < 256 ^ 8 by omega)
      (show records.length + 1 < 256 ^ 8 by omega)).mpr (by omega)
    rw [key] at above
    exact absurd (of_decide_eq_true above) (not_le.mpr less)
  have scanned : (view.scan .outcomes (.included (beBytes 8 (records.length + 1))) .unbounded).mapError Vm.Error.storage =
      .ok [] := by
    simp only [View.scan, Storage.checkBound, Storage.checkKey, length_beBytes, Storage.maxKey, Storage.boundKey, empty,
      pure_eq_ok]
    rfl
  simp only [Vm.nextView, prior, ok_bind, refuse_of_not _ (show ¬ records.length + 1 ≤ checkpoint by omega)]
  by_cases later : records.length = checkpoint
  · simp only [later, ne_eq, not_true_eq_false, if_false]
    rw [← later]
    simp only [scanned, ok_bind, not_true_eq_false, refuse_false]
  · obtain ⟨value, got⟩ := found later
    simp only [ne_eq, later, not_false_eq_true, if_true, got, ok_bind, reduceCtorEq, refuse_false, scanned,
      not_true_eq_false]

/-- A valid command executes. -/
theorem Presents.execute_total (presents : Presents initialPolicy records floor view)
    (small : records.length + 1 < maxU64) (above : floor ≤ checkpoint) (below : checkpoint ≤ records.length)
    (width : digest.length = 32) (described : Described command)
    (valid : Record.prepare view (records.length + 1) command = .ok prepared) :
    ∃ outcome after, Record.execute checkpoint view (records.length + 1) digest command =
      some (.ok (outcome, after)) := by
  obtain ⟨last, ledger⟩ := presents.ledger
  obtain ⟨outcome, bytes, computed, encoded⟩ := presents.outcome_total small width described valid
  have fresh : ∀ value, (beBytes 8 (records.length + 1), value) ∉ (view.roots .outcomes).entries := by
    intro value member
    obtain ⟨sequence, old, dated⟩ := dated_of_ledger ledger member
    have := Dated.unique (by omega) small dated rfl
    omega
  obtain ⟨after, installed⟩ := install_total (Nat.lt_succ_of_le below) encoded fresh
  exact ⟨outcome, after, execute_eq_ok.mpr ⟨⟨prepared, valid⟩, presents.nextView small above below, computed, installed⟩⟩

end Total

/-! ## Histories -/

section Histories

variable [Sha256]

/-- The records of a log execute one after another in a new database, with these outcomes. -/
inductive Serial (initialPolicy : LimitPolicy) : List Record → List Outcome → View → Prop
  | genesis : Serial initialPolicy [] [] (Vm.genesisView initialPolicy)
  | record {records : List Record} {outcomes : List Outcome} {view after : View} {record : Record}
      {command : Command} {outcome : Outcome} :
      Serial initialPolicy records outcomes view →
      record.sequence = records.length + 1 →
      recordCommand record = .ok command →
      Record.execute 0 view record.sequence record.digest.1 command = some (.ok (outcome, after)) →
      Serial initialPolicy (records ++ [record]) (outcomes ++ [outcome]) after

omit [Sha256] in
/-- The resolved form of a record. -/
def resolve (record : Record) (outcome : Outcome) : OutcomeRecord :=
  ⟨record.sequence, record.digest.1, uintAt 1 record.bytes 24, Vm.Outcome.canonical outcome⟩

omit [Sha256] in
/-- The resolved records of a log with its outcomes. -/
def history (records : List Record) (outcomes : List Outcome) : List OutcomeRecord :=
  List.zipWith resolve records outcomes

omit [Sha256] in
theorem history_at {log : List Record} {outcomes : List Outcome} {position : Nat} {record : Record} {outcome : Outcome}
    (found : log[position]? = some record) (has : outcomes[position]? = some outcome) :
    (history log outcomes)[position]? = some (resolve record outcome) := by
  rw [history, List.getElem?_zipWith, found, has]

namespace Serial

variable {log : List Record} {outcomes outcomes' : List Outcome}

theorem length_eq (serial : Serial initialPolicy log outcomes view) : outcomes.length = log.length := by
  induction serial with
  | genesis => rfl
  | record _ _ _ _ ih => rw [List.length_append, List.length_append, ih]; rfl

theorem length_history (serial : Serial initialPolicy log outcomes view) :
    (history log outcomes).length = log.length := by
  rw [history, List.length_zipWith, serial.length_eq, Nat.min_self]

/-- A serial history leaves trees that present it. -/
theorem presents (serial : Serial initialPolicy log outcomes view) (small : log.length < maxU64) :
    Presents initialPolicy (history log outcomes) 0 view := by
  induction serial with
  | genesis => exact Presents.genesis initialPolicy
  | @record log outcomes view after record command outcome before numbered decoded executed ih =>
      rw [List.length_append, List.length_singleton] at small
      have earlier := ih (by omega)
      have length := before.length_history
      obtain ⟨-, -, computed, installed⟩ := execute_eq_ok.mp executed
      rw [numbered, ← length] at computed installed
      have later := earlier.record record.digest.2 (by omega) computed installed
      rw [length, kind_of_recordCommand decoded, ← numbered] at later
      rw [history, List.zipWith_append before.length_eq.symm]
      exact later

/-- A log has one serial history. -/
theorem unique (serial : Serial initialPolicy log outcomes view) (serial' : Serial initialPolicy log outcomes' view') :
    outcomes = outcomes' ∧ view = view' := by
  induction serial generalizing outcomes' view' with
  | genesis =>
      generalize isEmpty : ([] : List Record) = log at serial'
      cases serial' with
      | genesis => exact ⟨rfl, rfl⟩
      | record => simp at isEmpty
  | @record log outcomes view after record command outcome before numbered decoded executed ih =>
      generalize isLog : log ++ [record] = log' at serial'
      cases serial' with
      | genesis => simp at isLog
      | record before' numbered' decoded' executed' =>
          obtain ⟨rfl, same⟩ := List.append_inj' isLog rfl
          cases same
          obtain ⟨rfl, rfl⟩ := ih before'
          obtain rfl := Except.ok.inj (decoded.symm.trans decoded')
          rw [executed] at executed'
          cases executed'
          exact ⟨rfl, rfl⟩

/-- The first records of a log have a serial history of their own. -/
theorem take (serial : Serial initialPolicy log outcomes view) (count : Nat) :
    ∃ earlier, Serial initialPolicy (log.take count) (outcomes.take count) earlier := by
  induction serial with
  | genesis => exact ⟨_, by rw [List.take_nil, List.take_nil]; exact .genesis⟩
  | @record log outcomes view after record command outcome before numbered decoded executed ih =>
      by_cases inside : count ≤ log.length
      · rw [List.take_append_of_le_length inside, List.take_append_of_le_length (before.length_eq ▸ inside)]
        exact ih
      · have whole := before.record numbered decoded executed
        rw [List.take_of_length_le (by simp; omega), List.take_of_length_le (by simp [before.length_eq]; omega)]
        exact ⟨after, whole⟩

/-- The step of a serial history at a position. -/
theorem step (serial : Serial initialPolicy log outcomes view) {position : Nat} {record : Record}
    (found : log[position]? = some record) :
    ∃ earlier later command outcome, outcomes[position]? = some outcome ∧
      Serial initialPolicy (log.take position) (outcomes.take position) earlier ∧
      Serial initialPolicy (log.take (position + 1)) (outcomes.take (position + 1)) later ∧
      record.sequence = position + 1 ∧ recordCommand record = .ok command ∧
      Record.execute 0 earlier record.sequence record.digest.1 command = some (.ok (outcome, later)) := by
  have inside := (List.getElem?_eq_some_iff.mp found).1
  obtain ⟨later, whole⟩ := serial.take (position + 1)
  have split : log.take (position + 1) = log.take position ++ [record] := by
    rw [List.take_add_one, found]
    rfl
  have next := whole
  generalize isOutcomes : outcomes.take (position + 1) = outcomes' at next whole ⊢
  rw [split] at next
  generalize isLog : log.take position ++ [record] = log' at next
  cases next with
  | genesis => simp at isLog
  | @record log' outcomes'' earlier later' record' command outcome before numbered decoded executed =>
      obtain ⟨rfl, same⟩ := List.append_inj' isLog rfl
      cases same
      have length := before.length_eq
      have short : (log.take position).length = position := by
        rw [List.length_take]
        omega
      have isOutcome : outcomes[position]? = some outcome := by
        rw [← List.getElem?_take_of_lt (Nat.lt_succ_self position), isOutcomes,
          List.getElem?_append_right (by omega), length, short, Nat.sub_self]
        rfl
      have isEarlier : outcomes.take position = outcomes'' := by
        calc outcomes.take position = (outcomes.take (position + 1)).take position := by
              rw [List.take_take, Nat.min_eq_left (Nat.le_succ _)]
          _ = outcomes'' := by
              rw [isOutcomes, List.take_append_of_le_length (by omega), List.take_of_length_le (by omega)]
      rw [short] at numbered
      rw [isEarlier]
      exact ⟨earlier, _, command, outcome, isOutcome, before, whole, numbered, decoded, executed⟩

/-- A valid record extends a serial history. -/
theorem extend (serial : Serial initialPolicy log outcomes view) {record : Record} {command prepared : Command}
    (small : log.length + 1 < maxU64) (numbered : record.sequence = log.length + 1)
    (decoded : recordCommand record = .ok command)
    (valid : Record.prepare view record.sequence command = .ok prepared) :
    ∃ outcome after, Record.execute 0 view record.sequence record.digest.1 command = some (.ok (outcome, after)) ∧
      Serial initialPolicy (log ++ [record]) (outcomes ++ [outcome]) after := by
  have presents := serial.presents (by omega)
  have length := serial.length_history
  rw [numbered, ← length] at valid
  obtain ⟨outcome, after, executed⟩ := presents.execute_total (by omega) le_rfl (Nat.zero_le _) record.digest.2
    (described_of_recordCommand decoded) valid
  rw [length, ← numbered] at executed
  exact ⟨outcome, after, executed, serial.record numbered decoded executed⟩

end Serial

end Histories

end BlopDb.Engine
