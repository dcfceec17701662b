/-
# What a snapshot reads

The pinned roots of a snapshot hold the serial state at the captured frontier and
the records installed ahead of it.  Reads at the frontier do not see the latter,
so tables, keys and the catalogue are those of the serial state.
-/

import BlopDb.Engine.Rows
import BlopDb.Engine.Snapshot
import BlopDb.Vm.KeyOrder

namespace BlopDb.Engine

open BlopDb.Lib
open Exchange (Error)
open Snapshot (ReadTable)
open Storage (LimitPolicy PageView TreeId View maxU64)
open Storage.Encoding (Schema)
open Vm (CatalogueVersion Effect KeyColumn Ledger Outcome OutcomeRecord Table Typed Value)
open Vm.Database (Latest Stored VersionEntry effectEntry finalEffects)

/-! ## Rows and their types -/

/-- A row that holds a value was written by a record. -/
theorem exists_written {records : List OutcomeRecord} {table : Nat} {key bytes : Bytes}
    (row : rowAfter records table key = some bytes) :
    ∃ record ∈ records, writtenRow record table key = some (some bytes) := by
  induction records using List.reverseRecOn with
  | nil => cases row
  | append_singleton records record ih =>
      rw [rowAfter_append] at row
      cases written : writtenRow record table key with
      | none =>
          rw [written] at row
          obtain ⟨earlier, member, same⟩ := ih row
          exact ⟨earlier, List.mem_append_left _ member, same⟩
      | some payload =>
          rw [written] at row
          obtain rfl : payload = some bytes := row
          exact ⟨record, List.mem_append_right _ List.mem_cons_self, written⟩

/-- The address and the value of an effect on a row. -/
theorem effectOn_cases {table : Nat} {key : Bytes} {effect : Effect} {payload : Option Bytes}
    (on : effectOn table key effect = some payload) :
    Outcome.effectAddress effect = ⟨table, key⟩ ∧ (Vm.History.effectRow effect).2 = payload := by
  cases effect with
  | put table' key' value =>
      rw [effectOn] at on
      split_ifs at on with same
      obtain ⟨rfl, rfl⟩ := same
      cases on
      exact ⟨rfl, rfl⟩
  | delete table' key' =>
      rw [effectOn] at on
      split_ifs at on with same
      obtain ⟨rfl, rfl⟩ := same
      cases on
      exact ⟨rfl, rfl⟩
  | catalogue => cases on
  | limits => cases on

variable [Crc32c] [Sha256] {initialPolicy : LimitPolicy} {origin : Source}

/-- A table is live after the visible records. -/
def LiveAt (origin : Source) (id : Nat) (table : Table) : Prop :=
  ∃ version, Latest origin.serial id (origin.frontier + 1) version ∧ version.live = true ∧
    version.table = table

omit [Crc32c] [Sha256] in
theorem LiveAt.unique {id : Nat} {table table' : Table} (live : LiveAt origin id table)
    (live' : LiveAt origin id table') : table = table' := by
  obtain ⟨version, latest, -, rfl⟩ := live
  obtain ⟨version', latest', -, rfl⟩ := live'
  rw [latest.unique latest']

/-- What a live table is. -/
theorem Source.Sound.liveTable (sound : origin.Sound initialPolicy) {id : Nat} {table : Table}
    (live : LiveAt origin id table) :
    table.id = id ∧ id ≠ 0 ∧ id < maxU64 ∧ id ≤ origin.frontier ∧
      ∃ schema, KeyColumn table.key schema ∧ table.value.Formed 16 := by
  obtain ⟨version, ⟨sequence, inside, stored, -⟩, -, rfl⟩ := live
  obtain ⟨last, ledger⟩ := sound.ledger
  have small := ledger.small
  have counted := sound.counted
  obtain ⟨entry, -, holds⟩ := ledger.life.keyed.stored stored
  have same := holds.tableId
  obtain ⟨-, positive, order, old, decoded⟩ := holds
  obtain ⟨key, value, schemas⟩ := Vm.History.decodeCatalogue_schemas decoded
  exact ⟨same, positive, by omega, by omega, key, schemas.key, schemas.formed⟩

/-- A written row of a live table has the types of the table. -/
theorem Source.Sound.typed (sound : origin.Sound initialPolicy) {id : Nat} {table : Table}
    (live : LiveAt origin id table) {record : OutcomeRecord} (member : record ∈ origin.resolved)
    {key : Bytes} {payload : Option Bytes} (written : writtenRow record id key = some payload) :
    (∃ value, table.key.accepts value = true ∧ key = value.keyBytes) ∧
      ∀ bytes, payload = some bytes → ∃ value, table.value.accepts value = true ∧
        bytes = value.encode := by
  obtain ⟨last, ledger⟩ := sound.ledger
  have fits := ledger.fits record member
  obtain ⟨effect, inEffects, on⟩ := List.exists_of_findSome?_eq_some written
  obtain ⟨address, row⟩ := effectOn_cases on
  obtain ⟨encoded, stored, -⟩ := effectOn_eq_some (fits.valid effect inEffects) on
  have one : record.recordKind = 1 := by
    rcases Vm.Database.effectEntry_cases (fits.valid effect inEffects) stored with
      ⟨one, -⟩ | ⟨-, tree, -⟩ | ⟨-, tree, -⟩
    · exact one
    · cases tree
    · cases tree
  obtain ⟨version, ⟨sequence, -, stored', -⟩, -, keyed, valued⟩ :=
    (fits.transaction one).rows effect inEffects
  obtain ⟨version', ⟨sequence', -, stored'', -⟩, -, rfl⟩ := live
  rw [address] at stored' keyed
  rw [ledger.life.tables stored'' stored']
  refine ⟨keyed, fun bytes same => valued bytes ?_⟩
  rw [row, same]

/-- What a row of a live table holds is a value of the table. -/
theorem Source.Sound.rowValue (sound : origin.Sound initialPolicy) {id : Nat} {table : Table}
    (live : LiveAt origin id table) {key bytes : Bytes}
    (row : rowAfter origin.resolved id key = some bytes) :
    (∃ value, table.key.accepts value = true ∧ key = value.keyBytes) ∧
      ∃ value, table.value.accepts value = true ∧ bytes = value.encode := by
  obtain ⟨record, member, written⟩ := exists_written row
  obtain ⟨keyed, valued⟩ := sound.typed live member written
  exact ⟨keyed, valued bytes rfl⟩

/-! ## Tables of a snapshot -/

namespace Snapshot

variable {view : PageView} {maps : View}

omit [Crc32c] [Sha256] in
/-- The catalogue of a view that stands for maps. -/
theorem catalogueVersion_eq (stands : view.Stands maps) (table sequence : Nat) :
    catalogueVersion view table sequence =
      raise id (Vm.Database.catalogueVersion maps table sequence) := by
  rw [catalogueVersion, Vm.Database.catalogueVersion, raise_bind]
  refine bind_congr_ok fun _ _ => ?_
  rw [raise_bind]
  refine bind_congr_ok fun _ _ => ?_
  have lowerShort : Storage.checkBound Storage.checkKey
      (.included (Vm.Database.catalogueKey table sequence)) = .ok () := by
    have length : (Vm.Database.catalogueKey table sequence).length = 16 := by
      rw [Vm.Database.catalogueKey, List.length_append, length_beBytes, length_beBytes]
    exact refuse_of_not _ (by rw [length]; decide)
  have upperShort : Storage.checkBound Storage.checkKey (.excluded (beBytes 8 (table + 1))) =
      .ok () := refuse_of_not _ (by rw [length_beBytes]; decide)
  obtain ⟨start, started, yields⟩ := (stands .catalogue).yields lowerShort upperShort
  rw [started, relay_ok, ok_bind, yields.step_fst, View.scan, lowerShort, upperShort]
  simp only [ok_bind, pure_eq_ok, Except.mapError]
  cases (maps.roots .catalogue).range (.included (Vm.Database.catalogueKey table sequence))
      (.excluded (beBytes 8 (table + 1))) with
  | nil => rfl
  | cons entry rest =>
      obtain ⟨key, value⟩ := entry
      simp only [List.map_cons, List.head?_cons, relay_ok, ok_bind, raise_bind]
      refine bind_congr fun found => ?_
      obtain ⟨foundId, foundSequence⟩ := found
      dsimp only
      refine bind_congr fun _ => ?_
      cases Vm.Database.decodeCatalogue table value <;> rfl

/-- A table as a snapshot reads it. -/
structure Right (origin : Source) (read : ReadTable) : Prop where
  live : LiveAt origin read.table.id read.table
  column : KeyColumn read.table.key read.keySchema
  formed : read.table.value.Formed 16

/-- A cached table is a right one. -/
def CacheRight (origin : Source) (cached : Option ReadTable) : Prop :=
  ∀ read ∈ cached, Right origin read

variable {cached : Option ReadTable}

/-- A live table is read, from the cache or from the catalogue. -/
theorem liveTable_of_live (sound : origin.Sound initialPolicy) (stands : view.Stands origin.store.view)
    (right : CacheRight origin cached) {id : Nat} {table : Table} (live : LiveAt origin id table) :
    ∃ read, liveTable view id origin.frontier cached = .ok read ∧ read.table = table ∧
      Right origin read := by
  rw [liveTable]
  cases hit : cached.filter fun read => read.table.id = id with
  | some read =>
      obtain ⟨isCached, same⟩ := Option.filter_eq_some_iff.mp hit
      have held := right read isCached
      have sameId : read.table.id = id := of_decide_eq_true same
      exact ⟨read, rfl, (sameId ▸ held.live).unique live, held⟩
  | none =>
      obtain ⟨sameId, positive, small, -, schema, column, formed⟩ := sound.liveTable live
      obtain ⟨result, found, means⟩ := sound.catalogueVersion positive small le_rfl
      have held := live
      obtain ⟨version, latest, isLive, rfl⟩ := live
      obtain rfl := (means version).mpr latest
      have described : (version.table.key.descriptorOrPanic : Except (Fault Error) Bytes) =
          .ok version.table.key.descriptor := column.formed.descriptorOrPanic
      refine ⟨⟨version.table, schema⟩, ?_, rfl, ?_⟩
      · simp only [catalogueVersion_eq stands, found, raise_ok, relay_ok, ok_bind, Option.filter,
          isLive, if_true, described, column.decoded, pure_eq_ok]
      · exact ⟨by rw [sameId]; exact held, column, formed⟩

/-- A table that is not live is refused. -/
theorem liveTable_of_not_live (sound : origin.Sound initialPolicy)
    (stands : view.Stands origin.store.view) (right : CacheRight origin cached) {id : Nat}
    (bounded : id ≤ maxU64) (dead : ∀ table, ¬ LiveAt origin id table) :
    ∃ error, liveTable view id origin.frontier cached = .error (.raised error) := by
  rw [liveTable]
  cases hit : cached.filter fun read => read.table.id = id with
  | some read =>
      obtain ⟨isCached, same⟩ := Option.filter_eq_some_iff.mp hit
      have sameId : read.table.id = id := of_decide_eq_true same
      exact absurd (sameId ▸ (right read isCached).live) (dead read.table)
  | none =>
      by_cases reserved : id = 0 ∨ id = maxU64
      · refine ⟨.read (.invalid "reserved table ID or record sequence"), ?_⟩
        simp only [catalogueVersion_eq stands, Vm.Database.catalogueVersion, Vm.Database.validId,
          refuse_of _ reserved, error_bind]
        rfl
      · rw [not_or] at reserved
        obtain ⟨result, found, means⟩ := sound.catalogueVersion reserved.1
          (lt_of_le_of_ne bounded reserved.2) le_rfl
        have empty : result.filter (fun version => version.live) = none := by
          rw [Option.filter_eq_none_iff]
          intro version isResult isLive
          exact dead version.table ⟨version, (means version).mp isResult, isLive, rfl⟩
        simp only [catalogueVersion_eq stands, found, raise_ok, relay_ok, ok_bind, empty]
        exact ⟨_, rfl⟩

/-! ## Keys and values -/

section Keys

variable {read : ReadTable}

omit [Crc32c] [Sha256] in
/-- An accepted key has its canonical bytes. -/
theorem keyBytes_of_accepts (column : KeyColumn read.table.key read.keySchema) {key : Value}
    (accepted : read.table.key.accepts key = true) : keyBytes read key = .ok key.keyBytes := by
  have taken : ¬ read.table.key.accepts key = false := by simp [accepted]
  have fits : (key.encodeOrPanic : Except (Fault Error) Bytes) = .ok key.encode :=
    Vm.encodeOrPanic_of_accepts column.formed accepted
  have keyed : raise Error.storage (Storage.Encoding.encodeKey read.keySchema key.encode) =
      .ok key.keyBytes := by
    rw [column.encodeKey accepted, raise_ok]
  rw [keyBytes, refuse_of_not _ taken, raise_ok, ok_bind]
  -- The short forms of the source are the general encoding.
  cases key with
  | unit | boolean _ | i64 _ | u64 _ => exact keyed
  | bytes _ | string _ | tuple _ | rows _ =>
      simp only [fits, ok_bind]
      exact keyed

omit [Crc32c] [Sha256] in
theorem keyBytes_of_not_accepts {key : Value} (refused : ¬ read.table.key.accepts key = true) :
    keyBytes read key =
      .error (.raised (.invalidInput "key does not match captured table schema")) := by
  rw [keyBytes, refuse_of _ (Bool.not_eq_true _ ▸ refused)]
  rfl

/-- A value as the bytes of its row. -/
def Decodes (table : Table) (row : Option Bytes) (value : Option Value) : Prop :=
  row = value.map Value.encode ∧ ∀ decoded ∈ value, table.value.accepts decoded = true

/-- A key of a live table reads as its row. -/
theorem getIn_of_accepts (running : Running initialPolicy origin)
    (stands : view.Stands origin.store.view) (right : Right origin read) {key : Value}
    (accepted : read.table.key.accepts key = true) :
    ∃ value, getIn view origin.frontier read key = .ok value ∧
      Decodes read.table (rowAfter origin.resolved read.table.id key.keyBytes) value := by
  have sound := running.sound
  obtain ⟨-, positive, small, -, -⟩ := sound.liveTable right.live
  have durable := sound.durable
  have bounded := sound.small
  have readable : Storage.Mvcc.Readable read.table.id key.keyBytes origin.frontier :=
    ⟨positive, small, by omega, right.column.length_keyBytes accepted⟩
  have selects := running.selects readable
  have found := (Storage.Mvcc.get_eq_ok_iff sound.uncorrupted readable).mpr selects
  rw [getIn, keyBytes_of_accepts right.column accepted, ok_bind, stands.readValue, found, raise_ok,
    relay_ok, ok_bind]
  cases row : rowAfter origin.resolved read.table.id key.keyBytes with
  | none => exact ⟨none, rfl, rfl, fun _ absent => nomatch absent⟩
  | some bytes =>
      obtain ⟨-, value, valued, rfl⟩ := sound.rowValue right.live row
      have decoded : Vm.decodeValue read.table.value value.encode = .ok value :=
        Vm.decodeValue_encode right.formed valued
      refine ⟨some value, ?_, rfl, ?_⟩
      · simp only [decoded, raise_ok, ok_bind, pure_eq_ok]
      · rintro _ ⟨⟩
        exact valued

end Keys

/-! ## The catalogue of a snapshot -/

section Catalogue

variable {last sequence : Nat} {entries : List Storage.Entry} {selected : Option Nat}

/-- Of the versions of a table at or before a sequence, the entries have this as the last. -/
def LastIn (last : Nat) (entries : List Storage.Entry) (sequence id : Nat)
    (version : CatalogueVersion) : Prop :=
  ∃ entry ∈ entries, ∃ written ≤ sequence, VersionEntry last entry id written version ∧
    ∀ other ∈ entries, ∀ written' ≤ sequence, ∀ version', VersionEntry last other id written' version' →
      written' ≤ written

omit [Crc32c] [Sha256] in
/-- The walk of the catalogue selects the last version of each table once. -/
theorem selectVersions_eq (bounded : last < maxU64) (sorted : Increasing entries)
    (versioned : ∀ entry ∈ entries, ∃ id written version, VersionEntry last entry id written version)
    (ahead : ∀ table ∈ selected, ∀ entry ∈ entries, ∀ id written version,
      VersionEntry last entry id written version → table ≤ id) (versions : List CatalogueVersion) :
    ∃ picked selected', entries.foldlM (selectVersion sequence) (versions, selected) =
        .ok (versions ++ picked, selected') ∧
      picked.Pairwise (fun left right => left.table.id < right.table.id) ∧
      ∀ version, version ∈ picked ↔ ∃ id, selected ≠ some id ∧ LastIn last entries sequence id version := by
  induction entries generalizing selected versions with
  | nil =>
      refine ⟨[], selected, by simp, .nil, fun version => ⟨fun member => (nomatch member), ?_⟩⟩
      rintro ⟨_, -, _, member, -⟩
      cases member
  | cons entry entries ih =>
      obtain ⟨before, sortedRest⟩ := List.pairwise_cons.mp sorted
      obtain ⟨id, written, version, holds⟩ := versioned entry List.mem_cons_self
      have versionedRest : ∀ other ∈ entries, ∃ id written version,
          VersionEntry last other id written version :=
        fun other member => versioned other (List.mem_cons_of_mem _ member)
      have later : ∀ other ∈ entries, ∀ id' written' version', VersionEntry last other id' written' version' →
          id < id' ∨ id = id' ∧ written' < written :=
        fun other member _ _ _ holds' => holds.before bounded holds' (before other member)
      -- An entry that is passed over does not matter for the tables that are left.
      have passed {id' : Nat} (skip : sequence < written ∨ id' ≠ id) (version' : CatalogueVersion) :
          LastIn last (entry :: entries) sequence id' version' ↔
            LastIn last entries sequence id' version' := by
        have irrelevant {written' : Nat} {version'' : CatalogueVersion} (seen : written' ≤ sequence)
            (holds' : VersionEntry last entry id' written' version'') : False := by
          obtain ⟨rfl, rfl, -⟩ := holds.unique bounded holds'
          rcases skip with newer | different
          · omega
          · exact different rfl
        constructor
        · rintro ⟨other, member, written', seen, holds', most⟩
          rcases List.mem_cons.mp member with rfl | inRest
          · exact (irrelevant seen holds').elim
          · exact ⟨other, inRest, written', seen, holds', fun another inside =>
              most another (List.mem_cons_of_mem _ inside)⟩
        · rintro ⟨other, member, written', seen, holds', most⟩
          refine ⟨other, List.mem_cons_of_mem _ member, written', seen, holds', ?_⟩
          intro another inside written'' seen' version'' holds''
          rcases List.mem_cons.mp inside with rfl | inRest
          · exact (irrelevant seen' holds'').elim
          · exact most another inRest written'' seen' version'' holds''
      rw [List.foldlM_cons, selectVersion]
      simp only [holds.decodeKey bounded, raise_ok, ok_bind]
      split_ifs with skipped
      · obtain ⟨picked, selected', walked, ordered, members⟩ := ih sortedRest versionedRest
          (fun table isSelected other member => ahead table isSelected other
            (List.mem_cons_of_mem _ member)) versions
        refine ⟨picked, selected', by simpa using walked, ordered, fun version' => ?_⟩
        rw [members]
        refine exists_congr fun id' => and_congr_right fun other => (passed ?_ version').symm
        rcases skipped with newer | same
        · exact .inl newer
        · refine .inr fun equal => other ?_
          rw [same, equal]
      · rw [not_or, not_lt] at skipped
        obtain ⟨seen, fresh⟩ := skipped
        have decoded : Vm.Database.decodeCatalogue id entry.2 = .ok version := holds.2.2.2.2
        obtain ⟨picked, selected', walked, ordered, members⟩ := @ih (some id) sortedRest versionedRest
          (by
            rintro _ ⟨⟩ other member id' written' version' holds'
            rcases later other member _ _ _ holds' with above | ⟨same, -⟩
            · exact above.le
            · exact same.le) (versions ++ [version])
        -- A table of the rest is beyond the selected one.
        have beyond {id' : Nat} {version' : CatalogueVersion} (other : some id ≠ some id')
            (lastIn : LastIn last entries sequence id' version') : id < id' := by
          obtain ⟨entry', member, written', -, holds', -⟩ := lastIn
          exact (later entry' member _ _ _ holds').resolve_right fun same => other (by rw [same.1])
        refine ⟨version :: picked, selected', ?_, ?_, ?_⟩
        · simpa [decoded] using walked
        · refine List.pairwise_cons.mpr ⟨fun version' member => ?_, ordered⟩
          obtain ⟨id', other, lastIn⟩ := (members version').mp member
          have order := beyond other lastIn
          obtain ⟨entry', -, written', -, holds', -⟩ := lastIn
          rw [holds.tableId, holds'.tableId]
          exact order
        · intro version'
          rw [List.mem_cons, members]
          constructor
          · rintro (rfl | ⟨id', other, lastIn⟩)
            · refine ⟨id, fresh, entry, List.mem_cons_self, written, seen, holds, ?_⟩
              intro another inside written' seen' version'' holds''
              rcases List.mem_cons.mp inside with rfl | inRest
              · exact (holds''.unique bounded holds).2.1.le
              · rcases later another inRest _ _ _ holds'' with above | ⟨-, older⟩
                · exact absurd above (lt_irrefl _)
                · exact older.le
            · have order := beyond other lastIn
              refine ⟨id', ?_, (passed (.inr order.ne') version').mpr lastIn⟩
              rintro rfl
              have := ahead id' rfl entry List.mem_cons_self id written version holds
              omega
          · rintro ⟨id', other, lastIn⟩
            by_cases same : id' = id
            · subst same
              obtain ⟨entry', member, written', seen', holds', most⟩ := lastIn
              have newest := most entry List.mem_cons_self written seen version holds
              rcases List.mem_cons.mp member with rfl | inRest
              · exact .inl (holds.unique bounded holds').2.2.symm
              · rcases later entry' inRest _ _ _ holds' with above | ⟨-, older⟩
                · exact absurd above (lt_irrefl _)
                · omega
            · exact .inr ⟨id', fun equal => same (Option.some.inj equal).symm,
                (passed (.inr same) version').mp lastIn⟩

omit [Crc32c] [Sha256] in
/-- The last version among the entries of a tree is its last version. -/
theorem lastIn_iff {id : Nat} {version : CatalogueVersion} (keyed : Vm.Database.Keyed maps last) :
    LastIn last (maps.roots .catalogue).entries sequence id version ↔
      Latest maps id (sequence + 1) version := by
  have bounded := keyed.bounded
  constructor
  · rintro ⟨entry, member, written, seen, holds, most⟩
    refine ⟨written, by omega, holds.stored bounded member, fun other inside version' stored => ?_⟩
    obtain ⟨entry', member', holds'⟩ := keyed.stored stored
    exact most entry' member' other (by omega) version' holds'
  · rintro ⟨written, inside, stored, most⟩
    obtain ⟨entry, member, holds⟩ := keyed.stored stored
    refine ⟨entry, member, written, by omega, holds, fun other member' written' seen version' holds' => ?_⟩
    exact most written' (by omega) version' (holds'.stored bounded member')

/-- The catalogue of a snapshot lists the last version of every table once. -/
theorem catalogueIn_eq (sound : origin.Sound initialPolicy) (stands : view.Stands origin.store.view) :
    ∃ start versions selected,
      Storage.BTree.scan view.reader .catalogue (view.roots.root .catalogue) .unbounded .unbounded =
        .ok start ∧
      start.forEach Error.storage (selectVersion origin.frontier) (view.reader.cellCount + 1) ([], none) =
        .ok (versions, selected) ∧
      versions.Pairwise (fun left right => left.table.id < right.table.id) ∧
      ∀ version, version ∈ versions ↔ ∃ id, Latest origin.serial id (origin.frontier + 1) version := by
  obtain ⟨start, started, yields⟩ := (stands .catalogue).yields
    (show Storage.checkBound Storage.checkKey .unbounded = .ok () from rfl)
    (show Storage.checkBound Storage.checkKey .unbounded = .ok () from rfl)
  have whole : (origin.store.view.roots .catalogue).range .unbounded .unbounded =
      (origin.store.view.roots .catalogue).entries := by
    simp [OrdMap.range, Bound.above, Bound.below]
  rw [whole] at yields
  have keyed := sound.keyed
  obtain ⟨picked, selected, walked, ordered, members⟩ :=
    @selectVersions_eq _ origin.frontier _ none keyed.bounded
      (origin.store.view.roots .catalogue).increasing keyed.entry (by simp) []
  refine ⟨start, picked, selected, started, ?_, ordered, fun version => ?_⟩
  · rw [yields.forEach rfl (Nat.lt_succ_of_le (stands .catalogue).length_le)]
    exact walked
  · rw [members]
    refine exists_congr fun id => ?_
    rw [and_iff_right (by simp), lastIn_iff keyed]
    exact sound.latest le_rfl

end Catalogue

/-! ## Scans -/

/-- A key is not below a lower bound, in the order of values. -/
def AtLeast : Bound Value → Value → Prop
  | .unbounded, _ => True
  | .included bound, key => bound.cmp key ≠ .gt
  | .excluded bound, key => bound.cmp key = .lt

/-- A key is not above an upper bound, in the order of values. -/
def AtMost : Bound Value → Value → Prop
  | .unbounded, _ => True
  | .included bound, key => key.cmp bound ≠ .gt
  | .excluded bound, key => key.cmp bound = .lt

/-- The key of a bound. -/
def endpoint : Bound Value → Option Value
  | .unbounded => none
  | .included key | .excluded key => some key

/-- The bounds that a scan takes: keys of the table, the lower one not above the upper. -/
structure Admits (table : Table) (lower upper : Bound Value) : Prop where
  first : ∀ key ∈ endpoint lower, table.key.accepts key = true
  last : ∀ key ∈ endpoint upper, table.key.accepts key = true
  ordered : ∀ key ∈ endpoint lower, ∀ key' ∈ endpoint upper, key.cmp key' ≠ .gt

/-- A row as the bytes of its key and its value. -/
def rowBytes (row : Value × Value) : Storage.Entry := (row.1.keyBytes, row.2.encode)

/-- A row of the types of a table. -/
def RowTyped (table : Table) (row : Value × Value) : Prop :=
  table.key.accepts row.1 = true ∧ table.value.accepts row.2 = true

/-- The rows that a scan has still to return. -/
structure Owes (origin : Source) (scan : Scan) (rows : List (Value × Value)) : Prop where
  right : Right origin scan.table
  typed : ∀ row ∈ rows, RowTyped scan.table.table row
  upper : Storage.Mvcc.ShortBound scan.upper
  owed : if scan.done = true then rows = []
    else Storage.Mvcc.scan origin.store.view scan.table.table.id origin.frontier scan.lower scan.upper =
      .ok (rows.map fun row => .ok (rowBytes row))

section Scans

variable {read : ReadTable} {scan : Scan}

omit [Crc32c] [Sha256] in
/-- Typed keys compare like their bytes. -/
theorem keyBytes_lt_iff_cmp (column : KeyColumn read.table.key read.keySchema) {left right : Value}
    (hl : read.table.key.accepts left = true) (hr : read.table.key.accepts right = true) :
    left.keyBytes < right.keyBytes ↔ left.cmp right = .lt := by
  rw [← column.compare_keyBytes hl hr, Vm.compare_bytes_lt]

omit [Crc32c] [Sha256] in
theorem keyBytes_le_iff_cmp (column : KeyColumn read.table.key read.keySchema) {left right : Value}
    (hl : read.table.key.accepts left = true) (hr : read.table.key.accepts right = true) :
    left.keyBytes ≤ right.keyBytes ↔ left.cmp right ≠ .gt := by
  rw [← column.compare_keyBytes hl hr, le_iff_lt_or_eq, ← Vm.compare_bytes_lt, ← Vm.compare_bytes_eq]
  cases compare left.keyBytes right.keyBytes <;> simp

omit [Crc32c] [Sha256] in
theorem keyBytes_eq_ok (column : KeyColumn read.table.key read.keySchema) {key : Value} {bytes : Bytes}
    (encoded : keyBytes read key = .ok bytes) :
    read.table.key.accepts key = true ∧ bytes = key.keyBytes := by
  by_cases accepted : read.table.key.accepts key = true
  · rw [keyBytes_of_accepts column accepted] at encoded
    exact ⟨accepted, (Except.ok.inj encoded).symm⟩
  · rw [keyBytes_of_not_accepts accepted] at encoded
    cases encoded

omit [Crc32c] [Sha256] in
/-- The bytes of an accepted bound. -/
theorem boundBytes_eq_ok (column : KeyColumn read.table.key read.keySchema) {bound : Bound Value}
    {bytes : Bound Bytes} (encoded : boundBytes read bound = .ok bytes) :
    Storage.Mvcc.ShortBound bytes ∧ ∀ key, read.table.key.accepts key = true →
      (bytes.above key.keyBytes = true ↔ AtLeast bound key) ∧
      (bytes.below key.keyBytes = true ↔ AtMost bound key) := by
  cases bound with
  | unbounded =>
      cases encoded
      exact ⟨fun _ absent => (nomatch absent), fun key _ => ⟨by simp [Bound.above, AtLeast],
        by simp [Bound.below, AtMost]⟩⟩
  | included limit =>
      obtain ⟨_, isKey, same⟩ := bind_eq_ok.mp encoded
      cases same
      obtain ⟨accepted, rfl⟩ := keyBytes_eq_ok column isKey
      refine ⟨?_, fun key taken => ⟨?_, ?_⟩⟩
      · rintro _ ⟨⟩
        exact column.length_keyBytes accepted
      · simp only [Bound.above, decide_eq_true_eq]
        exact keyBytes_le_iff_cmp column accepted taken
      · simp only [Bound.below, decide_eq_true_eq]
        exact keyBytes_le_iff_cmp column taken accepted
  | excluded limit =>
      obtain ⟨_, isKey, same⟩ := bind_eq_ok.mp encoded
      cases same
      obtain ⟨accepted, rfl⟩ := keyBytes_eq_ok column isKey
      refine ⟨?_, fun key taken => ⟨?_, ?_⟩⟩
      · rintro _ ⟨⟩
        exact column.length_keyBytes accepted
      · simp only [Bound.above, decide_eq_true_eq]
        exact keyBytes_lt_iff_cmp column accepted taken
      · simp only [Bound.below, decide_eq_true_eq]
        exact keyBytes_lt_iff_cmp column taken accepted

omit [Crc32c] [Sha256] in
/-- A bound is encoded when its key is of the table. -/
theorem boundBytes_cases (column : KeyColumn read.table.key read.keySchema) (bound : Bound Value) :
    (∃ key ∈ endpoint bound, ¬ read.table.key.accepts key = true ∧
      boundBytes read bound =
        .error (.raised (.invalidInput "key does not match captured table schema"))) ∨
    (∀ key ∈ endpoint bound, read.table.key.accepts key = true) ∧
      ∃ bytes, boundBytes read bound = .ok bytes ∧
        Storage.boundKey bytes = (endpoint bound).map Value.keyBytes := by
  cases bound with
  | unbounded => exact .inr ⟨fun _ absent => (nomatch absent), _, rfl, rfl⟩
  | included key | excluded key =>
      by_cases accepted : read.table.key.accepts key = true
      · refine .inr ⟨fun _ same => Option.some.inj same ▸ accepted, ?_⟩
        simp only [boundBytes, keyBytes_of_accepts column accepted, ok_bind, pure_eq_ok]
        exact ⟨_, rfl, rfl⟩
      · refine .inl ⟨key, rfl, accepted, ?_⟩
        rw [boundBytes, keyBytes_of_not_accepts accepted]
        rfl

omit [Crc32c] [Sha256] in
/-- Only reversed bounds are refused. -/
theorem emptyBounds_cases (lower upper : Bound Bytes) :
    (∃ first ∈ Storage.boundKey lower, ∃ last ∈ Storage.boundKey upper, last < first ∧
      emptyBounds lower upper = .error (.invalidInput "reversed scan endpoints")) ∨
    (∀ first ∈ Storage.boundKey lower, ∀ last ∈ Storage.boundKey upper, first ≤ last) ∧
      ∃ empty, emptyBounds lower upper = .ok empty := by
  cases lower with
  | unbounded => exact .inr ⟨fun _ absent => (nomatch absent), _, rfl⟩
  | included first | excluded first =>
      cases upper with
      | unbounded => exact .inr ⟨fun _ _ _ absent => (nomatch absent), _, rfl⟩
      | included last | excluded last =>
          by_cases reversed : first > last
          · refine .inl ⟨first, rfl, last, rfl, reversed, ?_⟩
            rw [emptyBounds, refuse_of _ reversed]
            rfl
          · refine .inr ⟨?_, ?_⟩
            · rintro _ ⟨⟩ _ ⟨⟩
              exact not_lt.mp reversed
            · rw [emptyBounds, refuse_of_not _ reversed]
              exact ⟨_, rfl⟩

omit [Crc32c] [Sha256] in
/-- A scan starts exactly on the bounds that it admits. -/
theorem scanIn_cases (column : KeyColumn read.table.key read.keySchema) (lower upper : Bound Value) :
    (¬ Admits read.table lower upper ∧ ∃ error, scanIn read lower upper = .error (.raised error)) ∨
    Admits read.table lower upper ∧ ∃ scan, scanIn read lower upper = .ok scan := by
  rw [scanIn]
  rcases boundBytes_cases column lower with ⟨key, isKey, refused, fails⟩ | ⟨first, low, encoded, isLow⟩
  · rw [fails]
    exact .inl ⟨fun admits => refused (admits.first key isKey), _, rfl⟩
  rw [encoded, ok_bind]
  rcases boundBytes_cases column upper with ⟨key, isKey, refused, fails⟩ | ⟨last, high, encoded', isHigh⟩
  · rw [fails]
    exact .inl ⟨fun admits => refused (admits.last key isKey), _, rfl⟩
  rw [encoded', ok_bind]
  rcases emptyBounds_cases low high with ⟨below, isBelow, above, isAbove, reversed, fails⟩ |
    ⟨ordered, done, returns⟩
  · rw [fails]
    refine .inl ⟨fun admits => ?_, _, rfl⟩
    rw [isLow] at isBelow
    rw [isHigh] at isAbove
    obtain ⟨key, isKey, rfl⟩ := Option.map_eq_some_iff.mp isBelow
    obtain ⟨key', isKey', rfl⟩ := Option.map_eq_some_iff.mp isAbove
    have order := (keyBytes_le_iff_cmp column (first key isKey) (last key' isKey')).mpr
      (admits.ordered key isKey key' isKey')
    exact absurd reversed (not_lt.mpr order)
  · rw [returns]
    refine .inr ⟨⟨first, last, fun key isKey key' isKey' => ?_⟩, _, rfl⟩
    refine (keyBytes_le_iff_cmp column (first key isKey) (last key' isKey')).mp (ordered _ ?_ _ ?_)
    · rw [isLow]
      exact Option.mem_map_of_mem _ isKey
    · rw [isHigh]
      exact Option.mem_map_of_mem _ isKey'

/-- A read of the live state at the frontier returns the row. -/
theorem get_eq_row (running : Running initialPolicy origin) {id : Nat} {table : Table}
    (live : LiveAt origin id table) {key bytes : Bytes} :
    Storage.Mvcc.get origin.store.view id key origin.frontier = .ok (some bytes) ↔
      rowAfter origin.resolved id key = some bytes := by
  have sound := running.sound
  obtain ⟨-, positive, small, -, schema, column, -⟩ := sound.liveTable live
  have durable := sound.durable
  have bounded := sound.small
  have readable (short : key.length ≤ Storage.Encoding.maxKeyBytes) :
      Storage.Mvcc.Readable id key origin.frontier := ⟨positive, small, by omega, short⟩
  constructor
  · intro found
    have short : key.length ≤ Storage.Encoding.maxKeyBytes := by
      obtain ⟨⟨⟩, -, found⟩ := bind_eq_ok.mp found
      obtain ⟨⟨⟩, fits, -⟩ := bind_eq_ok.mp found
      exact not_lt.mp (refuse_eq_ok.mp fits)
    have selects := (Storage.Mvcc.get_eq_ok_iff sound.uncorrupted (readable short)).mp found
    exact (running.selects (readable short)).unique selects
  · intro row
    obtain ⟨⟨value, accepted, rfl⟩, -⟩ := sound.rowValue live row
    have short := column.length_keyBytes accepted
    rw [Storage.Mvcc.get_eq_ok_iff sound.uncorrupted (readable short), ← row]
    exact running.selects (readable short)

omit [Crc32c] [Sha256] in
/-- Typed rows have different bytes. -/
theorem rowBytes_inj (column : KeyColumn read.table.key read.keySchema)
    (formed : read.table.value.Formed 16) {left right : Value × Value}
    (hl : RowTyped read.table left) (hr : RowTyped read.table right)
    (same : rowBytes left = rowBytes right) : left = right := by
  obtain ⟨keys, values⟩ := Prod.mk.inj same
  have decoded := Vm.decodeValue_encode formed hl.2
  rw [values, Vm.decodeValue_encode formed hr.2] at decoded
  exact Prod.ext (column.keyBytes_prefix hl.1 hr.1 (keys ▸ List.prefix_refl _))
    (Except.ok.inj decoded).symm

omit [Crc32c] [Sha256] in
/-- A list of images has a list of originals. -/
theorem exists_originals {α β : Type} {f : α → β} {good : α → Prop} {images : List β}
    (each : ∀ image ∈ images, ∃ original, good original ∧ f original = image) :
    ∃ originals : List α, (∀ original ∈ originals, good original) ∧ originals.map f = images := by
  induction images with
  | nil => exact ⟨[], fun _ absent => (nomatch absent), rfl⟩
  | cons image images ih =>
      obtain ⟨original, first, rfl⟩ := each image List.mem_cons_self
      obtain ⟨originals, rest, rfl⟩ := ih fun other member => each other (List.mem_cons_of_mem _ member)
      exact ⟨original :: originals, List.forall_mem_cons.mpr ⟨first, rest⟩, rfl⟩

/-- The rows between byte bounds, as typed rows. -/
theorem exists_rows (running : Running initialPolicy origin) (right : Right origin read)
    {lower upper : Bound Bytes} (lowerShort : Storage.Mvcc.ShortBound lower)
    (upperShort : Storage.Mvcc.ShortBound upper) :
    ∃ rows : List (Value × Value),
      Storage.Mvcc.scan origin.store.view read.table.id origin.frontier lower upper =
        .ok (rows.map fun row => .ok (rowBytes row)) ∧
      (∀ row ∈ rows, RowTyped read.table row) ∧
      rows.Pairwise (fun left right => left.1.cmp right.1 = .lt) ∧
      ∀ row, row ∈ rows ↔ RowTyped read.table row ∧ lower.above row.1.keyBytes = true ∧
        upper.below row.1.keyBytes = true ∧
        rowAfter origin.resolved read.table.id row.1.keyBytes = some row.2.encode := by
  have sound := running.sound
  obtain ⟨-, positive, small, -, -⟩ := sound.liveTable right.live
  have durable := sound.durable
  have bounded := sound.small
  obtain ⟨chosen, scanned, increasing, members⟩ := Storage.Mvcc.scan_spec sound.uncorrupted positive
    small (show origin.frontier < maxU64 by omega) lowerShort upperShort
  -- Every chosen entry is a row of the table's types.
  have typed : ∀ entry ∈ chosen, ∃ row, RowTyped read.table row ∧ rowBytes row = entry := by
    rintro ⟨key, bytes⟩ member
    obtain ⟨-, -, found⟩ := (members key bytes).mp member
    obtain ⟨⟨decodedKey, keyed, rfl⟩, value, valued, rfl⟩ :=
      sound.rowValue right.live ((get_eq_row running right.live).mp found)
    exact ⟨(decodedKey, value), ⟨keyed, valued⟩, rfl⟩
  obtain ⟨rows, typedRows, rfl⟩ := exists_originals typed
  refine ⟨rows, ?_, typedRows, ?_, ?_⟩
  · rw [scanned, List.map_map]
    rfl
  · refine (List.pairwise_map.mp increasing).imp_of_mem fun {left next} inLeft inNext less => ?_
    exact (keyBytes_lt_iff_cmp right.column (typedRows left inLeft).1 (typedRows next inNext).1).mp less
  · intro row
    constructor
    · intro member
      obtain ⟨above, below, found⟩ := (members _ _).mp (List.mem_map_of_mem member)
      exact ⟨typedRows row member, above, below, (get_eq_row running right.live).mp found⟩
    · rintro ⟨isTyped, above, below, holds⟩
      obtain ⟨row', member, same⟩ := List.mem_map.mp ((members row.1.keyBytes row.2.encode).mpr
        ⟨above, below, (get_eq_row running right.live).mpr holds⟩)
      rwa [← rowBytes_inj right.column right.formed (typedRows row' member) isTyped same]

omit [Crc32c] [Sha256] in
/-- No key is between bounds that are empty. -/
theorem not_between_of_emptyBounds {lower upper : Bound Bytes} (empty : emptyBounds lower upper = .ok true)
    {key : Bytes} (above : lower.above key = true) (below : upper.below key = true) : False := by
  cases lower with
  | unbounded => cases empty
  | included first =>
      cases upper with
      | unbounded => cases empty
      | included last =>
          obtain ⟨⟨⟩, -, same⟩ := bind_eq_ok.mp empty
          cases same
      | excluded last =>
          obtain ⟨⟨⟩, -, same⟩ := bind_eq_ok.mp empty
          obtain rfl : first = last := of_decide_eq_true (Except.ok.inj same)
          simp only [Bound.above, Bound.below, decide_eq_true_eq] at above below
          exact absurd below (not_lt.mpr above)
  | excluded first =>
      cases upper with
      | unbounded => cases empty
      | included last | excluded last =>
          obtain ⟨⟨⟩, -, same⟩ := bind_eq_ok.mp empty
          obtain rfl : first = last := of_decide_eq_true (Except.ok.inj same)
          simp only [Bound.above, Bound.below, decide_eq_true_eq] at above below
          first
            | exact absurd above (not_lt.mpr below)
            | exact absurd above (lt_asymm below)

/-- The rows between typed bounds. -/
structure Between (origin : Source) (table : Table) (lower upper : Bound Value)
    (rows : List (Value × Value)) : Prop where
  ordered : rows.Pairwise fun left right => left.1.cmp right.1 = .lt
  exact : ∀ row, row ∈ rows ↔ RowTyped table row ∧ AtLeast lower row.1 ∧ AtMost upper row.1 ∧
    rowAfter origin.resolved table.id row.1.keyBytes = some row.2.encode

/-- A scan that starts owes the rows between its bounds. -/
theorem owes_of_scanIn (running : Running initialPolicy origin) (right : Right origin read)
    {lower upper : Bound Value} (started : scanIn read lower upper = .ok scan) :
    ∃ rows, Owes origin scan rows ∧ scan.table = read ∧ Between origin read.table lower upper rows := by
  obtain ⟨lowerBytes, lowerEncoded, started⟩ := bind_eq_ok.mp started
  obtain ⟨upperBytes, upperEncoded, started⟩ := bind_eq_ok.mp started
  obtain ⟨done, empty, same⟩ := bind_eq_ok.mp started
  cases same
  obtain ⟨lowerShort, lowerMeans⟩ := boundBytes_eq_ok right.column lowerEncoded
  obtain ⟨upperShort, upperMeans⟩ := boundBytes_eq_ok right.column upperEncoded
  obtain ⟨rows, scanned, typed, ordered, members⟩ := exists_rows running right lowerShort upperShort
  have members' (row : Value × Value) : row ∈ rows ↔ RowTyped read.table row ∧
      AtLeast lower row.1 ∧ AtMost upper row.1 ∧
      rowAfter origin.resolved read.table.id row.1.keyBytes = some row.2.encode := by
    rw [members]
    refine and_congr_right fun isTyped => ?_
    rw [(lowerMeans row.1 isTyped.1).1, (upperMeans row.1 isTyped.1).2]
  refine ⟨rows, ⟨right, typed, upperShort, ?_⟩, rfl, ordered, members'⟩
  cases done with
  | false => exact scanned
  | true =>
      refine List.eq_nil_iff_forall_not_mem.mpr fun row member => ?_
      obtain ⟨-, above, below, -⟩ := (members row).mp member
      exact not_between_of_emptyBounds (raise_eq_ok.mp empty) above below

omit [Crc32c] [Sha256] in
/-- A call of a scan returns the first row that it owes. -/
theorem nextRow_of_owes (stands : view.Stands origin.store.view) {rows : List (Value × Value)}
    (owes : Owes origin scan rows) (active : scan.done = false) :
    nextRow view origin.frontier scan =
      .ok (rows.head?.map fun row => (row.1.keyBytes, row.1, row.2)) := by
  have scanned := owes.owed
  rw [active] at scanned
  obtain ⟨walk, started, first⟩ := stands.scanRows scanned
  rw [nextRow, started, relay_ok, ok_bind, first]
  cases rows with
  | nil => rfl
  | cons row rows =>
      obtain ⟨keyed, valued⟩ := owes.typed row List.mem_cons_self
      have decodedKey := owes.right.column.decodeKey keyed
      have key : Vm.decodeValue scan.table.table.key row.1.encode = .ok row.1 :=
        Vm.decodeValue_encode owes.right.column.formed keyed
      have value : Vm.decodeValue scan.table.table.value row.2.encode = .ok row.2 :=
        Vm.decodeValue_encode owes.right.formed valued
      simp only [List.map_cons, Storage.firstItem, rowBytes, relay_ok, ok_bind, decodedKey, raise_ok,
        key, value, pure_eq_ok, List.head?_cons, Option.map_some]

/-- A scan that continues after its first entry lists the others. -/
theorem scan_after_first (running : Running initialPolicy origin) {id : Nat} {table : Table}
    (live : LiveAt origin id table) {lower upper : Bound Bytes} {entry : Storage.Entry}
    {entries : List Storage.Entry}
    (scanned : Storage.Mvcc.scan origin.store.view id origin.frontier lower upper =
      .ok ((entry :: entries).map .ok)) :
    Storage.Mvcc.scan origin.store.view id origin.frontier (.excluded entry.1) upper =
      .ok (entries.map .ok) := by
  have sound := running.sound
  obtain ⟨-, positive, small, -, schema, column, -⟩ := sound.liveTable live
  have durable := sound.durable
  have bounded := sound.small
  have inside : origin.frontier < maxU64 := by omega
  obtain ⟨lowerShort, upperShort⟩ : Storage.Mvcc.ShortBound lower ∧ Storage.Mvcc.ShortBound upper := by
    obtain ⟨⟨⟩, -, rest⟩ := bind_eq_ok.mp scanned
    obtain ⟨⟨⟩, lowerFits, rest⟩ := bind_eq_ok.mp rest
    obtain ⟨⟨⟩, upperFits, -⟩ := bind_eq_ok.mp rest
    exact ⟨Storage.Collect.short_of_checkBound lowerFits, Storage.Collect.short_of_checkBound upperFits⟩
  obtain ⟨chosen, listed, increasing, members⟩ := Storage.Mvcc.scan_spec sound.uncorrupted positive
    small inside lowerShort upperShort
  obtain rfl : chosen = entry :: entries := by
    have injective : Function.Injective (Except.ok : Storage.Entry → Except Storage.Error Storage.Entry) :=
      fun _ _ same => Except.ok.inj same
    exact List.map_injective_iff.mpr injective (Except.ok.inj (listed.symm.trans scanned))
  obtain ⟨above, -, found⟩ := (members entry.1 entry.2).mp List.mem_cons_self
  have short : Storage.Mvcc.ShortBound (.excluded entry.1) := by
    rintro _ ⟨⟩
    obtain ⟨⟨value, accepted, same⟩, -⟩ := sound.rowValue live ((get_eq_row running live).mp found)
    exact same ▸ column.length_keyBytes accepted
  obtain ⟨rest, listed', increasing', members'⟩ := Storage.Mvcc.scan_spec sound.uncorrupted positive
    small inside short upperShort
  obtain ⟨before, increasingRest⟩ := List.pairwise_cons.mp increasing
  obtain rfl : rest = entries := by
    refine increasing'.ext increasingRest fun other => ?_
    rw [show other = (other.1, other.2) from rfl, members']
    simp only [Bound.above, decide_eq_true_eq]
    constructor
    · rintro ⟨after, below, got⟩
      have member := (members other.1 other.2).mpr ⟨Storage.BTree.above_of_lt after above, below, got⟩
      rcases List.mem_cons.mp member with same | later
      · rw [← same] at after
        exact absurd after (lt_irrefl _)
      · exact later
    · intro member
      obtain ⟨-, below, got⟩ := (members other.1 other.2).mp (List.mem_cons_of_mem _ member)
      exact ⟨before other member, below, got⟩
  exact listed'

/-- After a returned row a scan owes the others. -/
theorem Owes.rest (running : Running initialPolicy origin) {row : Value × Value}
    {rows : List (Value × Value)} (owes : Owes origin scan (row :: rows)) (active : scan.done = false) :
    Owes origin { scan with lower := .excluded row.1.keyBytes } rows := by
  have scanned := owes.owed
  rw [active, if_neg Bool.false_ne_true] at scanned
  refine ⟨owes.right, fun other member => owes.typed other (List.mem_cons_of_mem _ member), owes.upper, ?_⟩
  rw [active, if_neg Bool.false_ne_true]
  have listed : Storage.Mvcc.scan origin.store.view scan.table.table.id origin.frontier scan.lower
      scan.upper = .ok ((rowBytes row :: rows.map rowBytes).map .ok) := by
    rw [scanned, List.map_cons, List.map_cons, List.map_map]
    rfl
  have rest := scan_after_first running owes.right.live listed
  rw [List.map_map] at rest
  exact rest

end Scans

end Snapshot

end BlopDb.Engine
