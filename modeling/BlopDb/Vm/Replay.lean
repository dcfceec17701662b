/-
# The catalogue replay accepts every lifecycle

The validator replays catalogue versions in sequence order with maps of its own.
Before each version the maps agree with the last versions before its sequence,
so the lifecycle invariant answers every check of the replay.
-/

import BlopDb.Vm.Lifecycle
import BlopDb.Vm.Validate

namespace BlopDb.Vm.History

open BlopDb.Lib
open Storage (View maxU64)
open Storage.Encoding (Schema)
open Database (Lifecycle Stored Latest VersionEntry Keyed decodeCatalogue)

/-! ## Versions by sequence -/

theorem version_eq_ok {versions : Versions} {sequence kind checkpoint count : Nat}
    (positive : sequence ≠ 0) (bounded : sequence < maxU64) (old : sequence ≤ checkpoint)
    (found : versions.find? sequence = none ∧ count = 0 ∨
      kind = 1 ∧ versions.find? sequence = some (1, count)) (few : count + 1 < 2 ^ 64) :
    version versions sequence kind checkpoint = .ok (versions.insert sequence (kind, count + 1)) := by
  have valid : Database.validId sequence = .ok () :=
    Database.validId_eq_ok.mpr ⟨positive, bounded.ne⟩
  have entry : (versions.find? sequence).getD (kind, 0) = (kind, count) := by
    rcases found with ⟨absent, rfl⟩ | ⟨rfl, present⟩
    · rw [absent]
      rfl
    · rw [present]
      rfl
  have compatible : ¬ (kind ≠ kind ∨ (kind ≠ 1 ∧ count ≠ 0)) := by
    rcases found with ⟨-, rfl⟩ | ⟨rfl, -⟩ <;> simp
  simp only [version, valid, ok_bind, refuse_of_not _ (not_lt.mpr old), entry,
    refuse_of_not _ compatible, refuse_of_not _ (show ¬ count + 1 ≥ 2 ^ 64 by omega), pure_eq_ok]

/-- The sequences of catalogue entries that a walk still has to count. -/
def Pending (frontier : Nat) (entries : List Storage.Entry) (sequence : Nat) : Prop :=
  ∃ entry ∈ entries, ∃ id version, VersionEntry frontier entry id sequence version

/-- Collecting the events of entries with different sequences. -/
theorem catalogueEvents_eq {frontier checkpoint : Nat} (bounded : frontier < maxU64)
    (covered : frontier ≤ checkpoint) {entries : List Storage.Entry}
    (each : ∀ entry ∈ entries, ∃ id sequence version,
      VersionEntry frontier entry id sequence version)
    (apart : entries.Pairwise fun left right => ∀ id id' sequence version version',
      VersionEntry frontier left id sequence version →
      ¬ VersionEntry frontier right id' sequence version')
    (versions : Versions) (events : OrdMap Nat CatalogueVersion)
    (uncounted : ∀ sequence, Pending frontier entries sequence → versions.find? sequence = none) :
    ∃ versions' events', catalogueEvents checkpoint entries versions events =
        .ok (versions', events') ∧
      (∀ sequence, Pending frontier entries sequence → versions'.find? sequence = some (2, 1)) ∧
      (∀ sequence, ¬ Pending frontier entries sequence →
        versions'.find? sequence = versions.find? sequence ∧
          events'.find? sequence = events.find? sequence) ∧
      ∀ entry ∈ entries, ∀ id sequence version, VersionEntry frontier entry id sequence version →
        events'.find? sequence = some version := by
  induction entries generalizing versions events with
  | nil => exact ⟨versions, events, rfl, by simp [Pending], by simp, by simp⟩
  | cons entry entries ih =>
      obtain ⟨first, tail⟩ := List.pairwise_cons.mp apart
      obtain ⟨id, sequence, metadata, holds⟩ := each entry List.mem_cons_self
      have notPending : ¬ Pending frontier entries sequence := by
        rintro ⟨other, member, id', version', holds'⟩
        exact first other member id id' sequence metadata version' holds holds'
      have headPending : Pending frontier (entry :: entries) sequence :=
        ⟨entry, List.mem_cons_self, id, metadata, holds⟩
      have tailPending {other : Nat} (pending : Pending frontier entries other) :
          Pending frontier (entry :: entries) other := by
        obtain ⟨found, member, rest⟩ := pending
        exact ⟨found, List.mem_cons_of_mem _ member, rest⟩
      have positive : sequence ≠ 0 := by
        have := holds.2.1
        have := holds.2.2.1
        omega
      have counted := @version_eq_ok versions sequence 2 checkpoint 0 positive
        (lt_of_le_of_lt holds.2.2.2.1 bounded) (holds.2.2.2.1.trans covered)
        (.inl ⟨uncounted sequence headPending, rfl⟩) (by norm_num)
      obtain ⟨versions', events', returns, new, kept, listed⟩ := ih
        (fun other member => each other (List.mem_cons_of_mem _ member)) tail
        (versions.insert sequence (2, 1)) (events.insert sequence metadata) (by
          intro other pending
          have different : sequence ≠ other := by
            rintro rfl
            exact notPending pending
          rw [OrdMap.find?_insert_of_ne _ _ different]
          exact uncounted other (tailPending pending))
      obtain ⟨key, value⟩ := entry
      refine ⟨versions', events', ?_, ?_, ?_, ?_⟩
      · have decodedKey := holds.decodeKey bounded
        simp only [catalogueEvents, decodedKey, ok_bind, holds.2.2.2.2, counted, returns]
      · rintro other ⟨found, member, id', version', holds'⟩
        rcases List.mem_cons.mp member with rfl | inTail
        · obtain ⟨-, rfl, -⟩ := holds.unique bounded holds'
          rw [(kept sequence notPending).1, OrdMap.find?_insert_self]
        · exact new other ⟨found, inTail, id', version', holds'⟩
      · intro other notListed
        have different : sequence ≠ other := by
          rintro rfl
          exact notListed headPending
        obtain ⟨sameVersion, sameEvent⟩ := kept other fun pending => notListed (tailPending pending)
        rw [sameVersion, sameEvent, OrdMap.find?_insert_of_ne _ _ different,
          OrdMap.find?_insert_of_ne _ _ different]
        exact ⟨rfl, rfl⟩
      · intro found member id' sequence' version' holds'
        rcases List.mem_cons.mp member with rfl | inTail
        · obtain ⟨-, rfl, rfl⟩ := holds.unique bounded holds'
          rw [(kept sequence notPending).2, OrdMap.find?_insert_self]
        · exact listed found inTail id' sequence' version' holds'

/-! ## The replay -/

/-- The schemas of a decoded table. -/
structure TableSchemas (table : Table) (key value : Schema) : Prop where
  /-- The key type has canonical keys within the ceiling. -/
  key : KeyColumn table.key key
  /-- The value type was decoded. -/
  formed : table.value.Formed 16
  /-- The value type is a storage schema. -/
  value : Schema.decode table.value.descriptor = .ok value

theorem decodeCatalogue_schemas {id : Nat} {bytes : Bytes} {metadata : CatalogueVersion}
    (decoded : decodeCatalogue id bytes = .ok metadata) :
    ∃ key value, TableSchemas metadata.table key value := by
  simp only [decodeCatalogue, bind_eq_ok, Prod.exists] at decoded
  obtain ⟨-, -, _, _, -, -, -, _, _, -, live, -, _, _, -, -, -, _, _, -, name, -, -, -, keyBytes, _,
    -, keySchema, keyed, key, keyType, valueBytes, _, -, valueSchema, valued, value, valueType, -, -,
    same⟩ := decoded
  cases same
  obtain ⟨schema, short⟩ := tableSchema_eq_ok keyed
  obtain ⟨rfl, formed, -⟩ := Ty.decode_sound keyType
  obtain ⟨rfl, valueFormed, -⟩ := Ty.decode_sound valueType
  exact ⟨keySchema, valueSchema, ⟨formed, schema, short rfl⟩, valueFormed,
    (tableSchema_eq_ok valued).1⟩

theorem schemaOf_of_formed {ty : Ty} {schema : Schema} (formed : ty.Formed 16)
    (decoded : Schema.decode ty.descriptor = .ok schema) : schemaOf ty = .ok schema := by
  simp only [schemaOf, formed.descriptorOrPanic, ok_bind, decoded, raise_ok]

/-- The maps of a replay agree with the last versions before a bound. -/
structure Replayed (view : View) (bound : Nat) (replay : Replay) : Prop where
  latest : ∀ {id table}, replay.tables.find? id = some table →
    Latest view id bound table.latest ∧ TableSchemas table.latest.table table.key table.value ∧
      ∀ drop, table.dropped = some drop ↔
        drop < bound ∧ ∃ metadata, Stored view id drop metadata ∧ metadata.live = false
  known : ∀ {id metadata}, Latest view id bound metadata →
    ∃ table, replay.tables.find? id = some table
  names : ∀ {name id}, replay.names.find? name = some id ↔
    ∃ metadata, Latest view id bound metadata ∧ metadata.live = true ∧ metadata.name = name

section Replay

variable {view : View} {frontier bound sequence : Nat} {replay : Replay}

/-- Without versions in between, the last versions stay the same. -/
theorem latest_of_gap {bound' id : Nat} {metadata : CatalogueVersion} (order : bound ≤ bound')
    (gap : ∀ {id sequence metadata}, Stored view id sequence metadata → bound ≤ sequence →
      bound' ≤ sequence) :
    Latest view id bound' metadata ↔ Latest view id bound metadata := by
  constructor
  · rintro ⟨last, inside, stored, most⟩
    have before : last < bound := not_le.mp fun above => absurd (gap stored above) (not_le.mpr inside)
    exact ⟨last, before, stored, fun other within => most other (by omega)⟩
  · rintro ⟨last, inside, stored, most⟩
    refine ⟨last, by omega, stored, fun other within metadata' stored' => ?_⟩
    have before : other < bound :=
      not_le.mp fun above => absurd (gap stored' above) (not_le.mpr within)
    exact most other before metadata' stored'

theorem Replayed.gap {bound' : Nat} (replayed : Replayed view bound replay) (order : bound ≤ bound')
    (gap : ∀ {id sequence metadata}, Stored view id sequence metadata → bound ≤ sequence →
      bound' ≤ sequence) : Replayed view bound' replay := by
  refine ⟨fun found => ?_, fun latest => replayed.known ((latest_of_gap order gap).mp latest), ?_⟩
  · obtain ⟨latest, schemas, dropped⟩ := replayed.latest found
    refine ⟨(latest_of_gap order gap).mpr latest, schemas, fun drop => (dropped drop).trans ?_⟩
    constructor
    · rintro ⟨inside, found⟩
      exact ⟨by omega, found⟩
    · rintro ⟨inside, metadata, stored, dead⟩
      exact ⟨not_le.mp fun above => absurd (gap stored above) (not_le.mpr inside), metadata, stored,
        dead⟩
  · intro name id
    simp only [replayed.names, latest_of_gap order gap]

/-- After the version at a sequence, it is the last one of its table; the other
tables keep theirs. -/
theorem latest_succ (life : Lifecycle view frontier) {id id' : Nat}
    {metadata metadata' : CatalogueVersion} (stored : Stored view id sequence metadata) :
    Latest view id' (sequence + 1) metadata' ↔
      (id' = id ∧ metadata' = metadata) ∨ (id' ≠ id ∧ Latest view id' sequence metadata') := by
  constructor
  · rintro ⟨last, inside, found, most⟩
    by_cases same : id' = id
    · subst same
      obtain rfl : last = sequence :=
        le_antisymm (by omega) (most sequence (by omega) metadata stored)
      exact .inl ⟨rfl, found.unique stored⟩
    · have before : last ≠ sequence := by
        rintro rfl
        exact same (life.single found stored)
      exact .inr ⟨same, last, by omega, found, fun other within => most other (by omega)⟩
  · rintro (⟨rfl, rfl⟩ | ⟨different, last, inside, found, most⟩)
    · exact ⟨sequence, by omega, stored, fun other within _ _ => by omega⟩
    · refine ⟨last, by omega, found, fun other within metadata'' stored'' => ?_⟩
      have before : other ≠ sequence := by
        rintro rfl
        exact different (life.single stored'' stored)
      exact most other (by omega) metadata'' stored''

/-- No live table takes the name of a live version written at a sequence. -/
theorem unnamed_before (life : Lifecycle view frontier) {id id' : Nat}
    {metadata other : CatalogueVersion} (stored : Stored view id sequence metadata)
    (live : metadata.live = true) (different : id' ≠ id) (latest : Latest view id' sequence other)
    (otherLive : other.live = true) : other.name ≠ metadata.name := by
  intro same
  exact different (life.names ((latest_succ life stored).mpr (.inr ⟨different, latest⟩))
    ((latest_succ life stored).mpr (.inl ⟨rfl, rfl⟩)) otherLive live same)

/-- The names after a version: the name of the previous version is free and the
name of a live version is taken. -/
theorem names_succ (life : Lifecycle view frontier) {id : Nat} {metadata : CatalogueVersion}
    (stored : Stored view id sequence metadata) {names : OrdMap String Nat}
    (others : ∀ {name id'}, names.find? name = some id' ↔
      id' ≠ id ∧ ∃ other, Latest view id' sequence other ∧ other.live = true ∧ other.name = name) :
    (metadata.live = true → names.find? metadata.name = none) ∧
      ∀ {name id'}, (if metadata.live then names.insert metadata.name id else names).find? name =
          some id' ↔
        ∃ other, Latest view id' (sequence + 1) other ∧ other.live = true ∧ other.name = name := by
  have free : metadata.live = true → names.find? metadata.name = none := by
    intro live
    rw [Option.eq_none_iff_forall_ne_some]
    intro id' found
    obtain ⟨different, other, latest, otherLive, named⟩ := others.mp found
    exact unnamed_before life stored live different latest otherLive named
  refine ⟨free, fun {name id'} => ?_⟩
  simp only [latest_succ life stored]
  cases live : metadata.live with
  | false =>
      simp only [Bool.false_eq_true, if_false, others]
      constructor
      · rintro ⟨different, other, latest, rest⟩
        exact ⟨other, .inr ⟨different, latest⟩, rest⟩
      · rintro ⟨other, ⟨-, rfl⟩ | ⟨different, latest⟩, otherLive, named⟩
        · rw [live] at otherLive
          cases otherLive
        · exact ⟨different, other, latest, otherLive, named⟩
  | true =>
      simp only [if_true, OrdMap.find?_insert]
      by_cases same : metadata.name = name
      · subst same
        simp only [if_true, Option.some.injEq]
        constructor
        · rintro rfl
          exact ⟨metadata, .inl ⟨rfl, rfl⟩, live, rfl⟩
        · rintro ⟨other, ⟨rfl, -⟩ | ⟨different, latest⟩, otherLive, named⟩
          · rfl
          · exact absurd named (unnamed_before life stored live different latest otherLive)
      · simp only [same, if_false, others]
        constructor
        · rintro ⟨different, other, latest, rest⟩
          exact ⟨other, .inr ⟨different, latest⟩, rest⟩
        · rintro ⟨other, ⟨-, rfl⟩ | ⟨different, latest⟩, otherLive, named⟩
          · exact absurd named same
          · exact ⟨different, other, latest, otherLive, named⟩

/-- The recorded drop after a version. -/
theorem dropped_succ (life : Lifecycle view frontier) {id : Nat} {metadata : CatalogueVersion}
    (stored : Stored view id sequence metadata) {dropped : Option Nat}
    (before : ∀ drop, dropped = some drop ↔
      drop < sequence ∧ ∃ other, Stored view id drop other ∧ other.live = false) (drop : Nat) :
    (if metadata.live then dropped else some sequence) = some drop ↔
      drop < sequence + 1 ∧ ∃ other, Stored view id drop other ∧ other.live = false := by
  cases live : metadata.live with
  | true =>
      simp only [if_true, before]
      constructor
      · rintro ⟨inside, found⟩
        exact ⟨by omega, found⟩
      · rintro ⟨inside, other, found, dead⟩
        have different : drop ≠ sequence := by
          rintro rfl
          rw [found.unique stored, live] at dead
          cases dead
        exact ⟨by omega, other, found, dead⟩
  | false =>
      simp only [Bool.false_eq_true, if_false, Option.some.injEq]
      constructor
      · rintro rfl
        exact ⟨by omega, metadata, stored, live⟩
      · rintro ⟨inside, other, found, dead⟩
        have := life.ended found dead stored
        omega

/-- The replay of a version succeeds and its maps agree after it. -/
theorem replayEvent_eq (life : Lifecycle view frontier) (replayed : Replayed view sequence replay)
    {metadata : CatalogueVersion} (stored : Stored view metadata.table.id sequence metadata) :
    ∃ after, replayEvent sequence metadata replay = .ok after ∧
      Replayed view (sequence + 1) after := by
  obtain ⟨entry, -, -, -, created, -, decoded⟩ := life.keyed.stored stored
  have following {id : Nat} {other : CatalogueVersion} :=
    @latest_succ view frontier sequence life metadata.table.id id metadata other stored
  -- A table other than the replayed one keeps its history.
  have kept {table : TableHistory} {id : Nat} (different : id ≠ metadata.table.id)
      (found : replay.tables.find? id = some table) :
      Latest view id (sequence + 1) table.latest ∧
        TableSchemas table.latest.table table.key table.value ∧
        ∀ drop, table.dropped = some drop ↔
          drop < sequence + 1 ∧ ∃ other, Stored view id drop other ∧ other.live = false := by
    obtain ⟨latest, schemas, dropped⟩ := replayed.latest found
    refine ⟨following.mpr (.inr ⟨different, latest⟩), schemas, fun drop => (dropped drop).trans ?_⟩
    constructor
    · rintro ⟨inside, other⟩
      exact ⟨by omega, other⟩
    · rintro ⟨inside, other, found, dead⟩
      have before : drop ≠ sequence := by
        rintro rfl
        exact different (life.single found stored)
      exact ⟨by omega, other, found, dead⟩
  cases found : replay.tables.find? metadata.table.id with
  | some previous =>
      obtain ⟨latest, schemas, dropped⟩ := replayed.latest found
      have latest' := latest
      obtain ⟨last, inside, storedLast, -⟩ := latest'
      have live : previous.latest.live = true := by
        rw [← Bool.not_eq_false]
        intro dead
        exact absurd (life.ended storedLast dead stored) (not_le.mpr inside)
      have legal : illegalSuccessor previous.latest metadata = false := by
        simp only [illegalSuccessor, live, life.tables storedLast stored, Bool.not_true,
          Bool.false_or, ne_eq, not_true_eq_false, decide_false, Bool.and_eq_false_iff,
          Bool.not_eq_eq_eq_not, Bool.not_false, decide_eq_false_iff_not, not_not]
        cases alive : metadata.live with
        | true => exact .inl rfl
        | false => exact .inr (life.kept stored alive latest).symm
      obtain ⟨free, names⟩ := @names_succ view frontier sequence life metadata.table.id metadata
        stored (replay.names.erase previous.latest.name) (by
          intro name id
          rw [OrdMap.find?_erase]
          split_ifs with same
          · subst same
            simp only [false_iff, not_and, not_exists]
            intro different other latest' otherLive named
            exact different (life.names latest' latest otherLive live named)
          · rw [replayed.names]
            constructor
            · rintro ⟨other, latest', otherLive, named⟩
              refine ⟨?_, other, latest', otherLive, named⟩
              rintro rfl
              rw [latest'.unique latest] at named
              exact same named
            · rintro ⟨-, other⟩
              exact other)
      let drop := if metadata.live then previous.dropped else some sequence
      let tables := replay.tables.insert metadata.table.id
        { previous with latest := metadata, dropped := drop }
      refine ⟨⟨tables, if metadata.live then
          (replay.names.erase previous.latest.name).insert metadata.name metadata.table.id
        else replay.names.erase previous.latest.name⟩, ?_, ?_, ?_, ?_⟩
      · simp only [replayEvent, found, legal, Bool.false_eq_true, refuse_false, raise_ok, ok_bind,
          pure_eq_ok]
        cases alive : metadata.live with
        | true =>
            simp only [if_true, free alive, Option.isSome_none, Bool.false_eq_true, refuse_false,
              raise_ok, ok_bind, tables, drop, alive]
        | false => simp only [if_false, Bool.false_eq_true, tables, drop, alive]
      · intro id table foundTable
        rw [OrdMap.find?_insert] at foundTable
        split_ifs at foundTable with same
        · subst same
          cases foundTable
          refine ⟨following.mpr (.inl ⟨rfl, rfl⟩), ?_, fun number => ?_⟩
          · rw [← life.tables storedLast stored]
            exact schemas
          · exact dropped_succ life stored dropped number
        · exact kept (fun equal => same equal.symm) foundTable
      · intro id other latest'
        rw [OrdMap.find?_insert]
        split_ifs with same
        · exact ⟨_, rfl⟩
        · rcases following.mp latest' with ⟨rfl, -⟩ | ⟨different, before⟩
          · exact absurd rfl same
          · exact replayed.known before
      · exact names
  | none =>
      have first {other : CatalogueVersion} (latest : Latest view metadata.table.id sequence other) :
          False := by
        obtain ⟨table, known⟩ := replayed.known latest
        rw [found] at known
        cases known
      obtain ⟨creation, storedFirst, live⟩ := life.created stored
      have creates : sequence = metadata.table.id := by
        by_contra different
        obtain ⟨other, latest⟩ := storedFirst.exists_latest (show metadata.table.id < sequence by omega)
        exact first latest
      rw [← creates] at storedFirst
      have alive : metadata.live = true := by
        rw [← creates] at stored
        rw [stored.unique storedFirst]
        exact live
      obtain ⟨key, value, schemas⟩ := decodeCatalogue_schemas decoded
      obtain ⟨free, names⟩ := @names_succ view frontier sequence life metadata.table.id metadata
        stored replay.names (by
          intro name id
          rw [replayed.names]
          constructor
          · rintro ⟨other, latest, rest⟩
            refine ⟨?_, other, latest, rest⟩
            rintro rfl
            exact first latest
          · rintro ⟨-, other⟩
            exact other)
      have legal : ¬ (sequence ≠ metadata.table.id ∨ metadata.live = false) := by
        simp [alive, ← creates]
      refine ⟨⟨replay.tables.insert metadata.table.id ⟨metadata, key, value, none⟩,
        replay.names.insert metadata.name metadata.table.id⟩, ?_, ?_, ?_, ?_⟩
      · simp only [replayEvent, found, refuse_of_not _ legal, raise_ok, ok_bind,
          schemaOf_of_formed schemas.key.formed schemas.key.decoded,
          schemaOf_of_formed schemas.formed schemas.value, pure_eq_ok, free alive,
          Option.isSome_none, Bool.false_eq_true, refuse_false]
        rw [if_pos alive]
      · intro id table foundTable
        rw [OrdMap.find?_insert] at foundTable
        split_ifs at foundTable with same
        · subst same
          cases foundTable
          refine ⟨following.mpr (.inl ⟨rfl, rfl⟩), schemas, fun number => ?_⟩
          have undropped (drop : Nat) : none = some drop ↔ drop < sequence ∧
              ∃ other, Stored view metadata.table.id drop other ∧ other.live = false := by
            simp only [reduceCtorEq, false_iff, not_and, not_exists]
            intro inside other earlier
            obtain ⟨latest, found'⟩ := earlier.exists_latest inside
            exact (first found').elim
          have dropped := dropped_succ life stored undropped number
          rw [← dropped, alive]
          rfl
        · exact kept (fun equal => same equal.symm) foundTable
      · intro id other latest'
        rw [OrdMap.find?_insert]
        split_ifs with same
        · exact ⟨_, rfl⟩
        · rcases following.mp latest' with ⟨rfl, -⟩ | ⟨different, before⟩
          · exact absurd rfl same
          · exact replayed.known before
      · intro name id
        have taken := @names name id
        rwa [alive, if_pos rfl] at taken

/-- The replay of all versions from a bound succeeds. -/
theorem replayEvents_eq (life : Lifecycle view frontier)
    {events : List (Nat × CatalogueVersion)} (sorted : Increasing events)
    (replayed : Replayed view bound replay)
    (listed : ∀ sequence metadata, (sequence, metadata) ∈ events ↔
      bound ≤ sequence ∧ Stored view metadata.table.id sequence metadata) :
    ∃ after, replayEvents events replay = .ok after ∧ Replayed view (max bound (frontier + 1)) after := by
  induction events generalizing bound replay with
  | nil =>
      refine ⟨replay, rfl, replayed.gap (le_max_left _ _) ?_⟩
      intro id sequence metadata stored above
      obtain ⟨entry, -, holds⟩ := life.keyed.stored stored
      rw [← holds.tableId] at stored
      have := (listed sequence metadata).mpr ⟨above, stored⟩
      cases this
  | cons event events ih =>
      obtain ⟨sequence, metadata⟩ := event
      obtain ⟨later, tail⟩ := List.pairwise_cons.mp sorted
      obtain ⟨above, stored⟩ := (listed sequence metadata).mp List.mem_cons_self
      have gap : Replayed view sequence replay := by
        refine replayed.gap above ?_
        intro id other metadata' stored' inside
        obtain ⟨entry, -, holds⟩ := life.keyed.stored stored'
        rw [← holds.tableId] at stored'
        rcases List.mem_cons.mp ((listed other metadata').mpr ⟨inside, stored'⟩) with same | inTail
        · cases same
          exact le_rfl
        · exact (later _ inTail).le
      obtain ⟨middle, replays, between⟩ := replayEvent_eq life gap stored
      obtain ⟨after, returns, final⟩ := ih tail between (by
        intro other metadata'
        have whole := listed other metadata'
        rw [List.mem_cons] at whole
        constructor
        · intro inTail
          have order : sequence < other := later _ inTail
          exact ⟨order, (whole.mp (.inr inTail)).2⟩
        · rintro ⟨order, stored'⟩
          rcases whole.mpr ⟨by omega, stored'⟩ with same | inTail
          · cases same
            omega
          · exact inTail)
      refine ⟨after, by simp only [replayEvents, replays, ok_bind, returns], ?_⟩
      obtain ⟨entry, -, -, -, -, old, -⟩ := life.keyed.stored stored
      rw [max_eq_right (by omega)] at final ⊢
      exact final

/-- What the catalogue replay of a tree returns. -/
structure CatalogueReplay (view : View) (frontier : Nat) (versions : Versions)
    (tables : OrdMap Nat TableHistory) : Prop where
  /-- One version is counted at the sequence of each catalogue version. -/
  counted : ∀ {id sequence metadata}, Stored view id sequence metadata →
    versions.find? sequence = some (2, 1)
  /-- No other version is counted. -/
  uncounted : ∀ {sequence}, (∀ id metadata, ¬ Stored view id sequence metadata) →
    versions.find? sequence = none
  /-- The tables agree with the last versions. -/
  latest : ∀ {id table}, tables.find? id = some table →
    Latest view id (frontier + 1) table.latest ∧
      TableSchemas table.latest.table table.key table.value ∧
      ∀ drop, table.dropped = some drop ↔ drop < frontier + 1 ∧
        ∃ metadata, Stored view id drop metadata ∧ metadata.live = false
  /-- Every table is replayed. -/
  known : ∀ {id sequence metadata}, Stored view id sequence metadata →
    ∃ table, tables.find? id = some table

/-- The catalogue replay accepts the tree of every lifecycle. -/
theorem catalogueHistory_accepts {checkpoint : Nat} (life : Lifecycle view frontier)
    (covered : frontier ≤ checkpoint) :
    ∃ versions tables, catalogueHistory view checkpoint ∅ = .ok (versions, tables) ∧
      CatalogueReplay view frontier versions tables := by
  have bounded := life.keyed.bounded
  have apart : (view.roots .catalogue).entries.Pairwise fun left right =>
      ∀ id id' sequence version version', VersionEntry frontier left id sequence version →
        ¬ VersionEntry frontier right id' sequence version' := by
    have sorted : (view.roots .catalogue).entries.Pairwise fun left right => left.1 < right.1 :=
      (view.roots .catalogue).increasing
    refine (List.pairwise_iff_forall_sublist.mpr ?_ : List.Pairwise _ _)
    intro left right within id id' sequence version version' holds holds'
    have order := List.pairwise_iff_forall_sublist.mp sorted within
    have storedLeft := holds.stored bounded (within.subset List.mem_cons_self)
    have storedRight := holds'.stored bounded
      (within.subset (List.mem_cons_of_mem _ List.mem_cons_self))
    obtain rfl := life.single storedLeft storedRight
    rw [holds.1, holds'.1] at order
    exact lt_irrefl _ order
  have pending {sequence : Nat} : Pending frontier (view.roots .catalogue).entries sequence ↔
      ∃ id metadata, Stored view id sequence metadata := by
    constructor
    · rintro ⟨entry, member, id, metadata, holds⟩
      exact ⟨id, metadata, holds.stored bounded member⟩
    · rintro ⟨id, metadata, stored⟩
      obtain ⟨entry, member, holds⟩ := life.keyed.stored stored
      exact ⟨entry, member, id, metadata, holds⟩
  obtain ⟨versions, events, collected, new, old, listed⟩ := catalogueEvents_eq bounded covered
    life.keyed.entry apart ∅ ∅ (by simp)
  have members (sequence : Nat) (metadata : CatalogueVersion) : (sequence, metadata) ∈ events.entries ↔
      0 ≤ sequence ∧ Stored view metadata.table.id sequence metadata := by
    rw [← OrdMap.find?_eq_some]
    constructor
    · intro found
      by_cases written : Pending frontier (view.roots .catalogue).entries sequence
      · obtain ⟨entry, member, id, metadata', holds⟩ := written
        rw [listed entry member id sequence metadata' holds] at found
        cases found
        rw [holds.tableId]
        exact ⟨Nat.zero_le _, holds.stored bounded member⟩
      · rw [(old sequence written).2] at found
        cases found
    · rintro ⟨-, stored⟩
      obtain ⟨entry, member, holds⟩ := life.keyed.stored stored
      exact listed entry member _ sequence metadata holds
  have start : Replayed view 0 ⟨∅, ∅⟩ := by
    refine ⟨nofun, fun latest => ?_, ⟨nofun, ?_⟩⟩
    · obtain ⟨last, inside, -⟩ := latest
      omega
    · rintro ⟨metadata, ⟨last, inside, -⟩, -⟩
      omega
  obtain ⟨replay, returns, replayed⟩ := replayEvents_eq life events.increasing start members
  rw [max_eq_right (Nat.zero_le _)] at replayed
  refine ⟨versions, replay.tables, ?_, ?_, ?_, replayed.latest, ?_⟩
  · simp only [catalogueHistory, view.scan_unbounded, raise_ok, ok_bind, collected, returns, pure_eq_ok]
  · intro id sequence metadata stored
    exact new sequence (pending.mpr ⟨id, metadata, stored⟩)
  · intro sequence unwritten
    rw [(old sequence fun written => ?_).1]
    · rfl
    · obtain ⟨id, metadata, stored⟩ := pending.mp written
      exact unwritten id metadata stored
  · intro id sequence metadata stored
    obtain ⟨entry, -, -, -, -, before, -⟩ := life.keyed.stored stored
    obtain ⟨last, latest⟩ := stored.exists_latest (Nat.lt_succ_of_le before)
    exact replayed.known latest

end Replay

end BlopDb.Vm.History
