/-
# The catalogue over whole histories

Every record of a history keeps the lifecycle invariant: a catalogue operation
writes a version only where the invariant allows one, and the other records do
not touch the catalogue.  So at every sequence of every history the catalogue
answers from the last versions, and the validator's replay accepts it.
-/

import BlopDb.Vm.Records
import BlopDb.Vm.Replay

namespace BlopDb.Vm.Database

open BlopDb.Lib
open Storage (View LimitPolicy maxU64)

section Operations

variable {view : View} {frontier : Nat} {outcome : Outcome}

theorem catalogueSuccess_eq_ok {version : CatalogueVersion} {ty : Ty} {value : Value}
    (returned : catalogueSuccess version ty value = .ok outcome) :
    ∃ bytes, encodeCatalogue version = .ok bytes ∧
      finalEffects outcome = [.catalogue version.table.id bytes] := by
  obtain ⟨bytes, encoded, same⟩ := bind_eq_ok.mp returned
  cases same
  exact ⟨bytes, encoded, rfl⟩

/-- A version that the bounded seek returns. -/
theorem latest_of_catalogueVersion (keyed : Keyed view frontier) {id sequence : Nat}
    (snapshot : sequence < maxU64) {version : CatalogueVersion}
    (found : catalogueVersion view id sequence = .ok (some version)) :
    Latest view id (sequence + 1) version ∧ version.table.id = id := by
  have valid : id ≠ 0 ∧ id < maxU64 := by
    obtain ⟨⟨⟩, -, read⟩ := bind_eq_ok.mp found
    obtain ⟨⟨⟩, -, read⟩ := bind_eq_ok.mp read
    obtain ⟨entries, -, read⟩ := bind_eq_ok.mp read
    cases entries with
    | nil => cases read
    | cons entry entries =>
        obtain ⟨⟨foundId, foundSequence⟩, key, read⟩ := bind_eq_ok.mp read
        obtain ⟨⟨⟩, expected, -⟩ := bind_eq_ok.mp read
        rw [refuse_eq_ok, not_or, not_not] at expected
        obtain ⟨-, positive, order, bounded⟩ := decodeCatalogueKey_eq_ok.mp key
        obtain ⟨rfl, -⟩ := expected
        exact ⟨positive, lt_of_le_of_lt order bounded⟩
  obtain ⟨result, returned, means⟩ := catalogueVersion_latest keyed valid.1 valid.2 snapshot
  rw [found] at returned
  cases returned
  have latest := (means version).mp rfl
  have parts := latest
  obtain ⟨last, -, stored, -⟩ := parts
  obtain ⟨entry, -, holds⟩ := keyed.stored stored
  exact ⟨latest, holds.tableId⟩

theorem latest_of_liveVersion (keyed : Keyed view frontier) {id sequence : Nat}
    (snapshot : sequence < maxU64) {version : CatalogueVersion}
    (found : liveVersion view id sequence = .ok (some version)) :
    Latest view id (sequence + 1) version ∧ version.table.id = id ∧ version.live = true := by
  obtain ⟨result, read, same⟩ := bind_eq_ok.mp found
  have same : result.filter CatalogueVersion.live = some version := Except.ok.inj same
  obtain ⟨rfl, live⟩ := Option.filter_eq_some_iff.mp same
  obtain ⟨latest, named⟩ := latest_of_catalogueVersion keyed snapshot read
  exact ⟨latest, named, live⟩

/-- A name that is not in use is the name of no other live table. -/
theorem unnamed_of_nameInUse (keyed : Keyed view frontier) {sequence : Nat} {name : String}
    {except : Option Nat} (free : nameInUse view sequence name except = .ok false) {id : Nat}
    {version : CatalogueVersion} (latest : Latest view id (sequence + 1) version)
    (live : version.live = true) (other : except ≠ some id) : version.name ≠ name := by
  obtain ⟨found, returned, means⟩ := @nameInUse_latest view frontier sequence keyed name except
  rw [free] at returned
  cases returned
  intro named
  exact Bool.false_ne_true (means.mpr ⟨id, version, latest, live, named, other⟩)

/-- What a catalogue operation may write. -/
structure Writes (view : View) (sequence : Nat) (operation : CatalogueOperation)
    (version : CatalogueVersion) : Prop where
  /-- It creates the table, or changes a live version. -/
  follows : (version.table.id = sequence ∧ version.live = true ∧ ∃ name key value,
      operation = .create name key value ∧ version = ⟨true, name, ⟨sequence, key, value⟩⟩) ∨
    ∃ previous, Latest view version.table.id sequence previous ∧ previous.live = true ∧
      version.table = previous.table ∧ (version.live = false → version.name = previous.name)
  /-- No other live table has its name. -/
  unnamed : version.live = true → ∀ {id' other}, id' ≠ version.table.id →
    Latest view id' sequence other → other.live = true → other.name ≠ version.name

/-- A catalogue record aborts without effects or writes one version. -/
theorem catalogue_writes (keyed : Keyed view frontier) {operation : CatalogueOperation}
    (computed : catalogue view (frontier + 1) operation = .ok outcome) :
    finalEffects outcome = [] ∨ ∃ version bytes, encodeCatalogue version = .ok bytes ∧
      finalEffects outcome = [.catalogue version.table.id bytes] ∧
      Writes view (frontier + 1) operation version := by
  have snapshot := keyed.bounded
  obtain ⟨⟨⟩, -, computed⟩ := bind_eq_ok.mp computed
  obtain ⟨⟨⟩, -, computed⟩ := bind_eq_ok.mp computed
  cases operation with
  | create name key value =>
      obtain ⟨taken, used, computed⟩ := bind_eq_ok.mp computed
      rw [raise_eq_ok, Nat.add_sub_cancel] at used
      cases taken with
      | true =>
          cases computed
          exact .inl rfl
      | false =>
          obtain ⟨bytes, encoded, effects⟩ := catalogueSuccess_eq_ok computed
          refine .inr ⟨_, bytes, encoded, effects, .inl ⟨rfl, rfl, name, key, value, rfl, rfl⟩, ?_⟩
          intro _ id other _ latest live
          exact unnamed_of_nameInUse keyed used latest live nofun
  | rename table name =>
      obtain ⟨found, read, computed⟩ := bind_eq_ok.mp computed
      rw [raise_eq_ok, Nat.add_sub_cancel] at read
      cases found with
      | none =>
          cases computed
          exact .inl rfl
      | some previous =>
          obtain ⟨latest, named, live⟩ := latest_of_liveVersion keyed snapshot read
          obtain ⟨taken, used, computed⟩ := bind_eq_ok.mp computed
          rw [raise_eq_ok, Nat.add_sub_cancel] at used
          cases taken with
          | true =>
              cases computed
              exact .inl rfl
          | false =>
              obtain ⟨bytes, encoded, effects⟩ := catalogueSuccess_eq_ok computed
              refine .inr ⟨_, bytes, encoded, effects, .inr ⟨previous, ?_, live, rfl, ?_⟩, ?_⟩
              · rw [named]
                exact latest
              · intro dead
                rw [live] at dead
                cases dead
              · intro _ id other different found otherLive
                refine unnamed_of_nameInUse keyed used found otherLive fun same => different ?_
                rw [named, Option.some.inj same]
  | drop table =>
      obtain ⟨found, read, computed⟩ := bind_eq_ok.mp computed
      rw [raise_eq_ok, Nat.add_sub_cancel] at read
      cases found with
      | none =>
          cases computed
          exact .inl rfl
      | some previous =>
          obtain ⟨latest, named, live⟩ := latest_of_liveVersion keyed snapshot read
          obtain ⟨bytes, encoded, effects⟩ := catalogueSuccess_eq_ok computed
          refine .inr ⟨_, bytes, encoded, effects, .inr ⟨previous, ?_, live, rfl, fun _ => rfl⟩, ?_⟩
          · rw [named]
            exact latest
          · intro alive
            cases alive

end Operations

/-! ## The step of a catalogue record -/

section Step

variable {view after : View} {frontier : Nat} {outcome : Outcome} {digest bytes : Bytes}

/-- Installing a version extends the catalogue with it. -/
theorem extends_of_installs (keyed : Keyed view frontier)
    (small : frontier + 1 < maxU64) {id : Nat} {value : Bytes}
    (installs : Installs view (frontier + 1) digest 2 outcome after bytes)
    (effects : finalEffects outcome = [.catalogue id value]) :
    ∃ version, decodeCatalogue id value = .ok version ∧ Keyed after (frontier + 1) ∧
      Extends view after id (frontier + 1) version := by
  have valid := installs.valid (show Effect.catalogue id value ∈ finalEffects outcome by simp [effects])
  obtain ⟨version, decoded, allowed⟩ := bind_eq_ok.mp valid
  rw [refuse_eq_ok, not_or, not_lt] at allowed
  have positive : id ≠ 0 := by
    obtain ⟨⟨⟩, checked, -⟩ := bind_eq_ok.mp decoded
    exact (validId_eq_ok.mp checked).1
  have entries (entry : Storage.Entry) : entry ∈ (after.roots .catalogue).entries ↔
      entry = (catalogueKey id (frontier + 1), value) ∨ entry ∈ (view.roots .catalogue).entries := by
    rw [installs.entries]
    simp only [effects, List.mem_singleton, exists_eq_left, forall_eq, effectEntry, reduceCtorEq,
      false_and, false_or, Except.ok.injEq, Prod.mk.injEq, true_and]
    refine or_congr eq_comm ⟨And.left, fun old => ⟨old, fun other same => ?_⟩⟩
    obtain ⟨id', sequence', version', holds⟩ := keyed.entry entry old
    have parts := holds
    obtain ⟨key, -, order, below, -⟩ := parts
    rw [key, Except.ok.injEq, Prod.mk.injEq, Prod.mk.injEq] at same
    have bounded := keyed.bounded
    obtain ⟨-, rfl⟩ := catalogueKey_inj (by omega) (by omega) small.le (by omega) same.2.1
    omega
  refine ⟨version, decoded, ⟨small, fun entry member => ?_⟩, ?_⟩
  · rcases (entries entry).mp member with rfl | old
    · exact ⟨id, frontier + 1, version, rfl, positive, allowed.1, le_rfl, decoded⟩
    · obtain ⟨id', sequence', version', key, positive', order, below, decoded'⟩ := keyed.entry entry old
      exact ⟨id', sequence', version', key, positive', order, by omega, decoded'⟩
  · intro id' sequence' version'
    unfold Stored
    simp only [entries, Prod.mk.injEq]
    constructor
    · rintro ⟨hid, hs, found, ⟨same, rfl⟩ | old, decoded'⟩
      · obtain ⟨rfl, rfl⟩ := catalogueKey_inj hid (by omega) hs small.le same
        exact .inl ⟨rfl, rfl, Except.ok.inj (decoded'.symm.trans decoded)⟩
      · exact .inr ⟨hid, hs, found, old, decoded'⟩
    · rintro (⟨rfl, rfl, rfl⟩ | ⟨hid, hs, found, old, decoded'⟩)
      · exact ⟨by omega, by omega, value, .inl ⟨rfl, rfl⟩, decoded⟩
      · exact ⟨hid, hs, found, .inr old, decoded'⟩

/-- The version that a write stores succeeds the catalogue before it. -/
theorem Writes.succeeds {sequence : Nat} {operation : CatalogueOperation}
    {version stored : CatalogueVersion} {value : Bytes}
    (writes : Writes view sequence operation version) (encoded : encodeCatalogue version = .ok value)
    (decoded : decodeCatalogue version.table.id value = .ok stored) :
    Succeeds view version.table.id sequence stored := by
  obtain ⟨live, name, -, key, values⟩ := decodeCatalogue_encodeCatalogue encoded decoded
  refine ⟨?_, ?_⟩
  · rcases writes.follows with ⟨created, alive, -⟩ | ⟨previous, latest, alive, table, kept⟩
    · exact .inl ⟨created, live.trans alive⟩
    · refine .inr ⟨previous, latest, alive, ?_, ?_⟩
      · have found := latest
        obtain ⟨last, -, ⟨-, -, bytes, -, read⟩, -⟩ := found
        rw [table] at key values
        exact table_eq_of_descriptors decoded read key values
      · rw [live, name]
        exact kept
  · rw [live, name]
    exact writes.unnamed

end Step

end BlopDb.Vm.Database

namespace BlopDb.Vm

open BlopDb.Lib
open Storage (View LimitPolicy maxU64)
open Database (Lifecycle Stored Latest Keyed)

/-- The record at a table's identity creates it with the types of a version. -/
def CreatedBy (commands : List Command) (id : Nat) (version : CatalogueVersion) : Prop :=
  ∃ name key value, commands[id - 1]? = some (.catalogue (.create name key value)) ∧
    key.descriptor = version.table.key.descriptor ∧
    value.descriptor = version.table.value.descriptor

theorem CreatedBy.append {commands : List Command} {id : Nat} {version : CatalogueVersion}
    (created : CreatedBy commands id version) (more : List Command) :
    CreatedBy (commands ++ more) id version := by
  obtain ⟨name, key, value, found, types⟩ := created
  have inside := (List.getElem?_eq_some_iff.mp found).1
  exact ⟨name, key, value, (List.getElem?_append_left inside).trans found, types⟩

section Histories

theorem lifecycle_genesis {initialPolicy : LimitPolicy} : Lifecycle (genesisView initialPolicy) 0 := by
  have none {id sequence version} : ¬ Stored (genesisView initialPolicy) id sequence version := by
    rintro ⟨-, -, bytes, member, -⟩
    cases member
  refine ⟨⟨by decide, nofun⟩, fun stored => absurd stored none, fun stored => absurd stored none,
    fun stored => absurd stored none, fun stored => absurd stored none,
    fun stored => absurd stored none, ?_⟩
  rintro _ _ _ _ _ ⟨_, -, stored, -⟩
  exact absurd stored none

variable [Sha256] {initialPolicy : LimitPolicy} {commands : List Command} {floor : Nat}
variable {last : Bytes} {view after : View}

/-- A record leaves the catalogue as it was or extends it with the version that
its operation writes. -/
theorem catalogue_step {frontier : Nat} {command : Command} {outcome : Outcome}
    {digest bytes : Bytes} (keyed : Keyed view frontier) (small : frontier + 1 < maxU64)
    (computed : command.outcome view (frontier + 1) = some (.ok outcome))
    (installs : Database.Installs view (frontier + 1) digest command.kind outcome after bytes) :
    after.roots .catalogue = view.roots .catalogue ∨
      ∃ operation version value stored, command = .catalogue operation ∧
        Database.Writes view (frontier + 1) operation version ∧
        Database.encodeCatalogue version = .ok value ∧
        Database.decodeCatalogue version.table.id value = .ok stored ∧
        Keyed after (frontier + 1) ∧
        Database.Extends view after version.table.id (frontier + 1) stored := by
  cases command with
  | transaction transaction claims manifest => exact .inl (installs.roots_of_kind nofun nofun)
  | limits policy => exact .inl (installs.roots_of_kind nofun nofun)
  | catalogue operation =>
      have computed := Option.some.inj computed
      rcases Database.catalogue_writes keyed computed with
        none | ⟨version, value, encoded, effects, writes⟩
      · refine .inl (installs.roots_eq nofun ?_)
        rw [none]
        nofun
      · obtain ⟨stored, decoded, keyedAfter, extended⟩ :=
          Database.extends_of_installs keyed small installs effects
        exact .inr ⟨operation, version, value, stored, rfl, writes, encoded, decoded, keyedAfter,
          extended⟩

/-- A record keeps the lifecycle invariant. -/
theorem lifecycle_record {frontier : Nat} {command : Command} {outcome : Outcome}
    {digest bytes : Bytes} (life : Lifecycle view frontier) (small : frontier + 1 < maxU64)
    (computed : command.outcome view (frontier + 1) = some (.ok outcome))
    (installs : Database.Installs view (frontier + 1) digest command.kind outcome after bytes) :
    Lifecycle after (frontier + 1) := by
  rcases catalogue_step life.keyed small computed installs with
    same | ⟨operation, version, value, stored, -, writes, encoded, decoded, keyed, extended⟩
  · exact life.mono same (Nat.le_succ _) small
  · exact life.extend keyed extended (writes.succeeds encoded decoded)

/-- Every history keeps the lifecycle invariant. -/
theorem Reached.lifecycle (reached : Reached initialPolicy commands floor last view) :
    Lifecycle view commands.length := by
  induction reached with
  | genesis digest => exact lifecycle_genesis
  | record before computed width installed ih =>
      have small := (Reached.record before computed width installed).length_lt
      rw [List.length_append, List.length_singleton] at small ⊢
      obtain ⟨bytes, installs⟩ := Database.install_installs small installed
      exact lifecycle_record ih small computed installs
  | collect before covered collected ih =>
      exact ih.mono (collectView_others collected (by decide) (by decide)) le_rfl ih.keyed.bounded

/-- Every version of every history goes back to the creating record. -/
theorem Reached.createdBy (reached : Reached initialPolicy commands floor last view)
    {id sequence : Nat} {version : CatalogueVersion} (stored : Stored view id sequence version) :
    CreatedBy commands id version := by
  induction reached generalizing id sequence version with
  | genesis digest =>
      obtain ⟨-, -, bytes, member, -⟩ := stored
      cases member
  | @record commands floor last digest view after command outcome checkpoint before computed width
      installed ih =>
      have small := (Reached.record before computed width installed).length_lt
      rw [List.length_append, List.length_singleton] at small
      obtain ⟨bytes, installs⟩ := Database.install_installs small installed
      rcases catalogue_step before.lifecycle.keyed small computed installs with
        same | ⟨operation, written, value, new, rfl, writes, encoded, decoded, -, extended⟩
      · have old : Stored view id sequence version := by
          simpa only [Stored, same] using stored
        exact (ih old).append _
      · rcases extended.mp stored with ⟨rfl, rfl, rfl⟩ | old
        · obtain ⟨-, -, -, keys, values⟩ :=
            Database.decodeCatalogue_encodeCatalogue encoded decoded
          rcases writes.follows with ⟨-, -, name, key, type, rfl, rfl⟩ |
            ⟨previous, ⟨last, -, found, -⟩, -, table, -⟩
          · refine ⟨name, key, type, ?_, keys.symm, values.symm⟩
            rw [Nat.add_sub_cancel, List.getElem?_concat_length]
          · obtain ⟨name, key, type, creation, keyType, valueType⟩ := ih found
            rw [← table] at keyType valueType
            exact CreatedBy.append ⟨name, key, type, creation, keyType.trans keys.symm,
              valueType.trans values.symm⟩ _
        · exact (ih old).append _
  | @collect commands floor floor' frontier last view after removed before covered collected ih =>
      have same : after.roots .catalogue = view.roots .catalogue :=
        collectView_others collected (by decide) (by decide)
      have old : Stored view id sequence version := by
        simpa only [Stored, same] using stored
      exact ih old

/-- What the catalogue of a history is, at every sequence. -/
structure CatalogueHistory (commands : List Command) (view : View) : Prop where
  /-- The tree holds versions only. -/
  entries : ∀ entry ∈ (view.roots .catalogue).entries, ∃ id sequence version,
    entry.1 = Database.catalogueKey id sequence ∧ Stored view id sequence version
  /-- A table's identity is the sequence of its creating record. -/
  identity : ∀ {id sequence version}, Stored view id sequence version →
    version.table.id = id ∧ id ≤ sequence ∧ sequence ≤ commands.length ∧
      CreatedBy commands id version ∧ ∃ first, Stored view id id first ∧ first.live = true
  /-- All versions of a table have the same types. -/
  schemas : ∀ {id sequence sequence' version version'}, Stored view id sequence version →
    Stored view id sequence' version' → version.table = version'.table
  /-- No version follows the drop. -/
  ended : ∀ {id sequence sequence' version version'}, Stored view id sequence version →
    version.live = false → Stored view id sequence' version' → sequence' ≤ sequence
  /-- Tables that are live at a sequence have different names. -/
  names : ∀ {sequence id id' version version'}, Latest view id (sequence + 1) version →
    Latest view id' (sequence + 1) version' → version.live = true → version'.live = true →
    version.name = version'.name → id = id'
  /-- The bounded seek answers from the last version at or before a sequence. -/
  lookup : ∀ {id sequence}, id ≠ 0 → id < maxU64 → sequence < maxU64 →
    ∃ result, Database.catalogueVersion view id sequence = .ok result ∧
      ∀ version, result = some version ↔ Latest view id (sequence + 1) version
  /-- The name scan answers from the last versions at or before a sequence. -/
  used : ∀ (sequence : Nat) (name : String) (except : Option Nat),
    ∃ found, Database.nameInUse view sequence name except = .ok found ∧
      (found = true ↔ ∃ id version, Latest view id (sequence + 1) version ∧
        version.live = true ∧ version.name = name ∧ except ≠ some id)
  /-- The replay of the validator accepts the tree. -/
  accepted : ∃ result, History.catalogueHistory view commands.length ∅ = .ok result

/-- The catalogue of every history, at every sequence of it: identities, types,
ends of tables and names of live tables are as they should be, both lookups
answer from the last version at or before their sequence whatever is installed
later, and the replay accepts the tree. -/
theorem reached_catalogueHistory (reached : Reached initialPolicy commands floor last view) :
    CatalogueHistory commands view := by
  have life := reached.lifecycle
  have bounded := life.keyed.bounded
  refine ⟨?_, ?_, life.tables, life.ended, life.names, ?_, ?_, ?_⟩
  · intro entry member
    obtain ⟨id, sequence, version, holds⟩ := life.keyed.entry entry member
    exact ⟨id, sequence, version, holds.1, holds.stored bounded member⟩
  · intro id sequence version stored
    obtain ⟨entry, member, holds⟩ := life.keyed.stored stored
    exact ⟨holds.tableId, holds.2.2.1, holds.2.2.2.1, reached.createdBy stored, life.created stored⟩
  · intro id sequence positive small snapshot
    exact Database.catalogueVersion_latest life.keyed positive small snapshot
  · intro sequence name except
    exact Database.nameInUse_latest life.keyed name except
  · obtain ⟨versions, tables, returned, -⟩ := History.catalogueHistory_accepts life le_rfl
    exact ⟨(versions, tables), returned⟩

end Histories

namespace Sample

/-- The creation of a table of byte strings under Boolean keys. -/
def creation : Command := .catalogue (.create "a" .boolean (.bytes 4))

/-- The drop of the first table. -/
def removal : Command := .catalogue (.drop 1)

/-- The digest of the sample records. -/
def recordDigest : Bytes := List.replicate 32 9

/-- The trees after one record and the outcome it computes. -/
def install (view : View) (sequence : Nat) (command : Command) : View :=
  match command.outcome view sequence with
  | some (.ok outcome) =>
      match Database.install false 0 view sequence recordDigest command.kind outcome with
      | .ok after => after
      | .error _ => view
  | _ => view

/-- The trees after a creation, a drop and another creation under the same name. -/
def recreated : View :=
  install (install (install (genesisView claims) 1 creation) 2 removal) 3 creation

theorem reached_install {commands : List Command} {floor : Nat} {last : Bytes} {view : View}
    {command : Command} (before : Reached claims commands floor last view)
    (works : (match command.outcome view (commands.length + 1) with
      | some (.ok outcome) => (Database.install false 0 view (commands.length + 1) recordDigest
          command.kind outcome).toOption.isSome
      | _ => false) = true) :
    Reached claims (commands ++ [command]) floor recordDigest
      (install view (commands.length + 1) command) := by
  unfold install
  cases computed : command.outcome view (commands.length + 1) with
  | none => simp [computed] at works
  | some result =>
      cases result with
      | error error => simp [computed] at works
      | ok outcome =>
          cases installed : Database.install false 0 view (commands.length + 1) recordDigest command.kind
              outcome with
          | error error => simp [computed, installed, Except.toOption] at works
          | ok after =>
              simp only [installed]
              exact .record before computed rfl installed

/-- The catalogue of a history that reuses the name of a dropped table. -/
theorem recreated_catalogueHistory :
    CatalogueHistory [creation, removal, creation] recreated := by
  refine @reached_catalogueHistory _ claims _ 0 recordDigest _ ?_
  have first : Reached claims [creation] 0 recordDigest (install (genesisView claims) 1 creation) :=
    reached_install (.genesis []) (by decide +kernel)
  have second : Reached claims [creation, removal] 0 recordDigest
      (install (install (genesisView claims) 1 creation) 2 removal) :=
    reached_install first (by decide +kernel)
  exact reached_install second (by decide +kernel)

end Sample

end BlopDb.Vm
