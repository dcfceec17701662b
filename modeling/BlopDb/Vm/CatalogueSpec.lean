/-
# The versions a catalogue tree holds

A well-keyed catalogue tree is a set of versions, each of one table at one
sequence.  The bounded seek and the selecting scan both answer from the last
version of a table before a bound, whatever later versions the tree holds.
-/

import BlopDb.Storage.MvccOrder
import BlopDb.Vm.Install
import BlopDb.Vm.VerifierSound

namespace BlopDb.Vm.Database

open BlopDb.Lib
open Storage (View maxU64)
open Storage.Mvcc (complement complement_le complement_complement complement_lt_iff lt_width
  append_lt_append beBytes_lt_iff beBytes_eq_iff)

/-! ## Catalogue keys -/

section Keys

variable {id id' sequence sequence' : Nat}

/-- Keys are ordered by table, newest version first. -/
theorem catalogueKey_lt_iff (hid : id ≤ maxU64) (hid' : id' ≤ maxU64) (hs : sequence ≤ maxU64)
    (hs' : sequence' ≤ maxU64) :
    catalogueKey id sequence < catalogueKey id' sequence' ↔
      id < id' ∨ id = id' ∧ sequence' < sequence := by
  rw [catalogueKey, catalogueKey, append_lt_append (by simp),
    beBytes_lt_iff (lt_width hid) (lt_width hid'), beBytes_eq_iff (lt_width hid) (lt_width hid'),
    beBytes_lt_iff (lt_width (complement_le _)) (lt_width (complement_le _)),
    complement_lt_iff hs hs']

theorem catalogueKey_inj (hid : id ≤ maxU64) (hid' : id' ≤ maxU64) (hs : sequence ≤ maxU64)
    (hs' : sequence' ≤ maxU64) (same : catalogueKey id sequence = catalogueKey id' sequence') :
    id = id' ∧ sequence = sequence' := by
  obtain ⟨tables, versions⟩ := List.append_inj same (by simp)
  refine ⟨beBytes_inj (lt_width hid) (lt_width hid') tables, ?_⟩
  have complements := beBytes_inj (lt_width (complement_le _)) (lt_width (complement_le _)) versions
  rw [← complement_complement hs, complements, complement_complement hs']

/-- A table's keys lie below the next table's prefix. -/
theorem catalogueKey_lt_next (hid : id < maxU64) (hid' : id' ≤ maxU64) (sequence : Nat) :
    catalogueKey id' sequence < beBytes 8 (id + 1) ↔ id' ≤ id := by
  have lower : ¬ beBytes 8 (complement sequence) < ([] : Bytes) := List.not_lt_nil _
  rw [← List.append_nil (beBytes 8 (id + 1)), catalogueKey, append_lt_append (by simp),
    beBytes_lt_iff (lt_width hid') (lt_width hid)]
  simp only [lower, and_false, or_false]
  omega

theorem validId_eq_ok {id : Nat} {done : Unit} :
    validId id = .ok done ↔ id ≠ 0 ∧ id ≠ maxU64 := by
  rw [validId, refuse_eq_ok, not_or]

/-- A decoded key is the key of its table and sequence. -/
theorem decodeCatalogueKey_eq_ok {key : Bytes} :
    decodeCatalogueKey key = .ok (id, sequence) ↔
      key = catalogueKey id sequence ∧ id ≠ 0 ∧ id ≤ sequence ∧ sequence < maxU64 := by
  constructor
  · intro decoded
    obtain ⟨⟨⟩, width, decoded⟩ := bind_eq_ok.mp decoded
    obtain ⟨⟨⟩, table, decoded⟩ := bind_eq_ok.mp decoded
    obtain ⟨⟨⟩, version, decoded⟩ := bind_eq_ok.mp decoded
    obtain ⟨⟨⟩, order, same⟩ := bind_eq_ok.mp decoded
    rw [refuse_eq_ok, not_not] at width
    rw [mapError_eq_ok, validId_eq_ok] at table version
    rw [refuse_eq_ok, not_lt] at order
    cases same
    have front : beBytes 8 (beNat (key.take 8)) = key.take 8 := by
      have := beBytes_beNat (key.take 8)
      rwa [List.length_take, width] at this
    have back : beBytes 8 (beNat (key.drop 8)) = key.drop 8 := by
      have := beBytes_beNat (key.drop 8)
      rwa [List.length_drop, width] at this
    have small : beNat (key.drop 8) ≤ maxU64 := by
      have := beNat_lt (key.drop 8)
      rw [List.length_drop, width] at this
      unfold maxU64
      omega
    refine ⟨?_, table.1, order, lt_of_le_of_ne (complement_le _) version.2⟩
    rw [catalogueKey, complement_complement small, front, back, List.take_append_drop]
  · rintro ⟨rfl, positive, order, bounded⟩
    have table : beNat ((catalogueKey id sequence).take 8) = id := by
      rw [catalogueKey, List.take_left' (by simp), beNat_beBytes 8 id (lt_width (by omega))]
    have version : complement (beNat ((catalogueKey id sequence).drop 8)) = sequence := by
      rw [catalogueKey, List.drop_left' (by simp),
        beNat_beBytes 8 _ (lt_width (complement_le _)), complement_complement bounded.le]
    have width : (catalogueKey id sequence).length = 16 := by simp [catalogueKey]
    have tableValid : (validId id).mapError persisted = .ok () :=
      mapError_eq_ok.mpr (validId_eq_ok.mpr ⟨positive, by omega⟩)
    have versionValid : (validId sequence).mapError persisted = .ok () :=
      mapError_eq_ok.mpr (validId_eq_ok.mpr ⟨by omega, bounded.ne⟩)
    simp only [decodeCatalogueKey, table, version, refuse_of_not _ (not_not.mpr width), ok_bind,
      tableValid, versionValid, refuse_of_not _ (not_lt.mpr order), pure_eq_ok]

end Keys

/-! ## Catalogue values -/

/-- The bytes of a catalogue value, from the bytes of its parts. -/
def catalogueBytes (live : Bool) (name key value : Bytes) : Bytes :=
  [1, 0, liveByte live, 0] ++ (leBytes 4 name.length ++ name) ++ (leBytes 4 key.length ++ key) ++
    (leBytes 4 value.length ++ value)

theorem blob_eq_ok {bytes encoded : Bytes} :
    blob bytes = .ok encoded ↔
      bytes.length < 2 ^ 32 ∧ encoded = leBytes 4 bytes.length ++ bytes := by
  simp only [blob, bind_eq_ok, refuse_eq_ok, pure_eq_ok, Except.ok.injEq, exists_const, not_le,
    ge_iff_le]
  exact and_congr_right fun _ => eq_comm

/-- A length-prefixed byte string that was read. -/
theorem readBlob_eq_ok {input bytes rest : Bytes} (read : readBlob input = .ok (bytes, rest)) :
    bytes.length < 2 ^ 32 ∧ input = (leBytes 4 bytes.length ++ bytes) ++ rest := by
  obtain ⟨⟨length, body⟩, front, content⟩ := bind_eq_ok.mp read
  obtain ⟨rfl, width⟩ := takeBytes_eq_ok.mp front
  obtain ⟨rfl, exact'⟩ := takeBytes_eq_ok.mp content
  have bound := leNat_lt length
  have canonical := leBytes_leNat length
  rw [width] at bound canonical
  rw [exact']
  exact ⟨by omega, by rw [canonical, List.append_assoc]⟩

theorem schemaDescriptor_eq_ok {ty : Ty} {key : Bool} {bytes : Bytes}
    (described : schemaDescriptor ty key = .ok bytes) : bytes = ty.descriptor := by
  obtain ⟨size, -, described⟩ := bind_eq_ok.mp described
  obtain ⟨descriptor, written, described⟩ := bind_eq_ok.mp described
  obtain ⟨schema, -, same⟩ := bind_eq_ok.mp described
  cases same
  unfold Ty.descriptorOrPanic at written
  split_ifs at written
  exact (Except.ok.inj written).symm

theorem encodeCatalogue_eq_ok {version : CatalogueVersion} {bytes : Bytes}
    (encoded : encodeCatalogue version = .ok bytes) :
    bytes = catalogueBytes version.live (textBytes version.name) version.table.key.descriptor
        version.table.value.descriptor ∧
      (textBytes version.name).length < 2 ^ 32 ∧ version.table.key.descriptor.length < 2 ^ 32 ∧
      version.table.value.descriptor.length < 2 ^ 32 := by
  obtain ⟨⟨⟩, -, encoded⟩ := bind_eq_ok.mp encoded
  obtain ⟨⟨⟩, -, encoded⟩ := bind_eq_ok.mp encoded
  obtain ⟨key, keyed, encoded⟩ := bind_eq_ok.mp encoded
  obtain ⟨value, valued, encoded⟩ := bind_eq_ok.mp encoded
  obtain ⟨name, named, encoded⟩ := bind_eq_ok.mp encoded
  obtain ⟨keyBlob, keyWritten, encoded⟩ := bind_eq_ok.mp encoded
  obtain ⟨valueBlob, valueWritten, same⟩ := bind_eq_ok.mp encoded
  obtain rfl := schemaDescriptor_eq_ok keyed
  obtain rfl := schemaDescriptor_eq_ok valued
  obtain ⟨nameFits, rfl⟩ := blob_eq_ok.mp (raise_eq_ok.mp named)
  obtain ⟨keyFits, rfl⟩ := blob_eq_ok.mp (raise_eq_ok.mp keyWritten)
  obtain ⟨valueFits, rfl⟩ := blob_eq_ok.mp (raise_eq_ok.mp valueWritten)
  cases same
  exact ⟨rfl, nameFits, keyFits, valueFits⟩

/-- A decoded catalogue value is the bytes of its parts, with types that decode
from their descriptors. -/
theorem decodeCatalogue_eq_ok {id : Nat} {bytes : Bytes} {version : CatalogueVersion}
    (decoded : decodeCatalogue id bytes = .ok version) :
    bytes = catalogueBytes version.live (textBytes version.name) version.table.key.descriptor
        version.table.value.descriptor ∧
      (textBytes version.name).length < 2 ^ 32 ∧ version.table.key.descriptor.length < 2 ^ 32 ∧
      version.table.value.descriptor.length < 2 ^ 32 ∧ version.table.id = id ∧
      Ty.decode version.table.key.descriptor = .ok version.table.key ∧
      Ty.decode version.table.value.descriptor = .ok version.table.value := by
  obtain ⟨⟨⟩, -, decoded⟩ := bind_eq_ok.mp decoded
  obtain ⟨⟨format, _⟩, formatRead, decoded⟩ := bind_eq_ok.mp decoded
  obtain ⟨⟨⟩, one, decoded⟩ := bind_eq_ok.mp decoded
  obtain ⟨⟨state, _⟩, stateRead, decoded⟩ := bind_eq_ok.mp decoded
  obtain ⟨live, flagged, decoded⟩ := bind_eq_ok.mp decoded
  obtain ⟨⟨reserved, _⟩, reservedRead, decoded⟩ := bind_eq_ok.mp decoded
  obtain ⟨⟨⟩, zero, decoded⟩ := bind_eq_ok.mp decoded
  obtain ⟨⟨nameBytes, _⟩, nameRead, decoded⟩ := bind_eq_ok.mp decoded
  obtain ⟨name, text, decoded⟩ := bind_eq_ok.mp decoded
  obtain ⟨⟨⟩, -, decoded⟩ := bind_eq_ok.mp decoded
  obtain ⟨⟨keyBytes, _⟩, keyRead, decoded⟩ := bind_eq_ok.mp decoded
  obtain ⟨_, -, decoded⟩ := bind_eq_ok.mp decoded
  obtain ⟨key, keyType, decoded⟩ := bind_eq_ok.mp decoded
  obtain ⟨⟨valueBytes, rest⟩, valueRead, decoded⟩ := bind_eq_ok.mp decoded
  obtain ⟨_, -, decoded⟩ := bind_eq_ok.mp decoded
  obtain ⟨value, valueType, decoded⟩ := bind_eq_ok.mp decoded
  obtain ⟨⟨⟩, finished, same⟩ := bind_eq_ok.mp decoded
  cases same
  rw [refuse_eq_ok, not_not] at one zero finished
  subst zero finished
  obtain ⟨rfl, formatWidth⟩ := takeBytes_eq_ok.mp formatRead
  obtain ⟨rfl, -⟩ := takeBytes_eq_ok.mp stateRead
  obtain ⟨rfl, -⟩ := takeBytes_eq_ok.mp reservedRead
  obtain ⟨nameFits, rfl⟩ := readBlob_eq_ok nameRead
  obtain ⟨keyFits, rfl⟩ := readBlob_eq_ok keyRead
  obtain ⟨valueFits, rfl⟩ := readBlob_eq_ok valueRead
  obtain ⟨rfl, -, -⟩ := Ty.decode_sound keyType
  obtain ⟨rfl, -, -⟩ := Ty.decode_sound valueType
  have formatBytes : format = [1, 0] := by
    have canonical := leBytes_leNat format
    rw [formatWidth, one] at canonical
    exact canonical.symm
  have stateBytes : state = [liveByte live] := by
    unfold catalogueState at flagged
    split_ifs at flagged with isLive isDropped
    · cases flagged
      exact isLive
    · cases flagged
      exact isDropped
  have named : textBytes name = nameBytes := by
    unfold catalogueName at text
    split at text
    · next found =>
        cases text
        exact textBytes_of_fromUtf8 found
    · cases text
  subst formatBytes stateBytes named
  refine ⟨?_, nameFits, keyFits, valueFits, rfl, keyType, valueType⟩
  simp [catalogueBytes]

/-- The bytes of a catalogue value determine its parts. -/
theorem catalogueBytes_inj {live live' : Bool} {name name' key key' value value' : Bytes}
    (nameFits : name.length < 2 ^ 32) (nameFits' : name'.length < 2 ^ 32)
    (keyFits : key.length < 2 ^ 32) (keyFits' : key'.length < 2 ^ 32)
    (same : catalogueBytes live name key value = catalogueBytes live' name' key' value') :
    live = live' ∧ name = name' ∧ key = key' ∧ value = value' := by
  have blobs {left left' rest rest' : Bytes} (fits : left.length < 2 ^ 32)
      (fits' : left'.length < 2 ^ 32)
      (same : (leBytes 4 left.length ++ left) ++ rest = (leBytes 4 left'.length ++ left') ++ rest') :
      left = left' ∧ rest = rest' := by
    rw [List.append_assoc, List.append_assoc] at same
    obtain ⟨lengths, same⟩ := List.append_inj same (by simp)
    exact List.append_inj same (leBytes_inj (by omega) (by omega) lengths)
  simp only [catalogueBytes, List.append_assoc] at same
  obtain ⟨front, same⟩ := List.append_inj same (by simp)
  obtain ⟨names, afterName⟩ :=
    blobs nameFits nameFits' (by simpa only [List.append_assoc] using same)
  obtain ⟨keys, afterKey⟩ :=
    blobs keyFits keyFits' (by simpa only [List.append_assoc] using afterName)
  have flags : live = live' := by
    revert front
    cases live <;> cases live' <;> simp [liveByte]
  have lengths := congrArg List.length afterKey
  simp only [List.length_append, length_leBytes] at lengths
  exact ⟨flags, names, keys, (List.append_inj' afterKey (by omega)).2⟩

/-- A value that was encoded decodes to its own name, state and descriptors. -/
theorem decodeCatalogue_encodeCatalogue {version decoded : CatalogueVersion} {id : Nat}
    {bytes : Bytes} (encoded : encodeCatalogue version = .ok bytes)
    (read : decodeCatalogue id bytes = .ok decoded) :
    decoded.live = version.live ∧ decoded.name = version.name ∧ decoded.table.id = id ∧
      decoded.table.key.descriptor = version.table.key.descriptor ∧
      decoded.table.value.descriptor = version.table.value.descriptor := by
  obtain ⟨rfl, nameFits, keyFits, -⟩ := encodeCatalogue_eq_ok encoded
  obtain ⟨same, nameFits', keyFits', -, sameId, -, -⟩ := decodeCatalogue_eq_ok read
  obtain ⟨live, name, key, value⟩ := catalogueBytes_inj nameFits nameFits' keyFits keyFits' same
  exact ⟨live.symm, (textBytes_inj name).symm, sameId, key.symm, value.symm⟩

/-- Tables with decoded types and the same descriptors are equal. -/
theorem table_eq_of_descriptors {id : Nat} {bytes bytes' : Bytes} {version version' : CatalogueVersion}
    (read : decodeCatalogue id bytes = .ok version) (read' : decodeCatalogue id bytes' = .ok version')
    (keys : version.table.key.descriptor = version'.table.key.descriptor)
    (values : version.table.value.descriptor = version'.table.value.descriptor) :
    version.table = version'.table := by
  obtain ⟨-, -, -, -, sameId, key, value⟩ := decodeCatalogue_eq_ok read
  obtain ⟨-, -, -, -, sameId', key', value'⟩ := decodeCatalogue_eq_ok read'
  rw [keys, key'] at key
  rw [values, value'] at value
  obtain ⟨live, name, tableId, tableKey, tableValue⟩ := version
  obtain ⟨live', name', tableId', tableKey', tableValue'⟩ := version'
  simp only at sameId sameId' key value
  rw [sameId, sameId', Except.ok.inj key, Except.ok.inj value]

/-! ## Versions -/

/-- The tree holds a version of a table at a sequence, both unsigned 64-bit
integers. -/
def Stored (view : View) (id sequence : Nat) (version : CatalogueVersion) : Prop :=
  id ≤ maxU64 ∧ sequence ≤ maxU64 ∧
    ∃ bytes, (catalogueKey id sequence, bytes) ∈ (view.roots .catalogue).entries ∧
      decodeCatalogue id bytes = .ok version

/-- The last version of a table before a bound. -/
def Latest (view : View) (id bound : Nat) (version : CatalogueVersion) : Prop :=
  ∃ sequence < bound, Stored view id sequence version ∧
    ∀ other < bound, ∀ version', Stored view id other version' → other ≤ sequence

/-- An entry is a version of a table at or before a frontier. -/
def VersionEntry (frontier : Nat) (entry : Storage.Entry) (id sequence : Nat)
    (version : CatalogueVersion) : Prop :=
  entry.1 = catalogueKey id sequence ∧ id ≠ 0 ∧ id ≤ sequence ∧ sequence ≤ frontier ∧
    decodeCatalogue id entry.2 = .ok version

/-- Every catalogue entry is a version at or before a frontier. -/
structure Keyed (view : View) (frontier : Nat) : Prop where
  bounded : frontier < maxU64
  entry : ∀ entry ∈ (view.roots .catalogue).entries,
    ∃ id sequence version, VersionEntry frontier entry id sequence version

section Versions

variable {view : View} {frontier id sequence bound : Nat} {version version' : CatalogueVersion}

/-- Versions of a well-keyed tree are in version entries. -/
theorem Keyed.stored (keyed : Keyed view frontier) (stored : Stored view id sequence version) :
    ∃ entry ∈ (view.roots .catalogue).entries,
      VersionEntry frontier entry id sequence version := by
  obtain ⟨hid, hs, bytes, member, decoded⟩ := stored
  obtain ⟨id', sequence', _, key, positive, order, old, -⟩ := keyed.entry _ member
  have bounded := keyed.bounded
  obtain ⟨rfl, rfl⟩ := catalogueKey_inj hid (by omega) hs (by omega) key
  exact ⟨_, member, rfl, positive, order, old, decoded⟩

theorem VersionEntry.tableId {entry : Storage.Entry}
    (holds : VersionEntry frontier entry id sequence version) : version.table.id = id :=
  (decodeCatalogue_eq_ok holds.2.2.2.2).2.2.2.2.1

theorem Stored.unique (stored : Stored view id sequence version)
    (stored' : Stored view id sequence version') : version = version' := by
  obtain ⟨-, -, bytes, member, decoded⟩ := stored
  obtain ⟨-, -, bytes', member', decoded'⟩ := stored'
  have same := (OrdMap.find?_eq_some.mpr member).symm.trans (OrdMap.find?_eq_some.mpr member')
  cases same
  exact Except.ok.inj (decoded.symm.trans decoded')

theorem Latest.unique (latest : Latest view id bound version)
    (latest' : Latest view id bound version') : version = version' := by
  obtain ⟨sequence, before, stored, last⟩ := latest
  obtain ⟨sequence', before', stored', last'⟩ := latest'
  obtain rfl : sequence = sequence' :=
    le_antisymm (last' _ before _ stored) (last _ before' _ stored')
  exact stored.unique stored'

/-- A table with a version before a bound has a last one. -/
theorem Stored.exists_latest (stored : Stored view id sequence version)
    (before : sequence < bound) : ∃ version', Latest view id bound version' := by
  classical
  let held (number : Nat) : Prop := number < bound ∧ ∃ version', Stored view id number version'
  have upper : ∀ number, held number → number ≤ bound := fun _ holds => holds.1.le
  have some' : held sequence := ⟨before, version, stored⟩
  obtain ⟨last, version', stored'⟩ := Nat.findGreatest_spec (upper sequence some') some'
  exact ⟨version', _, last, stored', fun other inside version'' stored'' =>
    Nat.le_findGreatest inside.le ⟨inside, version'', stored''⟩⟩

/-- The version of an entry is stored. -/
theorem VersionEntry.stored (bounded : frontier < maxU64) {entry : Storage.Entry}
    (holds : VersionEntry frontier entry id sequence version)
    (member : entry ∈ (view.roots .catalogue).entries) : Stored view id sequence version := by
  obtain ⟨key, value⟩ := entry
  obtain ⟨rfl, -, order, old, decoded⟩ := holds
  exact ⟨by omega, by omega, value, member, decoded⟩

theorem VersionEntry.decodeKey (bounded : frontier < maxU64) {entry : Storage.Entry}
    (holds : VersionEntry frontier entry id sequence version) :
    decodeCatalogueKey entry.1 = .ok (id, sequence) := by
  obtain ⟨key, positive, order, old, -⟩ := holds
  exact decodeCatalogueKey_eq_ok.mpr ⟨key, positive, order, by omega⟩

/-- The key of an entry determines its table and sequence. -/
theorem VersionEntry.unique_key (bounded : frontier < maxU64) {entry entry' : Storage.Entry}
    {id' sequence' : Nat} (holds : VersionEntry frontier entry id sequence version)
    (holds' : VersionEntry frontier entry' id' sequence' version') (same : entry.1 = entry'.1) :
    id = id' ∧ sequence = sequence' := by
  obtain ⟨key, -, _, _, -⟩ := holds
  obtain ⟨key', -, _, _, -⟩ := holds'
  rw [key, key'] at same
  exact catalogueKey_inj (by omega) (by omega) (by omega) (by omega) same

/-- An entry is a version of one table at one sequence. -/
theorem VersionEntry.unique (bounded : frontier < maxU64) {entry : Storage.Entry}
    {id' sequence' : Nat} (holds : VersionEntry frontier entry id sequence version)
    (holds' : VersionEntry frontier entry id' sequence' version') :
    id = id' ∧ sequence = sequence' ∧ version = version' := by
  obtain ⟨rfl, rfl⟩ := holds.unique_key bounded holds' rfl
  exact ⟨rfl, rfl, Except.ok.inj (holds.2.2.2.2.symm.trans holds'.2.2.2.2)⟩

/-- The key order of two versions. -/
theorem VersionEntry.before (bounded : frontier < maxU64) {entry entry' : Storage.Entry}
    {id' sequence' : Nat} (holds : VersionEntry frontier entry id sequence version)
    (holds' : VersionEntry frontier entry' id' sequence' version') (order : entry.1 < entry'.1) :
    id < id' ∨ id = id' ∧ sequence' < sequence := by
  obtain ⟨key, -, _, _, -⟩ := holds
  obtain ⟨key', -, _, _, -⟩ := holds'
  rw [key, key'] at order
  exact (catalogueKey_lt_iff (by omega) (by omega) (by omega) (by omega)).mp order

/-- The bounded seek answers from the last version at or before a sequence. -/
theorem catalogueVersion_latest (keyed : Keyed view frontier) (positive : id ≠ 0)
    (hid : id < maxU64) (hs : sequence < maxU64) :
    ∃ result, catalogueVersion view id sequence = .ok result ∧
      ∀ version, result = some version ↔ Latest view id (sequence + 1) version := by
  have bounded := keyed.bounded
  -- The range holds exactly the versions of the table at or before the sequence.
  have inRange {id' sequence' : Nat} {version : CatalogueVersion} {entry : Storage.Entry}
      (holds : VersionEntry frontier entry id' sequence' version) :
      ((Bound.included (catalogueKey id sequence)).above entry.1 ∧
        (Bound.excluded (beBytes 8 (id + 1))).below entry.1) ↔ id' = id ∧ sequence' ≤ sequence := by
    obtain ⟨key, -, order, old, -⟩ := holds
    simp only [Bound.above, Bound.below, decide_eq_true_eq, key]
    rw [catalogueKey_lt_next hid (by omega), ← not_lt,
      catalogueKey_lt_iff (by omega) hid.le (by omega) hs.le]
    omega
  have scanned : (view.scan .catalogue (.included (catalogueKey id sequence))
      (.excluded (beBytes 8 (id + 1)))).mapError Error.storage =
      .ok ((view.roots .catalogue).range (.included (catalogueKey id sequence))
        (.excluded (beBytes 8 (id + 1)))) := by
    simp [View.scan, Storage.checkBound, Storage.boundKey, Storage.checkKey, Storage.maxKey,
      catalogueKey, Except.mapError]
  have valid : validId id = .ok () := validId_eq_ok.mpr ⟨positive, hid.ne⟩
  simp only [catalogueVersion, valid, ok_bind, refuse_of_not _ hs.ne, scanned]
  cases range : (view.roots .catalogue).range (.included (catalogueKey id sequence))
      (.excluded (beBytes 8 (id + 1))) with
  | nil =>
      refine ⟨none, rfl, fun version => ⟨by simp, ?_⟩⟩
      rintro ⟨sequence', before, stored, -⟩
      obtain ⟨entry, member, holds⟩ := keyed.stored stored
      have inside := OrdMap.mem_range.mpr ⟨member, (inRange holds).mpr ⟨rfl, by omega⟩⟩
      rw [range] at inside
      cases inside
  | cons entry rest =>
      have inside := range ▸ (List.mem_cons_self : entry ∈ entry :: rest)
      obtain ⟨member, within⟩ := OrdMap.mem_range.mp inside
      obtain ⟨id', sequence', version', holds⟩ := keyed.entry _ member
      obtain ⟨rfl, before⟩ := (inRange holds).mp within
      obtain ⟨key, value⟩ := entry
      have decodedKey := holds.decodeKey bounded
      have decoded : (decodeCatalogue id' value).mapError persisted = .ok version' :=
        mapError_eq_ok.mpr holds.2.2.2.2
      have expected : ¬ (id' ≠ id' ∨ sequence' > sequence) := by simpa using before
      simp only [decodedKey, ok_bind, refuse_of_not _ expected, decoded, pure_eq_ok]
      refine ⟨some version', rfl, fun version => ?_⟩
      have latest : Latest view id' (sequence + 1) version' := by
        refine ⟨sequence', by omega, holds.stored bounded member, ?_⟩
        intro other within _ stored
        obtain ⟨entry', otherMember, otherHolds⟩ := keyed.stored stored
        have otherInside := OrdMap.mem_range.mpr
          ⟨otherMember, (inRange otherHolds).mpr ⟨rfl, by omega⟩⟩
        have first := (OrdMap.increasing_range _ _ _).head_le (by rw [range]; rfl) otherInside
        rcases lt_or_eq_of_le first with order | equal
        · have := holds.before bounded otherHolds order
          omega
        · have := (holds.unique_key bounded otherHolds equal).2
          omega
      constructor
      · intro same
        cases same
        exact latest
      · intro other
        rw [latest.unique other]

/-- The version a walk over entries selects for a table that was not selected
before: the first one at or before the sequence. -/
def Chosen (frontier sequence : Nat) (selected : Option Nat) (entries : List Storage.Entry)
    (id : Nat) (version : CatalogueVersion) : Prop :=
  selected ≠ some id ∧ ∃ effective ≤ sequence,
    (∃ entry ∈ entries, VersionEntry frontier entry id effective version) ∧
    ∀ entry ∈ entries, ∀ other version', other ≤ sequence →
      VersionEntry frontier entry id other version' → other ≤ effective

/-- The walk finds the name exactly when some selected live version has it. -/
theorem nameSelected_eq (bounded : frontier < maxU64) {entries : List Storage.Entry}
    (sorted : Increasing entries)
    (versions : ∀ entry ∈ entries, ∃ id sequence version,
      VersionEntry frontier entry id sequence version)
    (name : String) (except selected : Option Nat)
    (ahead : ∀ previous ∈ selected, ∀ entry ∈ entries, ∀ id sequence version,
      VersionEntry frontier entry id sequence version → previous ≤ id) :
    ∃ found, nameSelected sequence name except selected entries = .ok found ∧
      (found = true ↔ ∃ id version, Chosen frontier sequence selected entries id version ∧
        version.live = true ∧ version.name = name ∧ except ≠ some id) := by
  induction entries generalizing selected with
  | nil =>
      refine ⟨false, rfl, ⟨nofun, ?_⟩⟩
      rintro ⟨id, version, ⟨-, effective, -, ⟨entry, member, -⟩, -⟩, -⟩
      cases member
  | cons entry entries ih =>
      obtain ⟨later, tail⟩ := List.pairwise_cons.mp sorted
      obtain ⟨id, effective, version, holds⟩ := versions entry List.mem_cons_self
      have versionsTail : ∀ entry ∈ entries, ∃ id sequence version,
          VersionEntry frontier entry id sequence version :=
        fun other member => versions other (List.mem_cons_of_mem _ member)
      obtain ⟨key, value⟩ := entry
      have decodedKey := holds.decodeKey bounded
      have decoded : (decodeCatalogue id value).mapError persisted = .ok version :=
        mapError_eq_ok.mpr holds.2.2.2.2
      simp only [nameSelected, decodedKey, ok_bind]
      split_ifs with skip
      · -- The head is too new or its table was selected, so it chooses nothing.
        obtain ⟨found, returns, means⟩ := ih tail versionsTail selected
          fun previous chosen other member => ahead previous chosen other (List.mem_cons_of_mem _ member)
        refine ⟨found, returns, means.trans ?_⟩
        have same (other : Nat) (version' : CatalogueVersion) :
            Chosen frontier sequence selected entries other version' ↔
              Chosen frontier sequence selected ((key, value) :: entries) other version' := by
          unfold Chosen
          constructor
          · rintro ⟨fresh, t, visible, ⟨entry, member, chosen⟩, last⟩
            refine ⟨fresh, t, visible, ⟨entry, List.mem_cons_of_mem _ member, chosen⟩, ?_⟩
            intro entry' member' t' v' visible' chosen'
            rcases List.mem_cons.mp member' with rfl | inTail
            · obtain ⟨rfl, rfl, rfl⟩ := holds.unique bounded chosen'
              rcases skip with new | selectedBefore
              · omega
              · exact absurd selectedBefore fresh
            · exact last entry' inTail t' v' visible' chosen'
          · rintro ⟨fresh, t, visible, ⟨entry, member, chosen⟩, last⟩
            refine ⟨fresh, t, visible, ?_, fun entry' member' =>
              last entry' (List.mem_cons_of_mem _ member')⟩
            rcases List.mem_cons.mp member with rfl | inTail
            · obtain ⟨rfl, rfl, rfl⟩ := holds.unique bounded chosen
              rcases skip with new | selectedBefore
              · omega
              · exact absurd selectedBefore fresh
            · exact ⟨entry, inTail, chosen⟩
        simp only [same]
      · rw [not_or, not_lt] at skip
        simp only [decoded, ok_bind]
        have head : Chosen frontier sequence selected ((key, value) :: entries) id version := by
          refine ⟨skip.2, effective, skip.1, ⟨_, List.mem_cons_self, holds⟩, ?_⟩
          intro entry member other version' visible holds'
          rcases List.mem_cons.mp member with rfl | inTail
          · exact (holds.unique bounded holds').2.1.ge
          · have := holds.before bounded holds' (later entry inTail)
            omega
        split_ifs with hit
        · exact ⟨true, rfl, fun _ => ⟨id, version, head, hit⟩, fun _ => rfl⟩
        · have aheadTail : ∀ previous ∈ some id, ∀ entry ∈ entries, ∀ other t v,
              VersionEntry frontier entry other t v → previous ≤ other := by
            rintro _ ⟨⟩ entry member other t v holds'
            have := holds.before bounded holds' (later entry member)
            omega
          obtain ⟨found, returns, means⟩ := ih tail versionsTail (some id) aheadTail
          refine ⟨found, returns, means.trans ?_⟩
          -- A table selected earlier has no entries behind a different table.
          have same {other : Nat} (different : other ≠ id) (version' : CatalogueVersion) :
              Chosen frontier sequence (some id) entries other version' ↔
                Chosen frontier sequence selected ((key, value) :: entries) other version' := by
            unfold Chosen
            constructor
            · rintro ⟨-, t, visible, ⟨entry, member, chosen⟩, last⟩
              refine ⟨?_, t, visible, ⟨entry, List.mem_cons_of_mem _ member, chosen⟩, ?_⟩
              · intro selectedBefore
                have first := ahead other selectedBefore _ List.mem_cons_self _ _ _ holds
                have := holds.before bounded chosen (later entry member)
                omega
              · intro entry' member' t' v' visible' chosen'
                rcases List.mem_cons.mp member' with rfl | inTail
                · exact absurd (holds.unique bounded chosen').1.symm different
                · exact last entry' inTail t' v' visible' chosen'
            · rintro ⟨-, t, visible, ⟨entry, member, chosen⟩, last⟩
              refine ⟨fun same => different (Option.some.inj same).symm, t, visible, ?_,
                fun entry' member' => last entry' (List.mem_cons_of_mem _ member')⟩
              rcases List.mem_cons.mp member with rfl | inTail
              · exact absurd (holds.unique bounded chosen).1.symm different
              · exact ⟨entry, inTail, chosen⟩
          constructor
          · rintro ⟨other, version', chosen, answer⟩
            have different : other ≠ id := fun equal => chosen.1 (equal ▸ rfl)
            exact ⟨other, version', (same different version').mp chosen, answer⟩
          · rintro ⟨other, version', chosen, answer⟩
            by_cases different : other = id
            · subst different
              obtain ⟨-, t, visible, ⟨entry, member, holds'⟩, last⟩ := chosen
              have first := last _ List.mem_cons_self _ _ skip.1 holds
              rcases List.mem_cons.mp member with rfl | inTail
              · obtain ⟨-, -, rfl⟩ := holds.unique bounded holds'
                exact absurd answer hit
              · have := holds.before bounded holds' (later entry inTail)
                omega
            · exact ⟨other, version', (same different version').mpr chosen, answer⟩

/-- The name scan answers from the last versions at or before a sequence. -/
theorem nameInUse_latest (keyed : Keyed view frontier) (name : String) (except : Option Nat) :
    ∃ found, nameInUse view sequence name except = .ok found ∧
      (found = true ↔ ∃ id version, Latest view id (sequence + 1) version ∧
        version.live = true ∧ version.name = name ∧ except ≠ some id) := by
  have bounded := keyed.bounded
  have scanned : (view.scan .catalogue .unbounded .unbounded).mapError Error.storage =
      .ok (view.roots .catalogue).entries := by
    rw [view.scan_unbounded]
    rfl
  obtain ⟨found, returns, means⟩ := @nameSelected_eq frontier sequence bounded _
    (view.roots .catalogue).increasing keyed.entry name except none (by simp)
  refine ⟨found, by simp only [nameInUse, scanned, ok_bind, returns], means.trans ?_⟩
  have same (id : Nat) (version : CatalogueVersion) :
      Chosen frontier sequence none (view.roots .catalogue).entries id version ↔
        Latest view id (sequence + 1) version := by
    constructor
    · rintro ⟨-, effective, visible, ⟨entry, member, holds⟩, last⟩
      refine ⟨effective, by omega, holds.stored bounded member, ?_⟩
      intro other within version' stored
      obtain ⟨entry', otherMember, otherHolds⟩ := keyed.stored stored
      exact last entry' otherMember other version' (by omega) otherHolds
    · rintro ⟨effective, within, stored, last⟩
      obtain ⟨entry, member, holds⟩ := keyed.stored stored
      refine ⟨nofun, effective, by omega, ⟨entry, member, holds⟩, ?_⟩
      intro entry' otherMember other version' visible otherHolds
      exact last other (by omega) version' (otherHolds.stored bounded otherMember)
  simp only [same]

end Versions

end BlopDb.Vm.Database
