/-
# Versioned reads of an encoded state

The specification of a versioned read in the terms a writer uses: the state
holds encoded keys and values, a version is what was encoded, and a read takes
the newest version at or before its sequence.  Reserved tables and sequences
and keys above the ceiling are refused before the tree is consulted.
-/

import BlopDb.Storage.MvccSpec

namespace BlopDb.Storage.Mvcc

open BlopDb.Lib
open Encoding (maxKeyBytes maxValueBytes)

/-! ## Encoded states -/

/-- What a read sees of a stored version. -/
def StateValue.payload : StateValue → Option Bytes
  | put value => some value
  | delete => none

/-- The state holds this version of an address. -/
def Version (view : View) (table : Nat) (key : Bytes) (sequence : Nat) (value : StateValue) :
    Prop :=
  ∃ stateKey encoded, StateKey.new table key sequence = .ok stateKey ∧
    value.encode = .ok encoded ∧ (stateKey.encode, encoded) ∈ (view.roots .state).entries

/-- Every state entry is a version of some address with 64-bit fields. -/
def Encoded (view : View) : Prop :=
  ∀ entry ∈ (view.roots .state).entries, ∃ table key sequence stateKey value,
    table ≤ maxU64 ∧ sequence ≤ maxU64 ∧ StateKey.new table key sequence = .ok stateKey ∧
      entry.1 = stateKey.encode ∧ StateValue.encode value = .ok entry.2

/-- The newest version of an address at or before a sequence. -/
def NewestVersion (view : View) (table : Nat) (key : Bytes) (sequence : Nat)
    (value : StateValue) : Prop :=
  ∃ stored ≤ sequence, Version view table key stored value ∧
    ∀ other ≤ sequence, ∀ value, Version view table key other value → other ≤ stored

/-- No version of an address is at or before a sequence. -/
def NoVersion (view : View) (table : Nat) (key : Bytes) (sequence : Nat) : Prop :=
  ∀ stored ≤ sequence, ∀ value, ¬ Version view table key stored value

/-- The payload of an encoded value is the one that was encoded. -/
theorem valuePayload_encode {value : StateValue} {encoded : Bytes}
    (encodes : value.encode = .ok encoded) : valuePayload encoded = .ok value.payload := by
  cases value with
  | delete =>
      cases encodes
      rfl
  | put value =>
      simp only [StateValue.encode, bind_eq_ok, refuse_eq_ok, pure_eq_ok, Except.ok.injEq,
        gt_iff_lt, not_lt] at encodes
      obtain ⟨-, fits, rfl⟩ := encodes
      have width : (leBytes 4 value.length).length = 4 := length_leBytes 4 value.length
      have small : value.length < 256 ^ 4 := by
        simp only [maxValueBytes] at fits
        omega
      have frame : leNat ((leBytes 4 value.length ++ value).take 4) = value.length := by
        rw [List.take_append_of_le_length width.ge, List.take_of_length_le width.le,
          leNat_leBytes 4 _ small]
      have rest : (leBytes 4 value.length ++ value).drop 4 = value := by
        rw [List.drop_append_of_le_length width.ge, List.drop_of_length_le width.le,
          List.nil_append]
      simp only [valuePayload, List.cons.injEq, List.drop_succ_cons, List.drop_zero, frame, rest,
        List.length_cons, List.length_append, width, List.head?_cons]
      rw [if_neg (by simp), refuse_of_not _ (by simp), ok_bind, refuse_of_not _ (by omega)]
      rfl

theorem StateKey.valid_of_new {table sequence : Nat} {key : Bytes} {stateKey : StateKey}
    (tables : table ≤ maxU64) (sequences : sequence ≤ maxU64)
    (built : StateKey.new table key sequence = .ok stateKey) :
    stateKey = ⟨table, key, sequence⟩ ∧ stateKey.Valid := by
  obtain ⟨rfl, positive, table_ne, sequence_ne, short, later⟩ := StateKey.new_eq_ok.mp built
  exact ⟨rfl, positive, lt_of_le_of_ne tables table_ne, lt_of_le_of_ne sequences sequence_ne,
    short, later⟩

section Reads

variable {view : View} {table sequence : Nat} {key : Bytes}

/-- An encoded state decodes everywhere. -/
theorem Encoded.uncorrupted (encoded : Encoded view) : Uncorrupted view := by
  intro entry member
  obtain ⟨table, key, sequence, stateKey, value, tables, sequences, built, shape, encodes⟩ :=
    encoded entry member
  obtain ⟨-, valid⟩ := StateKey.valid_of_new tables sequences built
  refine ⟨⟨stateKey, ?_⟩, value.payload, valuePayload_encode encodes⟩
  rw [shape]
  exact StateKey.decode_encode valid

/-- In an encoded state, the payloads an address holds are those of its versions. -/
theorem Encoded.holds_iff (encoded : Encoded view) (tables : table ≤ maxU64)
    {stored : Nat} {payload : Option Bytes} :
    Holds (view.roots .state).entries table key stored payload ↔
      ∃ value, Version view table key stored value ∧ value.payload = payload := by
  constructor
  · rintro ⟨bytes, member, decoded⟩
    obtain ⟨table', key', stored', stateKey, value, tables', sequences', built, shape, encodes⟩ :=
      encoded _ member
    obtain ⟨rfl, valid⟩ := StateKey.valid_of_new tables' sequences' built
    obtain ⟨rfl, rfl, rfl⟩ := seekKey_inj tables tables' valid.sequence_lt shape
    refine ⟨value, ⟨_, bytes, built, encodes, member⟩, ?_⟩
    have same := valuePayload_encode encodes
    rw [decoded] at same
    exact (Except.ok.inj same).symm
  · rintro ⟨value, ⟨stateKey, bytes, built, encodes, member⟩, rfl⟩
    obtain ⟨rfl, -⟩ := StateKey.new_eq_ok.mp built
    exact ⟨bytes, member, valuePayload_encode encodes⟩

theorem Encoded.newest_iff (encoded : Encoded view) (tables : table ≤ maxU64)
    {payload : Option Bytes} :
    Newest (Holds (view.roots .state).entries table key) sequence payload ↔
      ∃ value, NewestVersion view table key sequence value ∧ value.payload = payload := by
  constructor
  · rintro ⟨stored, before, holds, most⟩
    obtain ⟨value, version, rfl⟩ := (encoded.holds_iff tables).mp holds
    exact ⟨value, ⟨stored, before, version, fun other earlier value' held =>
      most other earlier _ ((encoded.holds_iff tables).mpr ⟨value', held, rfl⟩)⟩, rfl⟩
  · rintro ⟨value, ⟨stored, before, version, most⟩, rfl⟩
    refine ⟨stored, before, (encoded.holds_iff tables).mpr ⟨value, version, rfl⟩, ?_⟩
    intro other earlier payload held
    obtain ⟨value', version', -⟩ := (encoded.holds_iff tables).mp held
    exact most other earlier value' version'

/-- A read that passes its input checks returns the payload of the newest version,
and nothing when there is none. -/
theorem Encoded.get_eq_ok_iff (encoded : Encoded view) (readable : Readable table key sequence)
    {result : Option Bytes} :
    get view table key sequence = .ok result ↔
      (∃ value, NewestVersion view table key sequence value ∧ value.payload = result) ∨
        result = none ∧ NoVersion view table key sequence := by
  have tables := readable.table_lt.le
  rw [Mvcc.get_eq_ok_iff encoded.uncorrupted readable, Selects, encoded.newest_iff tables]
  refine or_congr_right (and_congr_right fun _ => ?_)
  constructor
  · intro absent stored before value version
    exact absent stored before _ ((encoded.holds_iff tables).mpr ⟨value, version, rfl⟩)
  · intro absent stored before payload holds
    obtain ⟨value, version, -⟩ := (encoded.holds_iff tables).mp holds
    exact absent stored before value version

/-! ## Refused inputs -/

theorem checkSnapshot_refuses (reserved : table = 0 ∨ table = maxU64 ∨ sequence = maxU64) :
    ∃ reason, checkSnapshot table sequence = .error (.invalidInput reason) := by
  unfold checkSnapshot
  by_cases reservedTable : table = 0 ∨ table = maxU64
  · exact ⟨_, by rw [refuse_of _ reservedTable]; rfl⟩
  · rw [refuse_of_not _ reservedTable, ok_bind]
    exact ⟨_, refuse_of _ (by tauto)⟩

theorem checkSnapshot_accepts (allowed : ¬ (table = 0 ∨ table = maxU64 ∨ sequence = maxU64)) :
    checkSnapshot table sequence = .ok () := by
  simp only [not_or] at allowed
  obtain ⟨positive, bounded, snapshot⟩ := allowed
  simp [checkSnapshot, positive, bounded, snapshot]

/-- A read refuses what its input checks exclude. -/
theorem get_refuses (tables : table ≤ maxU64) (sequences : sequence ≤ maxU64)
    (excluded : ¬ Readable table key sequence) :
    ∃ reason, get view table key sequence = .error (.invalidInput reason) := by
  by_cases reserved : table = 0 ∨ table = maxU64 ∨ sequence = maxU64
  · obtain ⟨reason, refused⟩ := checkSnapshot_refuses reserved
    exact ⟨reason, by simp only [get, refused]; rfl⟩
  · have long : key.length > maxKeyBytes := by
      by_contra short
      simp only [not_or] at reserved
      exact excluded ⟨reserved.1, lt_of_le_of_ne tables reserved.2.1,
        lt_of_le_of_ne sequences reserved.2.2, not_lt.mp short⟩
    refine ⟨"user key exceeds 1,024 bytes", ?_⟩
    simp only [get, checkSnapshot_accepts reserved, checkUserKey, ok_bind]
    rw [refuse_of _ long]
    rfl

/-- The arguments of a scan that passes its input checks. -/
structure Scannable (table sequence : Nat) (lower upper : Bound Bytes) : Prop where
  table_pos : table ≠ 0
  table_lt : table < maxU64
  sequence_lt : sequence < maxU64
  lower_short : ShortBound lower
  upper_short : ShortBound upper

theorem checkBound_of_long {bound : Bound Bytes} (long : ¬ ShortBound bound) :
    checkBound checkUserKey bound = .error (.invalidInput "user key exceeds 1,024 bytes") := by
  cases bound with
  | unbounded => exact absurd (fun _ member => nomatch member) long
  | included key | excluded key =>
      apply refuse_of
      by_contra short
      exact long fun other same => by
        cases same
        exact not_lt.mp short

/-- A scan refuses what its input checks exclude. -/
theorem scan_refuses (tables : table ≤ maxU64) (sequences : sequence ≤ maxU64)
    {lower upper : Bound Bytes} (excluded : ¬ Scannable table sequence lower upper) :
    ∃ reason, scan view table sequence lower upper = .error (.invalidInput reason) := by
  by_cases reserved : table = 0 ∨ table = maxU64 ∨ sequence = maxU64
  · obtain ⟨reason, refused⟩ := checkSnapshot_refuses reserved
    exact ⟨reason, by simp only [scan, refused]; rfl⟩
  refine ⟨"user key exceeds 1,024 bytes", ?_⟩
  simp only [scan, checkSnapshot_accepts reserved, ok_bind]
  by_cases lowerShort : ShortBound lower
  · have upperLong : ¬ ShortBound upper := by
      intro upperShort
      simp only [not_or] at reserved
      exact excluded ⟨reserved.1, lt_of_le_of_ne tables reserved.2.1,
        lt_of_le_of_ne sequences reserved.2.2, lowerShort, upperShort⟩
    simp only [checkBound_of_short lowerShort, ok_bind, checkBound_of_long upperLong]
    rfl
  · simp only [checkBound_of_long lowerShort]
    rfl

end Reads

/-! ## The read contract -/

/-- Reads of an encoded state select the newest version at or before their
sequence; scans list, in increasing order, the keys between their bounds that a
read finds; both refuse reserved tables and sequences and overlong keys, and
neither reports corruption.  Physical keys determine what they encode and sort by
table, by key and by descending sequence. -/
theorem reads_take_newest {view : View} (encoded : Encoded view) {table sequence : Nat}
    (tables : table ≤ maxU64) (sequences : sequence ≤ maxU64) :
    (∀ key, Readable table key sequence →
      (∃ result, get view table key sequence = .ok result) ∧
      (∀ value, get view table key sequence = .ok (some value) ↔
        NewestVersion view table key sequence (.put value)) ∧
      (get view table key sequence = .ok none ↔
        NewestVersion view table key sequence .delete ∨ NoVersion view table key sequence)) ∧
    (∀ key, ¬ Readable table key sequence →
      ∃ reason, get view table key sequence = .error (.invalidInput reason)) ∧
    (∀ lower upper, Scannable table sequence lower upper →
      ∃ chosen, scan view table sequence lower upper = .ok (chosen.map .ok) ∧
        Increasing chosen ∧ ∀ key value, (key, value) ∈ chosen ↔
          lower.above key ∧ upper.below key ∧ get view table key sequence = .ok (some value)) ∧
    (∀ lower upper, ¬ Scannable table sequence lower upper →
      ∃ reason, scan view table sequence lower upper = .error (.invalidInput reason)) ∧
    (∀ stateKey : StateKey, stateKey.Valid → StateKey.decode stateKey.encode = .ok stateKey) ∧
    (∀ bytes stateKey, StateKey.decode bytes = .ok stateKey →
      stateKey.encode = bytes ∧ stateKey.Valid) ∧
    (∀ left right : StateKey, left.Valid → right.Valid →
      (left.encode = right.encode → left = right) ∧
      (left.encode < right.encode ↔ left.tableId < right.tableId ∨
        left.tableId = right.tableId ∧ (left.key < right.key ∨
          left.key = right.key ∧ right.sequence < left.sequence))) := by
  refine ⟨fun key readable => ⟨?_, fun value => ?_, ?_⟩,
    fun key excluded => get_refuses tables sequences excluded,
    fun lower upper scannable => scan_spec encoded.uncorrupted scannable.table_pos
      scannable.table_lt scannable.sequence_lt scannable.lower_short scannable.upper_short,
    fun lower upper excluded => scan_refuses tables sequences excluded,
    fun stateKey valid => StateKey.decode_encode valid, fun bytes stateKey decoded => ?_,
    fun left right leftValid rightValid => ⟨fun same => ?_, ?_⟩⟩
  · obtain ⟨result, found, -⟩ := get_selects encoded.uncorrupted readable
    exact ⟨result, found⟩
  · rw [encoded.get_eq_ok_iff readable]
    constructor
    · rintro (⟨stored, newest, payload⟩ | ⟨impossible, -⟩)
      · cases stored with
        | delete => cases payload
        | put stored =>
            cases payload
            exact newest
      · cases impossible
    · intro newest
      exact .inl ⟨_, newest, rfl⟩
  · rw [encoded.get_eq_ok_iff readable]
    constructor
    · rintro (⟨stored, newest, payload⟩ | ⟨-, absent⟩)
      · cases stored with
        | delete => exact .inl newest
        | put stored => cases payload
      · exact .inr absent
    · rintro (newest | absent)
      · exact .inl ⟨_, newest, rfl⟩
      · exact .inr ⟨rfl, absent⟩
  · obtain ⟨shape, valid⟩ := StateKey.decode_sound decoded
    exact ⟨shape.symm, valid⟩
  · have decoded := StateKey.decode_encode leftValid
    rw [same, StateKey.decode_encode rightValid] at decoded
    exact (Except.ok.inj decoded).symm
  · exact seekKey_lt_iff leftValid.table_lt.le rightValid.table_lt.le leftValid.sequence_lt.le
      rightValid.sequence_lt.le left.key right.key

/-- One row of table one: written at sequence two, deleted at sequence three. -/
def deletedRow : View :=
  ⟨fun _ => ⟨[(seekKey 1 [0] 3, [0]), (seekKey 1 [0] 2, [1, 1, 0, 0, 0, 7])], by
    simp only [Increasing]
    decide⟩⟩

theorem deletedRow_encoded : Encoded deletedRow := by
  intro entry member
  have versions : entry = (seekKey 1 [0] 3, [0]) ∨
      entry = (seekKey 1 [0] 2, [1, 1, 0, 0, 0, 7]) := by
    simpa [deletedRow] using member
  rcases versions with rfl | rfl
  · exact ⟨1, [0], 3, ⟨1, [0], 3⟩, .delete, by decide, by decide, by rfl, rfl, by rfl⟩
  · exact ⟨1, [0], 2, ⟨1, [0], 2⟩, .put [7], by decide, by decide, by rfl, rfl, by rfl⟩

theorem reads_take_newest_deletedRow :
    Encoded deletedRow ∧ get deletedRow 1 [0] 2 = .ok (some [7]) ∧
      NewestVersion deletedRow 1 [0] 2 (.put [7]) := by
  have found : get deletedRow 1 [0] 2 = .ok (some [7]) := by rfl
  obtain ⟨reads, -⟩ := reads_take_newest deletedRow_encoded (show 1 ≤ maxU64 by decide)
    (show 2 ≤ maxU64 by decide)
  exact ⟨deletedRow_encoded, found, ((reads [0] ⟨by decide, by decide, by decide, by decide⟩).2.1
    [7]).mp found⟩

/-- Table zero is reserved: a read of it is refused although no version of it
exists. -/
theorem reserved_table_refused :
    ¬ ∀ view, Encoded view → ∀ table ≤ maxU64, ∀ key : Bytes, ∀ sequence ≤ maxU64,
      NoVersion view table key sequence → get view table key sequence = .ok none := by
  intro always
  have absent : NoVersion deletedRow 0 [] 0 := by
    rintro stored - value ⟨stateKey, -, built, -⟩
    exact (StateKey.new_eq_ok.mp built).2.1 (by rw [(StateKey.new_eq_ok.mp built).1])
  have returned := always deletedRow deletedRow_encoded 0 (by decide) [] 0 (by decide) absent
  obtain ⟨reason, refused⟩ : ∃ reason, get deletedRow 0 [] 0 = .error (.invalidInput reason) :=
    get_refuses (by decide) (by decide) fun readable => readable.table_pos rfl
  rw [refused] at returned
  cases returned

end BlopDb.Storage.Mvcc
