/-
# Types, storage schemas and canonical keys agree

The machine describes a column by a type, storage by a schema decoded from the
same descriptor.  `Ty.Matches` relates the two.  Under it every value the type
accepts has a canonical key, the key decodes back to the value's encoding, and
the size bounds of both sides coincide.
-/

import BlopDb.Vm.ValueCodec

namespace BlopDb.Vm

open BlopDb.Lib
open Storage.Encoding (TypeNode Schema decodeNode boundNode escapeInto unescape flipSign readValue
  readValues readKey readKeys encodeKey decodeKey checkedAdd checkedMul)

namespace Ty

mutual

/-- A type without Rows and the storage type of the same structure. -/
def Matches : Ty → TypeNode → Prop
  | unit, .unit => True
  | boolean, .boolean => True
  | i64, .i64 => True
  | u64, .u64 => True
  | bytes bound, .bytes bound' => bound = bound'
  | string bound, .string bound' => bound = bound'
  | tuple fields, .tuple nodes => MatchesAll fields nodes
  | _, _ => False

/-- Field lists that match position by position. -/
def MatchesAll : List Ty → List TypeNode → Prop
  | [], [] => True
  | field :: fields, node :: nodes => Matches field node ∧ MatchesAll fields nodes
  | _, _ => False

end

mutual

/-- The largest canonical key of a type. -/
def maxKeyBytes : Ty → Nat
  | unit => 0
  | boolean => 1
  | i64 | u64 => 8
  | bytes bound | string bound => bound * 2 + 2
  | tuple fields => maxKeysBytes fields
  | rows _ _ _ => 0

/-- The largest canonical key of a field list. -/
def maxKeysBytes : List Ty → Nat
  | [] => 0
  | field :: fields => maxKeyBytes field + maxKeysBytes fields

end

end Ty

namespace Value

mutual

/-- The canonical key of a value. -/
def keyBytes : Value → Bytes
  | unit => []
  | boolean value => [if value then 1 else 0]
  | i64 number => beBytes 8 (flipSign number.toBitVec.toNat)
  | u64 number => beBytes 8 number.toNat
  | bytes data => escapeInto data
  | string text => escapeInto (textBytes text)
  | tuple fields => keysBytes fields
  | rows _ => []

/-- The concatenated canonical keys of fields. -/
def keysBytes : List Value → Bytes
  | [] => []
  | field :: fields => keyBytes field ++ keysBytes fields

end

end Value

/-! ## Descriptors -/

theorem storage_take_exact {input bytes rest : Bytes} {length : Nat}
    (h : Storage.Encoding.take input length = .ok (bytes, rest)) :
    input = bytes ++ rest ∧ bytes.length = length := takeBytes_eq_ok.mp h

@[simp]
theorem storage_take_cons_one (byte : UInt8) (rest : Bytes) :
    Storage.Encoding.take (byte :: rest) 1 = .ok ([byte], rest) := takeBytes_cons_one _ byte rest

@[simp]
theorem storage_take_leBytes (width n : Nat) (rest : Bytes) :
    Storage.Encoding.take (leBytes width n ++ rest) width = .ok (leBytes width n, rest) :=
  takeBytes_leBytes _ width n rest

@[simp]
theorem storage_take_beBytes (width n : Nat) (rest : Bytes) :
    Storage.Encoding.take (beBytes width n ++ rest) width = .ok (beBytes width n, rest) :=
  takeBytes_beBytes _ width n rest

theorem storage_take_append (bytes rest : Bytes) :
    Storage.Encoding.take (bytes ++ rest) bytes.length = .ok (bytes, rest) :=
  takeBytes_append _ bytes rest

theorem storage_orInvalid_eq_ok {reason : String} {size : Option Nat} {result : Nat} :
    Storage.Encoding.orInvalid reason size = .ok result ↔ size = some result := by
  cases size <;> simp [Storage.Encoding.orInvalid]

theorem boundNode_eq_ok {node node' : TypeNode} {value value' key key' : Nat}
    {input rest : Bytes} (h : boundNode node value key input = .ok (node', value', key', rest)) :
    value ≤ maxValueBytes ∧ node = node' ∧ value = value' ∧ key = key' ∧ input = rest := by
  unfold boundNode at h
  split_ifs at h with above
  simp only [Except.ok.injEq, Prod.mk.injEq] at h
  exact ⟨Nat.not_lt.mp above, h⟩

/-- What reading a descriptor as a schema yields when it describes this type. -/
def Ty.ReadAs (ty : Ty) (rest : Bytes) (result : TypeNode × Nat × Nat × Bytes) : Prop :=
  ty.Matches result.1 ∧ result.2.1 = ty.maxValueBytes ∧ result.2.2.1 = ty.maxKeyBytes ∧
    result.2.2.2 = rest

private theorem decodeFields_readAs
    {decode : Bytes → Except Storage.Error (TypeNode × Nat × Nat × Bytes)} {fields : List Ty}
    (each : ∀ field ∈ fields, ∀ rest result, decode (field.encodeType ++ rest) = .ok result →
      field.ReadAs rest result)
    {rest tail : Bytes} {value key value' key' : Nat} {nodes : List TypeNode}
    (h : Storage.Encoding.decodeFields decode fields.length (Ty.encodeTypes fields ++ rest)
      value key = .ok (nodes, value', key', tail)) :
    Ty.MatchesAll fields nodes ∧ value' = value + Ty.maxFieldsBytes fields ∧
      key' = key + Ty.maxKeysBytes fields ∧ tail = rest := by
  induction fields generalizing value key nodes with
  | nil =>
      simp only [Storage.Encoding.decodeFields, List.length_nil, Ty.encodeTypes, List.nil_append,
        Except.ok.injEq, Prod.mk.injEq] at h
      obtain ⟨rfl, rfl, rfl, rfl⟩ := h
      simp [Ty.MatchesAll, Ty.maxFieldsBytes, Ty.maxKeysBytes]
  | cons field fields ih =>
      simp only [Storage.Encoding.decodeFields, List.length_cons, Ty.encodeTypes,
        List.append_assoc, bind_eq_ok, storage_orInvalid_eq_ok, Prod.exists, pure_eq_ok,
        Except.ok.injEq, Prod.mk.injEq] at h
      obtain ⟨node, size, keySize, middle, first, next, sized, nextKey, keyed, others, _, _, _,
        decoded, rfl, rfl, rfl, rfl⟩ := h
      obtain ⟨matched, rfl, rfl, rfl⟩ := each field List.mem_cons_self _ _ first
      obtain ⟨added, -⟩ := Option.filter_eq_some_iff.mp sized
      obtain ⟨-, rfl⟩ := checkedAdd_eq_some.mp added
      obtain ⟨-, rfl⟩ := checkedAdd_eq_some.mp keyed
      obtain ⟨tails, rfl, rfl, rfl⟩ := ih (fun f member => each f (List.mem_cons_of_mem _ member))
        decoded
      refine ⟨⟨matched, tails⟩, ?_, ?_, rfl⟩
      · simp only [Ty.maxFieldsBytes]
        omega
      · simp only [Ty.maxKeysBytes]
        omega

/-- Reading the descriptor of a formed type as a schema yields the matching
storage type with the sizes of the type. -/
theorem decodeNode_readAs {levels : Nat} {ty : Ty} (formed : ty.Formed levels) {rest : Bytes}
    {result : TypeNode × Nat × Nat × Bytes}
    (h : decodeNode levels (ty.encodeType ++ rest) = .ok result) : ty.ReadAs rest result := by
  induction levels generalizing ty rest result with
  | zero => exact formed.elim
  | succ levels ih =>
      obtain ⟨size, shape⟩ := formed
      obtain ⟨node, value, key, tail⟩ := result
      cases ty with
      | unit | boolean | i64 | u64 =>
          simp only [decodeNode, Ty.encodeType, List.cons_append, List.nil_append,
            storage_take_cons_one, ok_bind, leNat_singleton, UInt8.reduceToNat] at h
          obtain ⟨-, rfl, rfl, rfl, rfl⟩ := boundNode_eq_ok h
          exact ⟨trivial, rfl, rfl, rfl⟩
      | bytes bound | string bound =>
          simp only [Ty.maxValueBytes, maxValueBytes] at size
          have small : bound < 256 ^ 4 := by omega
          simp only [decodeNode, decodeNode.decodeBounded, Ty.encodeType, List.cons_append,
            storage_take_cons_one, ok_bind, leNat_singleton, UInt8.reduceToNat,
            storage_take_leBytes, leNat_leBytes 4 _ small, bind_eq_ok, storage_orInvalid_eq_ok,
            Option.bind_eq_some_iff, checkedAdd_eq_some, checkedMul_eq_some] at h
          obtain ⟨_, ⟨-, rfl⟩, _, ⟨_, ⟨-, rfl⟩, -, rfl⟩, h⟩ := h
          obtain ⟨-, rfl, rfl, rfl, rfl⟩ := boundNode_eq_ok h
          exact ⟨rfl, Nat.add_comm _ _, rfl, rfl⟩
      | tuple fields =>
          obtain ⟨count, each⟩ := shape
          have small : fields.length < 256 ^ 2 := by omega
          simp only [decodeNode, Ty.encodeType, List.cons_append, storage_take_cons_one, ok_bind,
            leNat_singleton, UInt8.reduceToNat, List.append_assoc, storage_take_leBytes,
            leNat_leBytes 2 _ small, bind_eq_ok, refuse_eq_ok, Prod.exists, exists_const] at h
          obtain ⟨-, -, nodes, value', key', after, decoded, h⟩ := h
          obtain ⟨-, rfl, rfl, rfl, rfl⟩ := boundNode_eq_ok h
          obtain ⟨matched, rfl, rfl, rfl⟩ := decodeFields_readAs
            (fun field member rest result => ih (each field member)) decoded
          exact ⟨matched, Nat.zero_add _, Nat.zero_add _, rfl⟩
      | rows maximum key value =>
          simp [decodeNode, Ty.encodeType] at h

/-- A schema decoded from the descriptor of a formed type matches the type. -/
theorem schema_matches {ty : Ty} (formed : ty.Formed 16) {schema : Schema}
    (h : Schema.decode ty.descriptor = .ok schema) :
    ty.Matches schema.node ∧ schema.maxValueBytes = ty.maxValueBytes ∧
      schema.maxKeyBytes = ty.maxKeyBytes := by
  simp only [Schema.decode, Ty.descriptor, storage_take_leBytes, ok_bind, bind_eq_ok, refuse_eq_ok,
    Prod.exists, exists_const, pure_eq_ok, Except.ok.injEq] at h
  obtain ⟨_, -, -, node, value, key, rest, decoded, -, rfl⟩ := h
  rw [← List.append_nil ty.encodeType] at decoded
  obtain ⟨matched, rfl, rfl, -⟩ := decodeNode_readAs formed decoded
  exact ⟨matched, rfl, rfl⟩

/-! ## Keys -/

private theorem byte_le_one (flag : Bool) :
    ¬ leNat [if flag then (1 : UInt8) else 0] > 1 := by
  cases flag <;> simp

mutual

/-- Reading an accepted value yields its canonical key. -/
theorem readValue_encode : (ty : Ty) → (node : TypeNode) → (value : Value) → (rest : Bytes) →
    ty.Matches node → ty.accepts value = true → value.encodedLen < 2 ^ 32 →
    readValue node (value.encode ++ rest) = .ok (rest, value.keyBytes)
  | .unit, .unit, .unit, rest, _, _, _ => by simp [readValue, Value.encode, Value.keyBytes]
  | .boolean, .boolean, .boolean flag, rest, _, _, _ => by
      simp only [readValue, Value.encode, Value.keyBytes, List.cons_append, List.nil_append,
        storage_take_cons_one, ok_bind, refuse_of_not _ (byte_le_one flag), pure_eq_ok]
  | .i64, .i64, .i64 number, rest, _, _, _ => by
      have small : number.toBitVec.toNat < 256 ^ 8 := number.toBitVec.isLt
      simp [readValue, Value.encode, Value.keyBytes, leNat_leBytes 8 _ small]
  | .u64, .u64, .u64 number, rest, _, _, _ => by
      have small : number.toNat < 256 ^ 8 := number.toNat_lt
      simp [readValue, Value.encode, Value.keyBytes, leNat_leBytes 8 _ small]
  | .bytes bound, .bytes bound', .bytes data, rest, same, accepted, short => by
      simp only [Ty.Matches] at same
      simp only [Ty.accepts, decide_eq_true_eq] at accepted
      simp only [Value.encodedLen] at short
      have small : data.length < 256 ^ 4 := by omega
      simp [readValue, Value.encode, Value.keyBytes, List.append_assoc, leNat_leBytes 4 _ small,
        refuse_of_not _ (show ¬ data.length > bound' by omega), storage_take_append]
  | .string bound, .string bound', .string text, rest, same, accepted, short => by
      simp only [Ty.Matches] at same
      simp only [Ty.accepts, decide_eq_true_eq] at accepted
      simp only [Value.encodedLen] at short
      have small : (textBytes text).length < 256 ^ 4 := by omega
      simp [readValue, Value.encode, Value.keyBytes, List.append_assoc, leNat_leBytes 4 _ small,
        refuse_of_not _ (show ¬ (textBytes text).length > bound' by omega), storage_take_append]
  | .tuple types, .tuple nodes, .tuple values, rest, same, accepted, short => by
      simp only [readValue, Value.encode, Value.keyBytes]
      exact readValues_encode types nodes values rest same (by simpa [Ty.accepts] using accepted)
        short

theorem readValues_encode : (types : List Ty) → (nodes : List TypeNode) →
    (values : List Value) → (rest : Bytes) → Ty.MatchesAll types nodes →
    Ty.acceptsFields types values = true → Value.encodedLenFields values < 2 ^ 32 →
    readValues nodes (Value.encodeFields values ++ rest) = .ok (rest, Value.keysBytes values)
  | [], [], [], rest, _, _, _ => by simp [readValues, Value.encodeFields, Value.keysBytes]
  | ty :: types, node :: nodes, value :: values, rest, same, accepted, short => by
      simp only [Ty.acceptsFields, Bool.and_eq_true] at accepted
      simp only [Value.encodedLenFields] at short
      have first := readValue_encode ty node value (Value.encodeFields values ++ rest) same.1
        accepted.1 (by omega)
      have others := readValues_encode types nodes values rest same.2 accepted.2 (by omega)
      simp only [readValues, Value.encodeFields, List.append_assoc, first, ok_bind, others,
        pure_eq_ok, Value.keysBytes]

end

mutual

/-- Reading a canonical key yields the encoding of its value. -/
theorem readKey_keyBytes : (ty : Ty) → (node : TypeNode) → (value : Value) → (rest : Bytes) →
    ty.Matches node → ty.accepts value = true →
    readKey node (value.keyBytes ++ rest) = .ok (rest, value.encode)
  | .unit, .unit, .unit, rest, _, _ => by simp [readKey, Value.encode, Value.keyBytes]
  | .boolean, .boolean, .boolean flag, rest, _, _ => by
      simp only [readKey, Value.encode, Value.keyBytes, List.cons_append, List.nil_append,
        storage_take_cons_one, ok_bind, refuse_of_not _ (byte_le_one flag), pure_eq_ok]
  | .i64, .i64, .i64 number, rest, _, _ => by
      have small : flipSign number.toBitVec.toNat < 256 ^ 8 :=
        Storage.Encoding.flipSign_lt number.toBitVec.isLt
      simp [readKey, Value.encode, Value.keyBytes, beNat_beBytes 8 _ small,
        Storage.Encoding.flipSign_flipSign]
  | .u64, .u64, .u64 number, rest, _, _ => by
      have small : number.toNat < 256 ^ 8 := number.toNat_lt
      simp [readKey, Value.encode, Value.keyBytes, beNat_beBytes 8 _ small]
  | .bytes bound, .bytes bound', .bytes data, rest, same, accepted => by
      simp only [Ty.Matches] at same
      simp only [Ty.accepts, decide_eq_true_eq] at accepted
      simp [readKey, Value.encode, Value.keyBytes, Storage.Encoding.unescape_escapeInto,
        refuse_of_not _ (show ¬ data.length > bound' by omega)]
  | .string bound, .string bound', .string text, rest, same, accepted => by
      simp only [Ty.Matches] at same
      simp only [Ty.accepts, decide_eq_true_eq] at accepted
      simp [readKey, Value.encode, Value.keyBytes, Storage.Encoding.unescape_escapeInto,
        refuse_of_not _ (show ¬ (textBytes text).length > bound' by omega)]
  | .tuple types, .tuple nodes, .tuple values, rest, same, accepted => by
      simp only [readKey, Value.encode, Value.keyBytes]
      exact readKeys_keysBytes types nodes values rest same (by simpa [Ty.accepts] using accepted)

theorem readKeys_keysBytes : (types : List Ty) → (nodes : List TypeNode) →
    (values : List Value) → (rest : Bytes) → Ty.MatchesAll types nodes →
    Ty.acceptsFields types values = true →
    readKeys nodes (Value.keysBytes values ++ rest) = .ok (rest, Value.encodeFields values)
  | [], [], [], rest, _, _ => by simp [readKeys, Value.encodeFields, Value.keysBytes]
  | ty :: types, node :: nodes, value :: values, rest, same, accepted => by
      simp only [Ty.acceptsFields, Bool.and_eq_true] at accepted
      have first := readKey_keyBytes ty node value (Value.keysBytes values ++ rest) same.1
        accepted.1
      have others := readKeys_keysBytes types nodes values rest same.2 accepted.2
      simp only [readKeys, Value.keysBytes, List.append_assoc, first, ok_bind, others,
        pure_eq_ok, Value.encodeFields]

end

mutual

/-- The canonical key of an accepted value respects the bound of its type. -/
theorem length_keyBytes_le : (ty : Ty) → (value : Value) → ty.accepts value = true →
    value.keyBytes.length ≤ ty.maxKeyBytes
  | .unit, .unit, _ => le_rfl
  | .boolean, .boolean _, _ => le_rfl
  | .i64, .i64 _, _ | .u64, .u64 _, _ => by simp [Value.keyBytes, Ty.maxKeyBytes]
  | .bytes bound, .bytes data, h => by
      simp only [Ty.accepts, decide_eq_true_eq] at h
      have := Storage.Encoding.length_escapeInto_le data
      simp only [Value.keyBytes, Ty.maxKeyBytes]
      omega
  | .string bound, .string text, h => by
      simp only [Ty.accepts, decide_eq_true_eq] at h
      have := Storage.Encoding.length_escapeInto_le (textBytes text)
      simp only [Value.keyBytes, Ty.maxKeyBytes]
      omega
  | .tuple types, .tuple values, h =>
      length_keysBytes_le types values (by simpa [Ty.accepts] using h)
  | .rows _ _ _, .rows _, _ => le_rfl

theorem length_keysBytes_le : (types : List Ty) → (values : List Value) →
    Ty.acceptsFields types values = true →
    (Value.keysBytes values).length ≤ Ty.maxKeysBytes types
  | [], [], _ => le_rfl
  | ty :: types, value :: values, h => by
      simp only [Ty.acceptsFields, Bool.and_eq_true] at h
      have first := length_keyBytes_le ty value h.1
      have others := length_keysBytes_le types values h.2
      simp only [Value.keysBytes, Ty.maxKeysBytes, List.length_append]
      omega

end

/-- A key column as the catalogue admits it: a formed type whose descriptor is a
storage schema with keys of at most 1,024 bytes. -/
structure KeyColumn (ty : Ty) (schema : Schema) : Prop where
  /-- The type was decoded. -/
  formed : ty.Formed 16
  /-- Its descriptor is a schema. -/
  decoded : Schema.decode ty.descriptor = .ok schema
  /-- Its keys fit the user-key ceiling. -/
  short : schema.maxKeyBytes ≤ Storage.Encoding.maxKeyBytes

/-- Every value a key column accepts has a canonical key. -/
theorem KeyColumn.encodeKey {ty : Ty} {schema : Schema} (column : KeyColumn ty schema)
    {value : Value} (accepted : ty.accepts value = true) :
    Storage.Encoding.encodeKey schema value.encode = .ok value.keyBytes := by
  obtain ⟨matched, maxValue, -⟩ := schema_matches column.formed column.decoded
  have total := encodedLen_le ty value accepted
  have small := column.formed.size_le
  simp only [maxValueBytes] at small
  have read := readValue_encode ty schema.node value [] matched accepted (by omega)
  rw [List.append_nil] at read
  have fits : ¬ value.encode.length > schema.maxValueBytes := by
    rw [length_encode, maxValue]
    omega
  simp only [Storage.Encoding.encodeKey, refuse_of_not _ (Nat.not_lt.mpr column.short), ok_bind,
    refuse_of_not _ fits, read]
  rfl

/-- The canonical key decodes back to the encoding of its value. -/
theorem KeyColumn.decodeKey {ty : Ty} {schema : Schema} (column : KeyColumn ty schema)
    {value : Value} (accepted : ty.accepts value = true) :
    Storage.Encoding.decodeKey schema value.keyBytes = .ok value.encode := by
  obtain ⟨matched, -, maxKey⟩ := schema_matches column.formed column.decoded
  have read := readKey_keyBytes ty schema.node value [] matched accepted
  rw [List.append_nil] at read
  have fits : ¬ value.keyBytes.length > schema.maxKeyBytes := by
    rw [maxKey]
    exact Nat.not_lt.mpr (length_keyBytes_le ty value accepted)
  simp only [Storage.Encoding.decodeKey, refuse_of_not _ (Nat.not_lt.mpr column.short), ok_bind,
    refuse_of_not _ fits, read]
  rfl

theorem KeyColumn.length_keyBytes {ty : Ty} {schema : Schema} (column : KeyColumn ty schema)
    {value : Value} (accepted : ty.accepts value = true) :
    value.keyBytes.length ≤ Storage.Encoding.maxKeyBytes := by
  obtain ⟨-, -, maxKey⟩ := schema_matches column.formed column.decoded
  exact (length_keyBytes_le ty value accepted).trans (maxKey ▸ column.short)

end BlopDb.Vm
