/-
# Two decoders of one language

Storage and the machine each decode column descriptors and column values with
their own recursive reader.  The readers differ in what they check and when:
only storage adds up key sizes, only the machine compares minimum sizes, and
only the machine knows Rows.  They accept the same descriptors apart from Rows,
with the same value bound, and under one descriptor the same values.
-/

import BlopDb.Vm.KeyCodec

namespace BlopDb.Vm

open BlopDb.Lib
open Storage.Encoding (TypeNode Schema decodeNode boundNode escapeInto readValue readValues
  validateValue checkedAdd checkedMul)

/-! ## Descriptors storage accepts -/

private theorem byte_of_toNat {byte : UInt8} {n : Nat} (small : n < 256)
    (same : byte.toNat = n) : byte = UInt8.ofNat n :=
  UInt8.toNat_inj.mp (by rw [same, UInt8.toNat_ofNat', Nat.mod_eq_of_lt small])

private theorem decodeBounded_node_sound {make : Nat → TypeNode} {input : Bytes}
    {result : TypeNode × Nat × Nat × Bytes}
    (h : decodeNode.decodeBounded make input = .ok result) :
    ∃ bound, result.1 = make bound ∧ input = leBytes 4 bound ++ result.2.2.2 ∧
      result.2.1 = 4 + bound ∧ 4 + bound ≤ maxValueBytes ∧ result.2.2.1 = bound * 2 + 2 := by
  obtain ⟨node, value, key, rest⟩ := result
  simp only [decodeNode.decodeBounded, bind_eq_ok, storage_orInvalid_eq_ok, Prod.exists,
    Option.bind_eq_some_iff, checkedAdd_eq_some, checkedMul_eq_some] at h
  obtain ⟨bytes, after, split, _, ⟨-, rfl⟩, _, ⟨_, ⟨-, rfl⟩, -, rfl⟩, h⟩ := h
  obtain ⟨rfl, width⟩ := storage_take_exact split
  obtain ⟨small, rfl, rfl, rfl, rfl⟩ := boundNode_eq_ok h
  refine ⟨leNat bytes, rfl, ?_, Nat.add_comm _ _, by omega, rfl⟩
  rw [← width, leBytes_leNat]

private theorem decodeFields_node_sound
    {decode : Bytes → Except Storage.Error (TypeNode × Nat × Nat × Bytes)} {levels : Nat}
    (sound : ∀ input result, decode input = .ok result →
      ∃ ty : Ty, ty.Formed levels ∧ input = ty.encodeType ++ result.2.2.2 ∧
        ty.ReadAs result.2.2.2 result)
    {count : Nat} {input rest : Bytes} {value key value' key' : Nat} {nodes : List TypeNode}
    (h : Storage.Encoding.decodeFields decode count input value key =
      .ok (nodes, value', key', rest)) :
    ∃ fields : List Ty, fields.length = count ∧ (∀ field ∈ fields, field.Formed levels) ∧
      input = Ty.encodeTypes fields ++ rest ∧ Ty.MatchesAll fields nodes ∧
      value' = value + Ty.maxFieldsBytes fields ∧ key' = key + Ty.maxKeysBytes fields := by
  induction count generalizing input value key nodes with
  | zero =>
      simp only [Storage.Encoding.decodeFields, Except.ok.injEq, Prod.mk.injEq] at h
      obtain ⟨rfl, rfl, rfl, rfl⟩ := h
      exact ⟨[], rfl, by simp, by simp [Ty.encodeTypes], trivial, by simp [Ty.maxFieldsBytes],
        by simp [Ty.maxKeysBytes]⟩
  | succ count ih =>
      simp only [Storage.Encoding.decodeFields, bind_eq_ok, storage_orInvalid_eq_ok, Prod.exists,
        pure_eq_ok, Except.ok.injEq, Prod.mk.injEq] at h
      obtain ⟨node, size, keySize, middle, first, next, sized, nextKey, keyed, others, _, _, _,
        decoded, rfl, rfl, rfl, rfl⟩ := h
      obtain ⟨field, formed, rfl, matched, rfl, rfl, -⟩ := sound _ _ first
      obtain ⟨added, -⟩ := Option.filter_eq_some_iff.mp sized
      obtain ⟨-, rfl⟩ := checkedAdd_eq_some.mp added
      obtain ⟨-, rfl⟩ := checkedAdd_eq_some.mp keyed
      obtain ⟨fields, length, each, rfl, tails, rfl, rfl⟩ := ih decoded
      refine ⟨field :: fields, by simp [length], ?_, by simp [Ty.encodeTypes], ⟨matched, tails⟩,
        by simp only [Ty.maxFieldsBytes]; omega, by simp only [Ty.maxKeysBytes]; omega⟩
      intro other member
      rcases List.mem_cons.mp member with rfl | inTail
      · exact formed
      · exact each other inTail

/-- A node storage decodes is described by a formed type of the same structure
and sizes. -/
theorem decodeNode_sound {levels : Nat} {input : Bytes} {result : TypeNode × Nat × Nat × Bytes}
    (h : decodeNode levels input = .ok result) :
    ∃ ty : Ty, ty.Formed levels ∧ input = ty.encodeType ++ result.2.2.2 ∧
      ty.ReadAs result.2.2.2 result := by
  induction levels generalizing input result with
  | zero => simp [decodeNode] at h
  | succ levels ih =>
      obtain ⟨node, value, key, rest⟩ := result
      simp only [decodeNode, bind_eq_ok, Prod.exists] at h
      obtain ⟨tag, middle, split, h⟩ := h
      obtain ⟨byte, rfl, rfl⟩ := takeBytes_one split
      simp only [leNat_singleton] at h
      split at h
      · rename_i same
        obtain ⟨small, rfl, rfl, rfl, rfl⟩ := boundNode_eq_ok h
        exact ⟨.unit, ⟨small, trivial⟩,
          by simp [Ty.encodeType, byte_of_toNat (by norm_num) same], trivial, rfl, rfl, rfl⟩
      · rename_i same
        obtain ⟨small, rfl, rfl, rfl, rfl⟩ := boundNode_eq_ok h
        exact ⟨.boolean, ⟨small, trivial⟩,
          by simp [Ty.encodeType, byte_of_toNat (by norm_num) same], trivial, rfl, rfl, rfl⟩
      · rename_i same
        obtain ⟨small, rfl, rfl, rfl, rfl⟩ := boundNode_eq_ok h
        exact ⟨.i64, ⟨small, trivial⟩,
          by simp [Ty.encodeType, byte_of_toNat (by norm_num) same], trivial, rfl, rfl, rfl⟩
      · rename_i same
        obtain ⟨small, rfl, rfl, rfl, rfl⟩ := boundNode_eq_ok h
        exact ⟨.u64, ⟨small, trivial⟩,
          by simp [Ty.encodeType, byte_of_toNat (by norm_num) same], trivial, rfl, rfl, rfl⟩
      · rename_i same
        obtain ⟨bound, named, rfl, sized, small, keyed⟩ := decodeBounded_node_sound h
        dsimp only at named sized keyed
        subst named sized keyed
        exact ⟨.bytes bound, ⟨small, trivial⟩,
          by simp [Ty.encodeType, byte_of_toNat (by norm_num) same], rfl, rfl, rfl, rfl⟩
      · rename_i same
        obtain ⟨bound, named, rfl, sized, small, keyed⟩ := decodeBounded_node_sound h
        dsimp only at named sized keyed
        subst named sized keyed
        exact ⟨.string bound, ⟨small, trivial⟩,
          by simp [Ty.encodeType, byte_of_toNat (by norm_num) same], rfl, rfl, rfl, rfl⟩
      · rename_i same
        simp only [bind_eq_ok, refuse_eq_ok, Prod.exists, exists_const] at h
        obtain ⟨bytes, after, counted, few, -, nodes, total, totalKey, tail, decoded, h⟩ := h
        obtain ⟨rfl, width⟩ := storage_take_exact counted
        obtain ⟨fields, length, each, rfl, matched, rfl, rfl⟩ :=
          decodeFields_node_sound (fun _ _ => ih) decoded
        obtain ⟨small, rfl, rfl, rfl, rfl⟩ := boundNode_eq_ok h
        have count : leBytes 2 fields.length = bytes := by rw [length, ← width, leBytes_leNat]
        simp only [Nat.zero_add] at small
        refine ⟨.tuple fields, ⟨small, by omega, each⟩, ?_, matched, Nat.zero_add _,
          Nat.zero_add _, rfl⟩
        simp [Ty.encodeType, count, byte_of_toNat (by norm_num) same]
      · cases h
      · cases h

/-! ## Descriptors the machine accepts -/

/-- Rows at the top, the one type that is no column. -/
def Ty.isRows : Ty → Bool
  | .rows _ _ _ => true
  | _ => false

/-- Below the top level nothing is Rows. -/
theorem Ty.Formed.not_rows {levels : Nat} {ty : Ty} (formed : ty.Formed levels)
    (below : levels < 16) : ty.isRows = false := by
  cases levels with
  | zero => exact formed.elim
  | succ levels =>
      cases ty with
      | rows maximum key value =>
          obtain ⟨-, top, -⟩ := formed
          omega
      | unit | boolean | i64 | u64 | bytes | string | tuple => rfl

mutual

/-- A key at most doubles a value, so key sizes of formed types never overflow. -/
theorem maxKeyBytes_le : (ty : Ty) → ty.maxKeyBytes ≤ 2 * ty.maxValueBytes
  | .unit | .boolean | .i64 | .u64 => by simp [Ty.maxKeyBytes, Ty.maxValueBytes]
  | .bytes bound | .string bound => by
      simp only [Ty.maxKeyBytes, Ty.maxValueBytes]
      omega
  | .tuple fields => maxKeysBytes_le fields
  | .rows _ _ _ => Nat.zero_le _

theorem maxKeysBytes_le :
    (fields : List Ty) → Ty.maxKeysBytes fields ≤ 2 * Ty.maxFieldsBytes fields
  | [] => le_rfl
  | field :: fields => by
      have first := maxKeyBytes_le field
      have others := maxKeysBytes_le fields
      simp only [Ty.maxKeysBytes, Ty.maxFieldsBytes]
      omega

end

private theorem decodeFields_node_complete
    {decode : Bytes → Except Storage.Error (TypeNode × Nat × Nat × Bytes)} {fields : List Ty}
    (each : ∀ field ∈ fields, ∀ rest, ∃ node, field.Matches node ∧
      decode (field.encodeType ++ rest) =
        .ok (node, field.maxValueBytes, field.maxKeyBytes, rest))
    {value key : Nat} (bound : value + Ty.maxFieldsBytes fields ≤ maxValueBytes)
    (keyBound : key ≤ 2 * value) (rest : Bytes) :
    ∃ nodes, Ty.MatchesAll fields nodes ∧
      Storage.Encoding.decodeFields decode fields.length (Ty.encodeTypes fields ++ rest)
        value key =
          .ok (nodes, value + Ty.maxFieldsBytes fields, key + Ty.maxKeysBytes fields, rest) := by
  induction fields generalizing value key with
  | nil => exact ⟨[], trivial, by
      simp [Storage.Encoding.decodeFields, Ty.encodeTypes, Ty.maxFieldsBytes, Ty.maxKeysBytes]⟩
  | cons field fields ih =>
      simp only [Ty.maxFieldsBytes] at bound
      have keySize := maxKeyBytes_le field
      have ceiling : maxValueBytes < 2 ^ 32 := by norm_num [maxValueBytes]
      have small : value + field.maxValueBytes ≤ Storage.Encoding.maxValueBytes := by
        have : maxValueBytes = Storage.Encoding.maxValueBytes := rfl
        omega
      have fits : value + field.maxValueBytes < 2 ^ 64 := by omega
      have keyFits : key + field.maxKeyBytes < 2 ^ 64 := by omega
      obtain ⟨node, matched, first⟩ := each field List.mem_cons_self (Ty.encodeTypes fields ++ rest)
      obtain ⟨nodes, others, decoded⟩ := @ih
        (fun f member => each f (List.mem_cons_of_mem _ member))
        (value + field.maxValueBytes) (key + field.maxKeyBytes) (by omega) (by omega)
      refine ⟨node :: nodes, ⟨matched, others⟩, ?_⟩
      simp [Storage.Encoding.decodeFields, Ty.encodeTypes, List.append_assoc, first,
        checkedAdd_of_lt fits, checkedAdd_of_lt keyFits, Option.filter,
        Storage.Encoding.orInvalid, small, decoded, Ty.maxFieldsBytes, Ty.maxKeysBytes,
        Nat.add_assoc]

private theorem decodeBounded_node_complete (make : Nat → TypeNode) {bound : Nat}
    (small : 4 + bound ≤ maxValueBytes) (rest : Bytes) :
    decodeNode.decodeBounded make (leBytes 4 bound ++ rest) =
      .ok (make bound, 4 + bound, bound * 2 + 2, rest) := by
  simp only [maxValueBytes] at small
  have narrow : bound < 256 ^ 4 := by omega
  have ordered : ¬ 4 + bound > Storage.Encoding.maxValueBytes := Nat.not_lt.mpr small
  simp only [decodeNode.decodeBounded, storage_take_leBytes, ok_bind, leNat_leBytes 4 _ narrow]
  rw [checkedAdd_of_lt (by omega), checkedMul_of_lt (by omega), Option.bind_some,
    checkedAdd_of_lt (by omega)]
  simp only [Storage.Encoding.orInvalid, ok_bind, boundNode, if_neg ordered, Nat.add_comm bound 4]

/-- Storage decodes every formed type apart from Rows. -/
theorem decodeNode_complete {levels : Nat} {ty : Ty} (formed : ty.Formed levels)
    (shallow : levels ≤ 16) (column : ty.isRows = false) (rest : Bytes) :
    ∃ node, ty.Matches node ∧ decodeNode levels (ty.encodeType ++ rest) =
      .ok (node, ty.maxValueBytes, ty.maxKeyBytes, rest) := by
  induction levels generalizing ty rest with
  | zero => exact formed.elim
  | succ levels ih =>
      obtain ⟨size, shape⟩ := formed
      cases ty with
      | unit => exact ⟨.unit, trivial, by simp [decodeNode, Ty.encodeType, boundNode,
          Ty.maxValueBytes, Ty.maxKeyBytes]⟩
      | boolean => exact ⟨.boolean, trivial, by simp [decodeNode, Ty.encodeType, boundNode,
          Ty.maxValueBytes, Ty.maxKeyBytes, Storage.Encoding.maxValueBytes]⟩
      | i64 => exact ⟨.i64, trivial, by simp [decodeNode, Ty.encodeType, boundNode,
          Ty.maxValueBytes, Ty.maxKeyBytes, Storage.Encoding.maxValueBytes]⟩
      | u64 => exact ⟨.u64, trivial, by simp [decodeNode, Ty.encodeType, boundNode,
          Ty.maxValueBytes, Ty.maxKeyBytes, Storage.Encoding.maxValueBytes]⟩
      | bytes bound => exact ⟨.bytes bound, rfl, by simp [decodeNode, Ty.encodeType,
          decodeBounded_node_complete TypeNode.bytes size, Ty.maxValueBytes, Ty.maxKeyBytes]⟩
      | string bound => exact ⟨.string bound, rfl, by simp [decodeNode, Ty.encodeType,
          decodeBounded_node_complete TypeNode.string size, Ty.maxValueBytes, Ty.maxKeyBytes]⟩
      | tuple fields =>
          obtain ⟨count, each⟩ := shape
          simp only [Ty.maxValueBytes] at size
          have small : fields.length < 256 ^ 2 := by omega
          have long := length_le_encodeTypes fields
          have enough : ¬ fields.length > (Ty.encodeTypes fields ++ rest).length := by
            simp only [List.length_append]
            omega
          have notAbove : ¬ Ty.maxFieldsBytes fields > Storage.Encoding.maxValueBytes :=
            Nat.not_lt.mpr size
          obtain ⟨nodes, matched, decoded⟩ := decodeFields_node_complete
            (fun field member => ih (each field member) (by omega)
              ((each field member).not_rows (by omega)))
            (show 0 + Ty.maxFieldsBytes fields ≤ maxValueBytes by omega) (le_refl 0) rest
          refine ⟨.tuple nodes, matched, ?_⟩
          simp only [decodeNode, Ty.encodeType, List.cons_append, storage_take_cons_one, ok_bind,
            leNat_singleton, UInt8.reduceToNat, List.append_assoc, storage_take_leBytes,
            leNat_leBytes 2 _ small, refuse_of_not _ (show ¬ fields.length > 256 by omega),
            refuse_of_not _ enough, decoded, Nat.zero_add, boundNode, if_neg notAbove,
            Ty.maxValueBytes, Ty.maxKeyBytes]
      | rows maximum key value => cases column

/-! ## Values -/

/-- A byte of at most one is the byte of a Boolean. -/
theorem exists_flag {byte : UInt8} (binary : ¬ byte.toNat > 1) :
    ∃ flag : Bool, byte = if flag then 1 else 0 := by
  rcases Nat.le_one_iff_eq_zero_or_eq_one.mp (Nat.not_lt.mp binary) with zero | one
  · exact ⟨false, byte_of_toNat (by norm_num) zero⟩
  · exact ⟨true, byte_of_toNat (by norm_num) one⟩

mutual

/-- What storage reads as a value is the encoding of a value the type accepts,
and the key it produces is that value's. -/
theorem readValue_sound : (ty : Ty) → (node : TypeNode) → (input : Bytes) →
    (result : Bytes × Bytes) → ty.Matches node → readValue node input = .ok result →
    ∃ value : Value, ty.accepts value = true ∧ input = value.encode ++ result.1 ∧
      result.2 = value.keyBytes
  | .unit, .unit, input, result, _, h => by
      cases h
      exact ⟨.unit, rfl, rfl, rfl⟩
  | .boolean, .boolean, input, result, _, h => by
      simp only [readValue, bind_eq_ok, refuse_eq_ok, Prod.exists, exists_const, pure_eq_ok,
        Except.ok.injEq] at h
      obtain ⟨byte, rest, split, binary, rfl⟩ := h
      obtain ⟨byte, rfl, rfl⟩ := takeBytes_one split
      rw [leNat_singleton] at binary
      obtain ⟨flag, rfl⟩ := exists_flag binary
      exact ⟨.boolean flag, rfl, rfl, rfl⟩
  | .i64, .i64, input, result, _, h => by
      simp only [readValue, bind_eq_ok, Prod.exists, pure_eq_ok, Except.ok.injEq] at h
      obtain ⟨number, rest, split, rfl⟩ := h
      obtain ⟨rfl, width⟩ := storage_take_exact split
      have small : leNat number < 2 ^ 64 := by
        have := leNat_lt number
        rw [width] at this
        omega
      refine ⟨.i64 (Int64.ofBitVec (BitVec.ofNat 64 (leNat number))), rfl, ?_⟩
      simp only [Value.encode, Value.keyBytes, Int64.toBitVec_ofBitVec, BitVec.toNat_ofNat,
        Nat.mod_eq_of_lt small, and_true]
      rw [← width, leBytes_leNat]
  | .u64, .u64, input, result, _, h => by
      simp only [readValue, bind_eq_ok, Prod.exists, pure_eq_ok, Except.ok.injEq] at h
      obtain ⟨number, rest, split, rfl⟩ := h
      obtain ⟨rfl, width⟩ := storage_take_exact split
      have small : leNat number < 2 ^ 64 := by
        have := leNat_lt number
        rw [width] at this
        omega
      refine ⟨.u64 (UInt64.ofNat (leNat number)), rfl, ?_⟩
      simp only [Value.encode, Value.keyBytes, UInt64.toNat_ofNat', Nat.mod_eq_of_lt small,
        and_true]
      rw [← width, leBytes_leNat]
  | .bytes bound, .bytes bound', input, result, same, h => by
      simp only [Ty.Matches] at same
      simp only [readValue, bind_eq_ok, refuse_eq_ok, Prod.exists, exists_const, pure_eq_ok,
        Except.ok.injEq] at h
      obtain ⟨length, middle, counted, within, data, rest, split, rfl⟩ := h
      obtain ⟨rfl, width⟩ := storage_take_exact counted
      obtain ⟨rfl, exact⟩ := storage_take_exact split
      refine ⟨.bytes data, by simp [Ty.accepts]; omega, ?_, rfl⟩
      rw [Value.encode, exact, ← width, leBytes_leNat, List.append_assoc]
  | .string bound, .string bound', input, result, same, h => by
      simp only [Ty.Matches] at same
      simp only [readValue, bind_eq_ok, refuse_eq_ok, Prod.exists, exists_const, pure_eq_ok,
        Except.ok.injEq] at h
      obtain ⟨length, middle, counted, within, data, rest, split, valid, rfl⟩ := h
      obtain ⟨rfl, width⟩ := storage_take_exact counted
      obtain ⟨rfl, exact⟩ := storage_take_exact split
      obtain ⟨text, decoded⟩ := Option.ne_none_iff_exists'.mp valid
      have bytes := textBytes_of_fromUtf8 decoded
      refine ⟨.string text, by simp [Ty.accepts, bytes]; omega, ?_, by rw [Value.keyBytes, bytes]⟩
      rw [Value.encode, bytes, exact, ← width, leBytes_leNat, List.append_assoc]
  | .tuple types, .tuple nodes, input, result, same, h => by
      obtain ⟨values, accepted, whole, key⟩ := readValues_sound types nodes input result same
        (by simpa [readValue] using h)
      exact ⟨.tuple values, by simpa [Ty.accepts] using accepted, by rw [Value.encode, whole],
        by rw [Value.keyBytes, key]⟩

theorem readValues_sound : (types : List Ty) → (nodes : List TypeNode) → (input : Bytes) →
    (result : Bytes × Bytes) → Ty.MatchesAll types nodes → readValues nodes input = .ok result →
    ∃ values : List Value, Ty.acceptsFields types values = true ∧
      input = Value.encodeFields values ++ result.1 ∧ result.2 = Value.keysBytes values
  | [], [], input, result, _, h => by
      cases h
      exact ⟨[], rfl, rfl, rfl⟩
  | ty :: types, node :: nodes, input, result, same, h => by
      simp only [readValues, bind_eq_ok, Prod.exists, pure_eq_ok, Except.ok.injEq] at h
      obtain ⟨middle, key, first, rest, keys, others, rfl⟩ := h
      obtain ⟨value, accepted, rfl, rfl⟩ := readValue_sound ty node _ _ same.1 first
      obtain ⟨values, tail, whole, rfl⟩ := readValues_sound types nodes _ _ same.2 others
      dsimp only at whole
      subst whole
      exact ⟨value :: values, by simp [Ty.acceptsFields, accepted, tail],
        by simp [Value.encodeFields], by simp [Value.keysBytes]⟩

end

/-! ## Agreement -/

/-- A descriptor storage decodes is one the machine decodes to a column type. -/
theorem Schema.typed {descriptor : Bytes} {schema : Schema}
    (h : Schema.decode descriptor = .ok schema) :
    ∃ ty, Ty.decode descriptor = .ok ty ∧ ty.isRows = false ∧ ty.Formed 16 ∧
      ty.Matches schema.node ∧ schema.maxValueBytes = ty.maxValueBytes ∧
      schema.maxKeyBytes = ty.maxKeyBytes := by
  simp only [Schema.decode, bind_eq_ok, refuse_eq_ok, Prod.exists, exists_const, pure_eq_ok,
    Except.ok.injEq] at h
  obtain ⟨short, version, input, split, one, node, value, key, rest, decoded, done, rfl⟩ := h
  obtain ⟨rfl, width⟩ := storage_take_exact split
  obtain ⟨ty, formed, rfl, matched, rfl, rfl, -⟩ := decodeNode_sound decoded
  have named : leBytes 2 1 = version := by
    rw [show 1 = leNat version by omega, ← width, leBytes_leNat]
  have whole : version ++ (ty.encodeType ++ rest) = ty.descriptor := by
    simp [Ty.descriptor, named, not_not.mp done]
  have column : ty.isRows = false := by
    cases ty with
    | rows => cases node <;> exact matched.elim
    | unit | boolean | i64 | u64 | bytes | string | tuple => rfl
  refine ⟨ty, ?_, column, formed, matched, rfl, rfl⟩
  rw [whole] at short ⊢
  exact Ty.decode_descriptor formed (Nat.not_lt.mp short)

/-- A descriptor the machine decodes to a column type is a schema. -/
theorem Ty.stored {descriptor : Bytes} {ty : Ty} (h : Ty.decode descriptor = .ok ty)
    (column : ty.isRows = false) : ∃ schema, Schema.decode descriptor = .ok schema := by
  obtain ⟨rfl, formed, short⟩ := Ty.decode_sound h
  obtain ⟨node, -, decoded⟩ := decodeNode_complete formed le_rfl column []
  rw [List.append_nil] at decoded
  have split : Storage.Encoding.take ty.descriptor 2 = .ok (leBytes 2 1, ty.encodeType) :=
    storage_take_leBytes 2 1 _
  have within : ¬ ty.descriptor.length > Storage.Encoding.maxDescriptorBytes :=
    Nat.not_lt.mpr short
  refine ⟨⟨ty.descriptor, node, ty.maxValueBytes, ty.maxKeyBytes⟩, ?_⟩
  simp only [Schema.decode, refuse_of_not _ within, ok_bind, split, decoded]
  rfl

/-- Storage validation accepts exactly the encodings of the accepted values. -/
theorem validateValue_iff {ty : Ty} {schema : Schema} (formed : ty.Formed 16)
    (matched : ty.Matches schema.node) (sized : schema.maxValueBytes = ty.maxValueBytes)
    (encoded : Bytes) : validateValue schema encoded = .ok () ↔
      ∃ value, ty.accepts value = true ∧ encoded = value.encode := by
  simp only [validateValue, bind_eq_ok, refuse_eq_ok, Prod.exists, exists_const]
  constructor
  · rintro ⟨-, rest, key, read, done⟩
    obtain ⟨value, accepted, whole, -⟩ := readValue_sound ty _ _ _ matched read
    dsimp only at whole
    rw [not_not.mp done, List.append_nil] at whole
    exact ⟨value, accepted, whole⟩
  · rintro ⟨value, accepted, rfl⟩
    have total := encodedLen_le ty value accepted
    have ceiling := formed.size_le
    simp only [maxValueBytes] at ceiling
    have read := readValue_encode ty schema.node value [] matched accepted (by omega)
    rw [List.append_nil] at read
    refine ⟨?_, [], value.keyBytes, read, by simp⟩
    rw [length_encode, sized]
    omega

/-- The machine decodes exactly the encodings of the accepted values. -/
theorem decodeValue_iff {ty : Ty} (formed : ty.Formed 16) (encoded : Bytes) :
    (∃ value, decodeValue ty encoded = .ok value) ↔
      ∃ value, ty.accepts value = true ∧ encoded = value.encode := by
  constructor
  · rintro ⟨value, decoded⟩
    obtain ⟨whole, accepted⟩ := decodeValue_sound decoded
    exact ⟨value, accepted, whole⟩
  · rintro ⟨value, accepted, rfl⟩
    exact ⟨value, decodeValue_encode formed accepted⟩

/-- Both decoders accept the same column descriptors, with the same value bound,
and under one descriptor the same values. -/
theorem schemas_agree (descriptor : Bytes) :
    ((∃ schema, Schema.decode descriptor = .ok schema) ↔
      ∃ ty, Ty.decode descriptor = .ok ty ∧ ty.isRows = false) ∧
    ∀ schema ty, Schema.decode descriptor = .ok schema → Ty.decode descriptor = .ok ty →
      schema.maxValueBytes = ty.maxValueBytes ∧
        ∀ encoded, validateValue schema encoded = .ok () ↔
          ∃ value, decodeValue ty encoded = .ok value := by
  refine ⟨⟨?_, ?_⟩, ?_⟩
  · rintro ⟨schema, stored⟩
    obtain ⟨ty, decoded, column, -⟩ := Schema.typed stored
    exact ⟨ty, decoded, column⟩
  · rintro ⟨ty, decoded, column⟩
    exact Ty.stored decoded column
  · intro schema ty stored decoded
    obtain ⟨ty', decoded', -, formed, matched, sized, -⟩ := Schema.typed stored
    obtain rfl : ty = ty' := Except.ok.inj (decoded.symm.trans decoded')
    refine ⟨sized, fun encoded => ?_⟩
    rw [validateValue_iff formed matched sized, decodeValue_iff formed]

namespace Sample

/-- A pair of a text of at most two bytes and a Boolean: both decoders accept
the descriptor and the value. -/
theorem pair_agrees :
    ∃ schema, Schema.decode [1, 0, 6, 2, 0, 5, 2, 0, 0, 0, 1] = .ok schema ∧
      schema.maxValueBytes = 7 ∧
      validateValue schema [1, 0, 0, 0, 104, 1] = .ok () := by
  have decoded : Ty.decode [1, 0, 6, 2, 0, 5, 2, 0, 0, 0, 1] =
      .ok (.tuple [.string 2, .boolean]) := by rfl
  obtain ⟨same, agree⟩ := schemas_agree [1, 0, 6, 2, 0, 5, 2, 0, 0, 0, 1]
  obtain ⟨schema, stored⟩ := same.mpr ⟨_, decoded, rfl⟩
  obtain ⟨sized, values⟩ := agree schema _ stored decoded
  refine ⟨schema, stored, sized, (values _).mpr ⟨.tuple [.string "h", .boolean true], ?_⟩⟩
  have accepted : (Ty.tuple [.string 2, .boolean]).accepts
      (.tuple [.string "h", .boolean true]) = true := by decide
  exact decodeValue_encode (Ty.decode_sound decoded).2.1 accepted

end Sample

end BlopDb.Vm
