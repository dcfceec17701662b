/-
# Encoded values round-trip

Decoding a value under a type accepts exactly the encodings of the values the
type accepts.  The two halves are separate: what is decoded is accepted and
re-encodes to the bytes that were read, and what a formed type accepts decodes
back from its encoding.
-/

import BlopDb.Vm.TypeCodec

namespace BlopDb.Vm

open BlopDb.Lib
open Storage.Encoding (checkedAdd checkedMul)

/-! ## Lengths -/

mutual

theorem length_encode : (value : Value) → value.encode.length = value.encodedLen
  | .unit => rfl
  | .boolean _ => rfl
  | .i64 _ | .u64 _ => by simp [Value.encode, Value.encodedLen]
  | .bytes _ | .string _ => by simp [Value.encode, Value.encodedLen]
  | .tuple fields => by simp [Value.encode, Value.encodedLen, length_encodeFields fields]
  | .rows entries => by simp [Value.encode, Value.encodedLen, length_encodeRows entries]

theorem length_encodeFields :
    (fields : List Value) → (Value.encodeFields fields).length = Value.encodedLenFields fields
  | [] => rfl
  | field :: fields => by
      simp [Value.encodeFields, Value.encodedLenFields, length_encode field,
        length_encodeFields fields]

theorem length_encodeRows :
    (rows : List (Value × Value)) →
      (Value.encodeRows rows).length = Value.encodedLenRows rows
  | [] => rfl
  | (key, value) :: rest => by
      simp [Value.encodeRows, Value.encodedLenRows, length_encode key, length_encode value,
        length_encodeRows rest, Nat.add_assoc]

end

/-- The row part of acceptance, read as four facts. -/
theorem accepts_rows {maximum : Nat} {key value : Ty} {entries : List (Value × Value)} :
    (Ty.rows maximum key value).accepts (.rows entries) = true ↔
      entries.length ≤ maximum ∧ entries.length ≤ maxRows ∧
        (∀ row ∈ entries, key.accepts row.1 = true ∧ value.accepts row.2 = true) ∧
        Ty.rowsOrdered entries = true := by
  simp only [Ty.accepts, Bool.and_eq_true, decide_eq_true_eq, List.all_eq_true, and_assoc]

mutual

/-- An accepted value is at least as long as the minimum of its type. -/
theorem minValueBytes_le : (ty : Ty) → (value : Value) → ty.accepts value = true →
    ty.minValueBytes ≤ value.encodedLen
  | .unit, .unit, _ | .boolean, .boolean _, _ | .i64, .i64 _, _ | .u64, .u64 _, _ => le_rfl
  | .bytes _, .bytes _, _ | .string _, .string _, _ => by simp [Ty.minValueBytes, Value.encodedLen]
  | .tuple types, .tuple values, h => minFieldsBytes_le types values (by simpa [Ty.accepts] using h)
  | .rows _ _ _, .rows _, _ => by simp [Ty.minValueBytes, Value.encodedLen]

theorem minFieldsBytes_le : (types : List Ty) → (values : List Value) →
    Ty.acceptsFields types values = true →
    Ty.minFieldsBytes types ≤ Value.encodedLenFields values
  | [], [], _ => le_rfl
  | ty :: types, value :: values, h => by
      simp only [Ty.acceptsFields, Bool.and_eq_true] at h
      have first := minValueBytes_le ty value h.1
      have others := minFieldsBytes_le types values h.2
      simp only [Ty.minFieldsBytes, Value.encodedLenFields]
      omega

end

private theorem minRowsBytes_le (bound : Nat) {rows : List (Value × Value)}
    (each : ∀ row ∈ rows, bound ≤ row.1.encodedLen + row.2.encodedLen) :
    rows.length * bound ≤ Value.encodedLenRows rows := by
  induction rows with
  | nil => simp [Value.encodedLenRows]
  | cons row rows ih =>
      have first := each row List.mem_cons_self
      have others := ih fun r member => each r (List.mem_cons_of_mem _ member)
      simp only [Value.encodedLenRows, List.length_cons, Nat.succ_mul]
      omega

mutual

theorem minValueBytes_le_max : (ty : Ty) → ty.minValueBytes ≤ ty.maxValueBytes
  | .unit | .boolean | .i64 | .u64 => le_rfl
  | .bytes _ | .string _ => by simp [Ty.minValueBytes, Ty.maxValueBytes]
  | .tuple fields => minFieldsBytes_le_max fields
  | .rows _ _ _ => by simp [Ty.minValueBytes, Ty.maxValueBytes]

theorem minFieldsBytes_le_max :
    (fields : List Ty) → Ty.minFieldsBytes fields ≤ Ty.maxFieldsBytes fields
  | [] => le_rfl
  | field :: fields =>
      Nat.add_le_add (minValueBytes_le_max field) (minFieldsBytes_le_max fields)

end

private theorem encodedLenRows_le (bound : Nat) {rows : List (Value × Value)}
    (each : ∀ row ∈ rows, row.1.encodedLen + row.2.encodedLen ≤ bound) :
    Value.encodedLenRows rows ≤ rows.length * bound := by
  induction rows with
  | nil => simp [Value.encodedLenRows]
  | cons row rows ih =>
      have first := each row List.mem_cons_self
      have others := ih fun r member => each r (List.mem_cons_of_mem _ member)
      simp only [Value.encodedLenRows, List.length_cons, Nat.succ_mul]
      omega

mutual

/-- An accepted value is at most as long as the maximum of its type. -/
theorem encodedLen_le : (ty : Ty) → (value : Value) → ty.accepts value = true →
    value.encodedLen ≤ ty.maxValueBytes
  | .unit, .unit, _ | .boolean, .boolean _, _ | .i64, .i64 _, _ | .u64, .u64 _, _ => le_rfl
  | .bytes _, .bytes _, h | .string _, .string _, h => by
      simpa [Ty.accepts, Ty.maxValueBytes, Value.encodedLen] using h
  | .tuple types, .tuple values, h =>
      encodedLenFields_le types values (by simpa [Ty.accepts] using h)
  | .rows maximum key value, .rows entries, h => by
      obtain ⟨few, -, each, -⟩ := accepts_rows.mp h
      have rowBound := encodedLenRows_le (key.maxValueBytes + value.maxValueBytes)
        fun row member => Nat.add_le_add (encodedLen_le key row.1 (each row member).1)
          (encodedLen_le value row.2 (each row member).2)
      have total := Nat.mul_le_mul_right (key.maxValueBytes + value.maxValueBytes) few
      simp only [Value.encodedLen, Ty.maxValueBytes]
      omega

theorem encodedLenFields_le : (types : List Ty) → (values : List Value) →
    Ty.acceptsFields types values = true →
    Value.encodedLenFields values ≤ Ty.maxFieldsBytes types
  | [], [], _ => le_rfl
  | ty :: types, value :: values, h => by
      simp only [Ty.acceptsFields, Bool.and_eq_true] at h
      have first := encodedLen_le ty value h.1
      have others := encodedLenFields_le types values h.2
      simp only [Ty.maxFieldsBytes, Value.encodedLenFields]
      omega

end

/-! ## Decoding then encoding -/

private theorem decodeRows_sound {decodeKey decodeValue : Bytes → Except Error (Value × Bytes)}
    {goodKey good : Value → Prop}
    (soundKey : ∀ input value rest, decodeKey input = .ok (value, rest) →
      input = value.encode ++ rest ∧ goodKey value)
    (sound : ∀ input value rest, decodeValue input = .ok (value, rest) →
      input = value.encode ++ rest ∧ good value)
    {count : Nat} {previous : Option Value} {input rest : Bytes} {rows : List (Value × Value)}
    (h : decodeRows decodeKey decodeValue count previous input = .ok (rows, rest)) :
    rows.length = count ∧ input = Value.encodeRows rows ++ rest ∧
      (∀ row ∈ rows, goodKey row.1 ∧ good row.2) ∧ Ty.rowsOrdered rows = true ∧
      ∀ row, rows.head? = some row → ∀ last ∈ previous, Value.lt last row.1 = true := by
  induction count generalizing previous input rows with
  | zero =>
      simp only [decodeRows, Except.ok.injEq, Prod.mk.injEq] at h
      obtain ⟨rfl, rfl⟩ := h
      simp [Value.encodeRows, Ty.rowsOrdered]
  | succ count ih =>
      simp only [decodeRows, bind_eq_ok, refuse_eq_ok, Prod.exists, exists_const, pure_eq_ok,
        Except.ok.injEq, Prod.mk.injEq] at h
      obtain ⟨key, middle, first, increasing, value, after, second, others, tail, decoded,
        rfl, rfl⟩ := h
      obtain ⟨rfl, keyGood⟩ := soundKey _ _ _ first
      obtain ⟨rfl, valueGood⟩ := sound _ _ _ second
      obtain ⟨length, rfl, each, ordered, chained⟩ := ih decoded
      refine ⟨by simp [length], by simp [Value.encodeRows], ?_, ?_, ?_⟩
      · intro row member
        rcases List.mem_cons.mp member with rfl | inTail
        · exact ⟨keyGood, valueGood⟩
        · exact each row inTail
      · cases others with
        | nil => rfl
        | cons next rest =>
            have step := chained next rfl key rfl
            simp [Ty.rowsOrdered, step, ordered]
      · intro row headed last member
        simp only [List.head?_cons, Option.some.injEq] at headed
        subst headed
        simpa [Option.mem_def.mp member] using increasing

mutual

/-- A decoded value is accepted by its type and its encoding is what was read. -/
theorem decodeValueNode_sound : (ty : Ty) → (input : Bytes) → (value : Value) → (rest : Bytes) →
    decodeValueNode ty input = .ok (value, rest) →
    input = value.encode ++ rest ∧ ty.accepts value = true
  | .unit, input, value, rest, h => by
      simp only [decodeValueNode] at h
      split_ifs at h
      simp only [Except.ok.injEq, Prod.mk.injEq] at h
      obtain ⟨rfl, rfl⟩ := h
      simp [Value.encode, Ty.accepts]
  | .boolean, input, value, rest, h => by
      simp only [decodeValueNode] at h
      split_ifs at h
      simp only [bind_eq_ok, Prod.exists] at h
      obtain ⟨bytes, middle, split, h⟩ := h
      obtain ⟨byte, rfl, rfl⟩ := take_one split
      simp only [leNat_singleton] at h
      split at h
      · rename_i zero
        simp only [pure_eq_ok, Except.ok.injEq, Prod.mk.injEq] at h
        obtain ⟨rfl, rfl⟩ := h
        have named : byte = 0 := UInt8.toNat_inj.mp zero
        simp [Value.encode, Ty.accepts, named]
      · rename_i one
        simp only [pure_eq_ok, Except.ok.injEq, Prod.mk.injEq] at h
        obtain ⟨rfl, rfl⟩ := h
        have named : byte = 1 := UInt8.toNat_inj.mp one
        simp [Value.encode, Ty.accepts, named]
      · cases h
  | .i64, input, value, rest, h => by
      simp only [decodeValueNode] at h
      split_ifs at h
      simp only [bind_eq_ok, Prod.exists, pure_eq_ok, Except.ok.injEq, Prod.mk.injEq] at h
      obtain ⟨bytes, middle, split, rfl, rfl⟩ := h
      obtain ⟨rfl, width⟩ := take_exact split
      have small : leNat bytes < 2 ^ 64 := by simpa [width] using leNat_lt bytes
      refine ⟨?_, rfl⟩
      have same : (Int64.ofBitVec (BitVec.ofNat 64 (leNat bytes))).toBitVec.toNat =
          leNat bytes := by
        rw [Int64.toBitVec_ofBitVec, BitVec.toNat_ofNat, Nat.mod_eq_of_lt small]
      rw [Value.encode, same, ← width, leBytes_leNat]
  | .u64, input, value, rest, h => by
      simp only [decodeValueNode] at h
      split_ifs at h
      simp only [bind_eq_ok, Prod.exists, pure_eq_ok, Except.ok.injEq, Prod.mk.injEq] at h
      obtain ⟨bytes, middle, split, rfl, rfl⟩ := h
      obtain ⟨rfl, width⟩ := take_exact split
      have small : leNat bytes < 2 ^ 64 := by simpa [width] using leNat_lt bytes
      refine ⟨?_, rfl⟩
      rw [Value.encode, UInt64.toNat_ofNat_of_lt' small, ← width, leBytes_leNat]
  | .bytes bound, input, value, rest, h => by
      simp only [decodeValueNode] at h
      split_ifs at h
      simp only [bind_eq_ok, refuse_eq_ok, Prod.exists, exists_const, pure_eq_ok,
        Except.ok.injEq, Prod.mk.injEq] at h
      obtain ⟨lengthBytes, middle, counted, within, data, after, split, rfl, rfl⟩ := h
      obtain ⟨rfl, width⟩ := take_exact counted
      obtain ⟨rfl, length⟩ := take_exact split
      refine ⟨?_, by simp [Ty.accepts, length]; omega⟩
      rw [Value.encode, length, ← width, leBytes_leNat, List.append_assoc]
  | .string bound, input, value, rest, h => by
      simp only [decodeValueNode] at h
      split_ifs at h
      simp only [bind_eq_ok, refuse_eq_ok, orInvalid_eq_ok, Prod.exists, exists_const, pure_eq_ok,
        Except.ok.injEq, Prod.mk.injEq] at h
      obtain ⟨lengthBytes, middle, counted, within, data, after, split, text, decoded, rfl, rfl⟩ := h
      obtain ⟨rfl, width⟩ := take_exact counted
      obtain ⟨rfl, length⟩ := take_exact split
      have bytes := textBytes_of_fromUtf8 decoded
      refine ⟨?_, by simp [Ty.accepts, bytes, length]; omega⟩
      rw [Value.encode, bytes, length, ← width, leBytes_leNat, List.append_assoc]
  | .tuple types, input, value, rest, h => by
      simp only [decodeValueNode] at h
      split_ifs at h
      simp only [bind_eq_ok, Prod.exists, pure_eq_ok, Except.ok.injEq, Prod.mk.injEq] at h
      obtain ⟨values, after, decoded, rfl, rfl⟩ := h
      obtain ⟨rfl, accepted⟩ := decodeValues_sound types input values after decoded
      exact ⟨by simp [Value.encode], by simpa [Ty.accepts] using accepted⟩
  | .rows maximum key value, input, result, rest, h => by
      simp only [decodeValueNode] at h
      split_ifs at h
      simp only [bind_eq_ok, refuse_eq_ok, orInvalid_eq_ok, Prod.exists, exists_const, pure_eq_ok,
        Except.ok.injEq, Prod.mk.injEq] at h
      obtain ⟨count, middle, counted, within, _, -, -, rows, after, decoded, rfl, rfl⟩ := h
      obtain ⟨rfl, width⟩ := take_exact counted
      obtain ⟨length, rfl, each, ordered, -⟩ := decodeRows_sound
        (fun input => decodeValueNode_sound key input)
        (fun input => decodeValueNode_sound value input) decoded
      refine ⟨?_, accepts_rows.mpr ⟨by omega, by omega, each, ordered⟩⟩
      rw [Value.encode, length, ← width, leBytes_leNat, List.append_assoc]

theorem decodeValues_sound : (types : List Ty) → (input : Bytes) → (values : List Value) →
    (rest : Bytes) → decodeValues types input = .ok (values, rest) →
    input = Value.encodeFields values ++ rest ∧ Ty.acceptsFields types values = true
  | [], input, values, rest, h => by
      simp only [decodeValues, Except.ok.injEq, Prod.mk.injEq] at h
      obtain ⟨rfl, rfl⟩ := h
      simp [Value.encodeFields, Ty.acceptsFields]
  | ty :: types, input, values, rest, h => by
      simp only [decodeValues, bind_eq_ok, Prod.exists, pure_eq_ok, Except.ok.injEq,
        Prod.mk.injEq] at h
      obtain ⟨first, middle, decoded, others, after, remaining, rfl, rfl⟩ := h
      obtain ⟨rfl, accepted⟩ := decodeValueNode_sound ty _ _ _ decoded
      obtain ⟨rfl, rest_accepted⟩ := decodeValues_sound types _ _ _ remaining
      exact ⟨by simp [Value.encodeFields], by simp [Ty.acceptsFields, accepted, rest_accepted]⟩

end

/-- A decoded value is accepted by its type, and its encoding is the input. -/
theorem decodeValue_sound {ty : Ty} {bytes : Bytes} {value : Value}
    (h : decodeValue ty bytes = .ok value) : bytes = value.encode ∧ ty.accepts value = true := by
  simp only [decodeValue, bind_eq_ok, refuse_eq_ok, Prod.exists, exists_const, pure_eq_ok,
    Except.ok.injEq] at h
  obtain ⟨-, value', rest, decoded, done, rfl⟩ := h
  obtain ⟨rfl, accepted⟩ := decodeValueNode_sound ty _ _ _ decoded
  exact ⟨by simp [not_not.mp done], accepted⟩

/-! ## Encoding then decoding -/

theorem Ty.Formed.field {levels : Nat} {fields : List Ty}
    (formed : (Ty.tuple fields).Formed (levels + 1)) {field : Ty} (member : field ∈ fields) :
    field.Formed levels := formed.2.2 field member

private theorem lt_two_pow_of_accepted {levels : Nat} {ty : Ty} {value : Value}
    (formed : ty.Formed levels) (accepted : ty.accepts value = true) :
    value.encodedLen ≤ maxValueBytes :=
  (encodedLen_le ty value accepted).trans formed.size_le

private theorem decodeRows_encodeRows
    {decodeKey decodeValue : Bytes → Except Error (Value × Bytes)}
    {rows : List (Value × Value)}
    (each : ∀ row ∈ rows, ∀ rest, decodeKey (row.1.encode ++ rest) = .ok (row.1, rest) ∧
      decodeValue (row.2.encode ++ rest) = .ok (row.2, rest))
    (ordered : Ty.rowsOrdered rows = true) (previous : Option Value)
    (chained : ∀ row, rows.head? = some row → ∀ last ∈ previous, Value.lt last row.1 = true)
    (rest : Bytes) :
    decodeRows decodeKey decodeValue rows.length previous (Value.encodeRows rows ++ rest) =
      .ok (rows, rest) := by
  induction rows generalizing previous with
  | nil => simp [decodeRows, Value.encodeRows]
  | cons row rows ih =>
      obtain ⟨key, value⟩ := row
      have here := each (key, value) List.mem_cons_self
      have increasing : ¬ (previous.any fun last => !Value.lt last key) = true := by
        cases previous with
        | none => simp
        | some last => simpa using chained (key, value) rfl last rfl
      have tailOrdered : Ty.rowsOrdered rows = true := by
        cases rows with
        | nil => rfl
        | cons next others => simp_all [Ty.rowsOrdered]
      have tail := ih (fun r member => each r (List.mem_cons_of_mem _ member)) tailOrdered
        (some key) (fun next headed last member => by
          cases rows with
          | nil => cases headed
          | cons first others =>
              cases headed
              cases member
              simp only [Ty.rowsOrdered, Bool.and_eq_true] at ordered
              exact ordered.1)
      simp only [decodeRows, Value.encodeRows, List.append_assoc, List.length_cons,
        (here _).1, (here _).2, ok_bind, refuse_of_not _ increasing, tail, pure_eq_ok]

private theorem decodeValues_encodeFields {levels : Nat}
    (decodes : ∀ {ty : Ty} {value : Value}, ty.Formed levels → ty.accepts value = true →
      ∀ rest, decodeValueNode ty (value.encode ++ rest) = .ok (value, rest))
    {types : List Ty} {values : List Value} (formed : ∀ ty ∈ types, ty.Formed levels)
    (accepted : Ty.acceptsFields types values = true) (rest : Bytes) :
    decodeValues types (Value.encodeFields values ++ rest) = .ok (values, rest) := by
  induction types generalizing values with
  | nil =>
      cases values with
      | nil => simp [decodeValues, Value.encodeFields]
      | cons => simp [Ty.acceptsFields] at accepted
  | cons ty types ih =>
      cases values with
      | nil => simp [Ty.acceptsFields] at accepted
      | cons value values =>
          simp only [Ty.acceptsFields, Bool.and_eq_true] at accepted
          have tail := ih (fun t member => formed t (List.mem_cons_of_mem _ member)) accepted.2
          simp only [decodeValues, Value.encodeFields, List.append_assoc,
            decodes (formed ty List.mem_cons_self) accepted.1, ok_bind, tail, pure_eq_ok]

/-- What a formed type accepts decodes back from its encoding, whatever follows. -/
theorem decodeValueNode_encode {levels : Nat} {ty : Ty} {value : Value}
    (formed : ty.Formed levels) (accepted : ty.accepts value = true) (rest : Bytes) :
    decodeValueNode ty (value.encode ++ rest) = .ok (value, rest) := by
  induction levels generalizing ty value rest with
  | zero => exact formed.elim
  | succ levels ih =>
      have minimum := minValueBytes_le ty value accepted
      have total := lt_two_pow_of_accepted formed accepted
      have enough : ¬ ty.minValueBytes > (value.encode ++ rest).length := by
        rw [List.length_append, length_encode]
        omega
      simp only [maxValueBytes] at total
      cases ty <;> cases value <;> try (simp [Ty.accepts] at accepted; done)
      case unit.unit => simp [decodeValueNode, Ty.minValueBytes, Value.encode]
      case boolean.boolean flag =>
          cases flag <;>
            simp [decodeValueNode, Ty.minValueBytes, Value.encode]
      case i64.i64 number =>
          have small : number.toBitVec.toNat < 256 ^ 8 := number.toBitVec.isLt
          rw [decodeValueNode, if_neg enough]
          simp only [Value.encode, take_leBytes, ok_bind, leNat_leBytes 8 _ small,
            BitVec.ofNat_toNat, BitVec.setWidth_eq, Int64.ofBitVec_toBitVec, pure_eq_ok]
      case u64.u64 number =>
          have small : number.toNat < 256 ^ 8 := number.toNat_lt
          simp [decodeValueNode, Ty.minValueBytes, Value.encode, leNat_leBytes 8 _ small]
      case bytes.bytes bound data =>
          simp only [Ty.accepts, decide_eq_true_eq] at accepted
          simp only [Value.encodedLen] at total
          have small : data.length < 256 ^ 4 := by omega
          rw [decodeValueNode, if_neg enough]
          simp [Value.encode, List.append_assoc, leNat_leBytes 4 _ small, take_append,
            refuse_of_not _ (show ¬ data.length > bound by omega)]
      case string.string bound text =>
          simp only [Ty.accepts, decide_eq_true_eq] at accepted
          simp only [Value.encodedLen] at total
          have small : (textBytes text).length < 256 ^ 4 := by omega
          rw [decodeValueNode, if_neg enough]
          simp [Value.encode, List.append_assoc, leNat_leBytes 4 _ small, take_append, orInvalid,
            refuse_of_not _ (show ¬ (textBytes text).length > bound by omega)]
      case tuple.tuple types values =>
          have fields := decodeValues_encodeFields ih (fun ty member => formed.field member)
            (by simpa [Ty.accepts] using accepted) rest
          rw [decodeValueNode, if_neg enough]
          simp [Value.encode, fields]
      case rows.rows maximum key value rows =>
          obtain ⟨few, fits, each, ordered⟩ := accepts_rows.mp accepted
          obtain ⟨-, -, -, keyFormed, valueFormed⟩ := formed
          have small : rows.length < 256 ^ 4 := by
            simp only [maxRows] at fits
            omega
          have keyMin := (minValueBytes_le_max key).trans keyFormed.size_le
          have valueMin := (minValueBytes_le_max value).trans valueFormed.size_le
          have rowsMin := minRowsBytes_le (key.minValueBytes + value.minValueBytes)
            fun row member => Nat.add_le_add (minValueBytes_le key row.1 (each row member).1)
              (minValueBytes_le value row.2 (each row member).2)
          simp only [maxValueBytes] at keyMin valueMin
          simp only [Value.encodedLen] at total
          have long : ¬ (key.minValueBytes + value.minValueBytes) * rows.length >
              (Value.encodeRows rows ++ rest).length := by
            rw [List.length_append, length_encodeRows, Nat.mul_comm]
            omega
          have decoded := decodeRows_encodeRows
            (fun row member rest => ⟨ih keyFormed (each row member).1 rest,
              ih valueFormed (each row member).2 rest⟩) ordered none (by simp) rest
          rw [decodeValueNode, if_neg enough]
          simp only [Value.encode, List.append_assoc, take_leBytes, ok_bind,
            leNat_leBytes 4 _ small,
            refuse_of_not _ (show ¬ (rows.length > maximum ∨ rows.length > maxRows) by omega)]
          rw [checkedAdd_of_lt (by omega), Option.bind_some,
            checkedMul_of_lt (by rw [Nat.mul_comm]; omega)]
          simp only [orInvalid, ok_bind, refuse_of_not _ long, decoded, pure_eq_ok]

/-- A value accepted by a decoded type decodes back from its encoding. -/
theorem decodeValue_encode {levels : Nat} {ty : Ty} {value : Value} (formed : ty.Formed levels)
    (accepted : ty.accepts value = true) : decodeValue ty value.encode = .ok value := by
  have decoded := decodeValueNode_encode formed accepted []
  rw [List.append_nil] at decoded
  have short := encodedLen_le ty value accepted
  have total := formed.size_le
  have within : ¬ (value.encode.length > maxValueBytes ∨
      value.encode.length > ty.maxValueBytes) := by
    rw [length_encode]
    omega
  simp only [decodeValue, refuse_of_not _ within, ok_bind, decoded]
  rfl

mutual

/-- An accepted value of bounded size has lengths that fit their prefixes. -/
theorem lengthsFit_of_short : (value : Value) → value.encodedLen < 2 ^ 32 →
    (∀ ty : Ty, ty.accepts value = true → value.lengthsFit = true)
  | .unit, _, _, _ | .boolean _, _, _, _ | .i64 _, _, _, _ | .u64 _, _, _, _ => rfl
  | .bytes data, short, _, _ => by
      simp only [Value.encodedLen] at short
      simp only [Value.lengthsFit, decide_eq_true_eq]
      omega
  | .string text, short, _, _ => by
      simp only [Value.encodedLen] at short
      simp only [Value.lengthsFit, decide_eq_true_eq]
      omega
  | .tuple fields, short, ty, accepted => by
      cases ty <;> simp only [Ty.accepts, Bool.false_eq_true] at accepted
      exact lengthsFitAll_of_short fields short _ accepted
  | .rows rows, short, ty, accepted => by
      cases ty <;> try (simp [Ty.accepts] at accepted; done)
      obtain ⟨-, few, each, -⟩ := accepts_rows.mp accepted
      simp only [Value.encodedLen] at short
      have fit := lengthsFitRows_of_short rows (by omega) _ _ each
      simp only [maxRows] at few
      simp only [Value.lengthsFit, fit, Bool.and_true, decide_eq_true_eq]
      omega

theorem lengthsFitAll_of_short : (fields : List Value) →
    Value.encodedLenFields fields < 2 ^ 32 →
    (∀ types : List Ty, Ty.acceptsFields types fields = true →
      Value.lengthsFitAll fields = true)
  | [], _, _, _ => rfl
  | field :: fields, short, [], accepted => by simp [Ty.acceptsFields] at accepted
  | field :: fields, short, ty :: types, accepted => by
      simp only [Ty.acceptsFields, Bool.and_eq_true] at accepted
      simp only [Value.encodedLenFields] at short
      simp [Value.lengthsFitAll, lengthsFit_of_short field (by omega) ty accepted.1,
        lengthsFitAll_of_short fields (by omega) types accepted.2]

theorem lengthsFitRows_of_short : (rows : List (Value × Value)) →
    Value.encodedLenRows rows < 2 ^ 32 →
    (∀ key value : Ty,
      (∀ row ∈ rows, key.accepts row.1 = true ∧ value.accepts row.2 = true) →
      Value.lengthsFitRows rows = true)
  | [], _, _, _, _ => rfl
  | (first, second) :: rest, short, key, value, each => by
      simp only [Value.encodedLenRows] at short
      have here := each (first, second) List.mem_cons_self
      have others := lengthsFitRows_of_short rest (by omega) key value
        fun row member => each row (List.mem_cons_of_mem _ member)
      simp [Value.lengthsFitRows, lengthsFit_of_short first (by omega) key here.1,
        lengthsFit_of_short second (by omega) value here.2, others]

end

/-- Encoding a value that a formed type accepts never panics. -/
theorem encodeOrPanic_of_accepts {ε : Type} {levels : Nat} {ty : Ty} {value : Value}
    (formed : ty.Formed levels) (accepted : ty.accepts value = true) :
    (value.encodeOrPanic : Except (Fault ε) Bytes) = .ok value.encode := by
  have short := lt_two_pow_of_accepted formed accepted
  simp only [maxValueBytes] at short
  rw [Value.encodeOrPanic, lengthsFit_of_short value (by omega) ty accepted]
  rfl

/-! ## Decoded types -/

/-- The codecs are exact inverses on what they accept: a decoded type has the
descriptor it was read from, and its values decode from exactly their
encodings, whose length is the announced one and within the bound. -/
theorem decoded_codecs_inverse {bytes : Bytes} {ty : Ty} (decoded : Ty.decode bytes = .ok ty) :
    (ty.descriptorOrPanic : Except (Fault Error) Bytes) = .ok bytes ∧
      ty.maxValueBytes ≤ maxValueBytes ∧
      ∀ (encoded : Bytes) (value : Value),
        (decodeValue ty encoded = .ok value ↔ ty.accepts value = true ∧
          (value.encodeOrPanic : Except (Fault Error) Bytes) = .ok encoded) ∧
        (decodeValue ty encoded = .ok value →
          value.encodedLen = encoded.length ∧ encoded.length ≤ ty.maxValueBytes) := by
  obtain ⟨rfl, formed, -⟩ := Ty.decode_sound decoded
  refine ⟨formed.descriptorOrPanic, formed.size_le, fun encoded value => ⟨⟨?_, ?_⟩, ?_⟩⟩
  · intro h
    obtain ⟨rfl, accepted⟩ := decodeValue_sound h
    exact ⟨accepted, encodeOrPanic_of_accepts formed accepted⟩
  · rintro ⟨accepted, whole⟩
    rw [encodeOrPanic_of_accepts formed accepted] at whole
    cases whole
    exact decodeValue_encode formed accepted
  · intro h
    obtain ⟨rfl, accepted⟩ := decodeValue_sound h
    rw [length_encode]
    exact ⟨rfl, encodedLen_le ty value accepted⟩

namespace Sample

/-- The Boolean column, whose descriptor has three bytes. -/
theorem boolean_codecs_inverse :
    Ty.decode [1, 0, 1] = .ok .boolean ∧
      (Ty.boolean.descriptorOrPanic : Except (Fault Error) Bytes) = .ok [1, 0, 1] ∧
      decodeValue .boolean [1] = .ok (.boolean true) := by
  have decoded : Ty.decode [1, 0, 1] = .ok .boolean := by rfl
  obtain ⟨descriptor, -, values⟩ := decoded_codecs_inverse decoded
  exact ⟨decoded, descriptor, (values [1] (.boolean true)).1.mpr ⟨rfl, rfl⟩⟩

end Sample

end BlopDb.Vm
