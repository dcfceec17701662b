/-
# Reservations are exact

The size of a type bounds the sizes of its values, and the format ceilings on
descriptors, counts and bounds keep every sum of sizes far below 64 bits.  So no
plain operation of an estimate overflows, no saturating one saturates, and a
reservation is the sum of its parts.
-/

import BlopDb.Vm.Resources
import BlopDb.Vm.RuntimeSafe
import BlopDb.Vm.SchemaAgreement
import BlopDb.Vm.VerifierSound

namespace BlopDb.Vm

open BlopDb.Lib
open Storage (LimitPolicy)

mutual

/-- What an estimate of a type stands for. -/
def Ty.size : Ty → Nat
  | .bytes bound | .string bound => 64 + 2 * bound
  | .tuple fields => 64 + Ty.sizes fields
  | .rows maximum key value => 64 + maximum * (Ty.size key + Ty.size value) * 2
  | _ => 64

/-- The total size of fields. -/
def Ty.sizes : List Ty → Nat
  | [] => 0
  | field :: fields => Ty.size field + Ty.sizes fields

end

mutual

/-- The memory of a value as it is nested, however large. -/
def Value.size : Value → Nat
  | .bytes data => 64 + data.length * 2
  | .string text => 64 + (textBytes text).length * 2
  | .tuple fields => 64 + Value.sizes fields
  | .rows entries => 64 + Value.rowSizes entries
  | _ => 64

/-- The total memory of fields. -/
def Value.sizes : List Value → Nat
  | [] => 0
  | field :: fields => Value.size field + Value.sizes fields

/-- The total memory of rows. -/
def Value.rowSizes : List (Value × Value) → Nat
  | [] => 0
  | (key, value) :: rest => Value.size key + Value.size value + Value.rowSizes rest

end

namespace Resources

/-! ## Values -/

private theorem rowSizes_le (bound : Nat) {rows : List (Value × Value)}
    (each : ∀ row ∈ rows, row.1.size + row.2.size ≤ bound) :
    Value.rowSizes rows ≤ rows.length * bound := by
  induction rows with
  | nil => simp [Value.rowSizes]
  | cons row rows ih =>
      have first := each row List.mem_cons_self
      have others := ih fun r member => each r (List.mem_cons_of_mem _ member)
      simp only [Value.rowSizes, List.length_cons, Nat.succ_mul]
      omega

mutual

/-- An accepted value is at most as large as its type. -/
theorem size_le_of_accepts : (ty : Ty) → (value : Value) → ty.accepts value = true → value.size ≤ ty.size
  | .unit, .unit, _ | .boolean, .boolean _, _ | .i64, .i64 _, _ | .u64, .u64 _, _ => le_rfl
  | .bytes bound, .bytes data, accepted => by
      have short : data.length ≤ bound := by simpa [Ty.accepts] using accepted
      simp only [Ty.size, Value.size]
      omega
  | .string bound, .string text, accepted => by
      have short : (textBytes text).length ≤ bound := by simpa [Ty.accepts] using accepted
      simp only [Ty.size, Value.size]
      omega
  | .tuple types, .tuple values, accepted => by
      have fields := sizes_le_of_accepts types values (by simpa [Ty.accepts] using accepted)
      simp only [Ty.size, Value.size]
      omega
  | .rows maximum key value, .rows entries, accepted => by
      obtain ⟨few, -, each, -⟩ := accepts_rows.mp accepted
      have rows := rowSizes_le (key.size + value.size) fun row member =>
        Nat.add_le_add (size_le_of_accepts key row.1 (each row member).1)
          (size_le_of_accepts value row.2 (each row member).2)
      have total := Nat.mul_le_mul_right (key.size + value.size) few
      simp only [Ty.size, Value.size]
      omega

theorem sizes_le_of_accepts : (types : List Ty) → (values : List Value) →
    Ty.acceptsFields types values = true → Value.sizes values ≤ Ty.sizes types
  | [], [], _ => le_rfl
  | ty :: types, value :: values, accepted => by
      simp only [Ty.acceptsFields, Bool.and_eq_true] at accepted
      have first := size_le_of_accepts ty value accepted.1
      have others := sizes_le_of_accepts types values accepted.2
      simp only [Ty.sizes, Value.sizes]
      omega

end

mutual

theorem poolBytes_eq_ok : (value : Value) → (used : Nat) →
    poolBytes value = .ok used → used = value.size ∧ value.size < 2 ^ 64
  | .unit, used, sized | .boolean _, used, sized | .i64 _, used, sized | .u64 _, used, sized => by
      obtain ⟨small, rfl⟩ := addChecked_eq_ok.mp sized
      exact ⟨rfl, small⟩
  | .bytes _, used, sized | .string _, used, sized => by
      obtain ⟨_, product, sized⟩ := bind_eq_ok.mp sized
      obtain ⟨-, rfl⟩ := mulChecked_eq_ok.mp product
      obtain ⟨small, rfl⟩ := addChecked_eq_ok.mp sized
      exact ⟨rfl, small⟩
  | .tuple fields, used, sized => by
      obtain ⟨sizes, listed, sized⟩ := bind_eq_ok.mp sized
      obtain ⟨_, sum, sized⟩ := bind_eq_ok.mp sized
      obtain ⟨-, rfl⟩ := sumChecked_eq_ok.mp sum
      obtain ⟨small, rfl⟩ := addChecked_eq_ok.mp sized
      rw [poolFields_sum fields sizes listed] at small ⊢
      exact ⟨rfl, small⟩
  | .rows rows, used, sized => by
      obtain ⟨sizes, listed, sized⟩ := bind_eq_ok.mp sized
      obtain ⟨_, sum, sized⟩ := bind_eq_ok.mp sized
      obtain ⟨-, rfl⟩ := sumChecked_eq_ok.mp sum
      obtain ⟨small, rfl⟩ := addChecked_eq_ok.mp sized
      rw [poolRows_sum rows sizes listed] at small ⊢
      exact ⟨rfl, small⟩

theorem poolFields_sum : (fields : List Value) → (sizes : List Nat) →
    poolFields fields = .ok sizes → sizes.sum = Value.sizes fields
  | [], _, listed => by
      cases listed
      rfl
  | field :: fields, _, listed => by
      obtain ⟨first, sized, listed⟩ := bind_eq_ok.mp listed
      obtain ⟨others, rest, same⟩ := bind_eq_ok.mp listed
      cases same
      rw [List.sum_cons, (poolBytes_eq_ok field first sized).1, poolFields_sum fields others rest, Value.sizes]

theorem poolRows_sum : (rows : List (Value × Value)) → (sizes : List Nat) →
    poolRows rows = .ok sizes → sizes.sum = Value.rowSizes rows
  | [], _, listed => by
      cases listed
      rfl
  | (key, value) :: rows, _, listed => by
      obtain ⟨first, keySized, listed⟩ := bind_eq_ok.mp listed
      obtain ⟨second, valueSized, listed⟩ := bind_eq_ok.mp listed
      obtain ⟨_, sum, listed⟩ := bind_eq_ok.mp listed
      obtain ⟨others, rest, same⟩ := bind_eq_ok.mp listed
      obtain ⟨-, rfl⟩ := addChecked_eq_ok.mp sum
      cases same
      rw [List.sum_cons, (poolBytes_eq_ok key first keySized).1, (poolBytes_eq_ok value second valueSized).1,
        poolRows_sum rows others rest, Value.rowSizes]

end

mutual

/-- A value whose memory fits is measured without overflow. -/
theorem poolBytes_of_lt : (value : Value) → value.size < 2 ^ 64 → poolBytes value = .ok value.size
  | .unit, _ | .boolean _, _ | .i64 _, _ | .u64 _, _ => rfl
  | .bytes data, small => by
      simp only [Value.size] at small
      simp only [poolBytes, Value.size, mulChecked_of_lt (show data.length * 2 < 2 ^ 64 by omega), ok_bind,
        addChecked_of_lt small]
  | .string text, small => by
      simp only [Value.size] at small
      simp only [poolBytes, Value.size, mulChecked_of_lt (show (textBytes text).length * 2 < 2 ^ 64 by omega),
        ok_bind, addChecked_of_lt small]
  | .tuple fields, small => by
      simp only [Value.size] at small
      obtain ⟨sizes, listed, sum⟩ := poolFields_of_lt fields (by omega)
      simp only [poolBytes, Value.size, listed, ok_bind,
        sumChecked_of_lt (show sizes.sum < 2 ^ 64 by omega), sum, addChecked_of_lt small]
  | .rows rows, small => by
      simp only [Value.size] at small
      obtain ⟨sizes, listed, sum⟩ := poolRows_of_lt rows (by omega)
      simp only [poolBytes, Value.size, listed, ok_bind,
        sumChecked_of_lt (show sizes.sum < 2 ^ 64 by omega), sum, addChecked_of_lt small]

theorem poolFields_of_lt : (fields : List Value) → Value.sizes fields < 2 ^ 64 →
    ∃ sizes, poolFields fields = .ok sizes ∧ sizes.sum = Value.sizes fields
  | [], _ => ⟨[], rfl, rfl⟩
  | field :: fields, small => by
      simp only [Value.sizes] at small
      obtain ⟨sizes, listed, sum⟩ := poolFields_of_lt fields (by omega)
      refine ⟨field.size :: sizes, ?_, by rw [List.sum_cons, sum, Value.sizes]⟩
      simp only [poolFields, poolBytes_of_lt field (by omega), listed, ok_bind, pure_eq_ok]

theorem poolRows_of_lt : (rows : List (Value × Value)) → Value.rowSizes rows < 2 ^ 64 →
    ∃ sizes, poolRows rows = .ok sizes ∧ sizes.sum = Value.rowSizes rows
  | [], _ => ⟨[], rfl, rfl⟩
  | (key, value) :: rows, small => by
      simp only [Value.rowSizes] at small
      obtain ⟨sizes, listed, sum⟩ := poolRows_of_lt rows (by omega)
      refine ⟨(key.size + value.size) :: sizes, ?_, by rw [List.sum_cons, sum, Value.rowSizes]⟩
      simp only [poolRows, poolBytes_of_lt key (by omega), poolBytes_of_lt value (by omega), listed, ok_bind,
        addChecked_of_lt (show key.size + value.size < 2 ^ 64 by omega), pure_eq_ok]

end

/-! ## Types -/

section Saturation

variable {left right left' right' : Nat}

private theorem min_add_le (first : min left topSize ≤ left') (second : min right topSize ≤ right') :
    min (left + right) topSize ≤ satAdd left' right' := by
  simp only [satAdd]
  omega

private theorem min_mul_le (factor : Nat) (bound : min right topSize ≤ right') :
    min (factor * right) topSize ≤ satMul factor right' := by
  rcases le_total right topSize with small | large
  · rw [min_eq_left small] at bound
    exact min_le_min_right _ (Nat.mul_le_mul_left factor bound)
  · rw [min_eq_right large] at bound
    rcases Nat.eq_zero_or_pos factor with rfl | positive
    · simp [satMul]
    · refine le_min ?_ (min_le_right _ _)
      exact (min_le_right _ _).trans (bound.trans (Nat.le_mul_of_pos_left right' positive))

end Saturation

mutual

/-- An estimate is not below what it stands for, unless both exceed 64 bits. -/
theorem min_size_le : (ty : Ty) → (estimate : Nat) → valueBytes ty = .ok estimate →
    min ty.size topSize ≤ estimate
  | .unit, _, sized | .boolean, _, sized | .i64, _, sized | .u64, _, sized => by
      cases sized
      exact le_rfl
  | .bytes bound, _, sized | .string bound, _, sized => by
      obtain ⟨_, product, same⟩ := bind_eq_ok.mp sized
      obtain ⟨-, rfl⟩ := mulChecked_eq_ok.mp product
      cases same
      exact min_add_le (min_le_left _ _) (min_le_left _ _)
  | .tuple fields, _, sized => by
      obtain ⟨sizes, listed, sized⟩ := bind_eq_ok.mp sized
      obtain ⟨_, sum, same⟩ := bind_eq_ok.mp sized
      obtain ⟨-, rfl⟩ := sumChecked_eq_ok.mp sum
      cases same
      exact min_add_le (min_le_left _ _) (min_sizes_le fields sizes listed)
  | .rows maximum key value, _, sized => by
      obtain ⟨first, keySized, sized⟩ := bind_eq_ok.mp sized
      obtain ⟨second, valueSized, same⟩ := bind_eq_ok.mp sized
      cases same
      have row := min_add_le (min_size_le key first keySized) (min_size_le value second valueSized)
      have rows := min_mul_le maximum row
      have twice := min_mul_le 2 rows
      rw [Nat.mul_comm 2, satMul, Nat.mul_comm 2] at twice
      exact min_add_le (min_le_left _ _) twice

theorem min_sizes_le : (fields : List Ty) → (sizes : List Nat) → fieldsBytes fields = .ok sizes →
    min (Ty.sizes fields) topSize ≤ sizes.sum
  | [], _, _ => by simp [Ty.sizes]
  | field :: fields, _, listed => by
      obtain ⟨first, sized, listed⟩ := bind_eq_ok.mp listed
      obtain ⟨others, rest, same⟩ := bind_eq_ok.mp listed
      cases same
      have head := min_size_le field first sized
      have tail := min_sizes_le fields others rest
      simp only [Ty.sizes, List.sum_cons]
      omega

end

/-- A type's estimate covers every value it accepts. -/
theorem poolBytes_le_valueBytes {ty : Ty} {value : Value} {estimate used : Nat}
    (accepted : ty.accepts value = true) (estimated : valueBytes ty = .ok estimate)
    (measured : poolBytes value = .ok used) : used ≤ estimate := by
  obtain ⟨rfl, small⟩ := poolBytes_eq_ok value used measured
  have covered := size_le_of_accepts ty value accepted
  have above := min_size_le ty estimate estimated
  simp only [topSize] at above
  omega

/-! ## Described types -/

private theorem sizes_le {fields : List Ty}
    (each : ∀ field ∈ fields, field.size ≤ 64 * field.encodeType.length + 2 * field.maxValueBytes) :
    Ty.sizes fields ≤ 64 * (Ty.encodeTypes fields).length + 2 * Ty.maxFieldsBytes fields := by
  induction fields with
  | nil => simp [Ty.sizes]
  | cons field fields ih =>
      have first := each field List.mem_cons_self
      have others := ih fun other member => each other (List.mem_cons_of_mem _ member)
      simp only [Ty.sizes, Ty.encodeTypes, Ty.maxFieldsBytes, List.length_append]
      omega

/-- A type without Rows is paid for by its descriptor and its bytes. -/
theorem size_le_of_formed {levels : Nat} {ty : Ty} (formed : ty.Formed levels) (bounded : levels ≤ 16)
    (plain : ty.isRows = false) : ty.size ≤ 64 * ty.encodeType.length + 2 * ty.maxValueBytes := by
  induction levels generalizing ty with
  | zero => exact formed.elim
  | succ levels ih =>
      have node := length_encodeType_pos ty
      cases ty with
      | unit | boolean | i64 | u64 =>
          simp only [Ty.size]
          omega
      | bytes bound | string bound =>
          simp only [Ty.size, Ty.maxValueBytes]
          omega
      | tuple fields =>
          have total := sizes_le fun field member =>
            have part := formed.2.2 field member
            ih part (by omega) (part.not_rows (by omega))
          simp only [Ty.size, Ty.maxValueBytes, Ty.encodeType, List.length_cons, List.length_append]
          omega
      | rows maximum key value => cases plain

private theorem sizes_eq {fields : List Ty} : Ty.sizes fields = (fields.map Ty.size).sum := by
  induction fields with
  | nil => rfl
  | cons field fields ih => rw [Ty.sizes, ih, List.map_cons, List.sum_cons]

theorem fieldsBytes_eq {fields : List Ty} (each : ∀ field ∈ fields, valueBytes field = .ok field.size) :
    fieldsBytes fields = .ok (fields.map Ty.size) := by
  induction fields with
  | nil => rfl
  | cons field fields ih =>
      simp only [fieldsBytes, each field List.mem_cons_self,
        ih fun other member => each other (List.mem_cons_of_mem _ member), ok_bind, pure_eq_ok, List.map_cons]

/-- The estimate of a type without Rows is exact when it fits. -/
theorem valueBytes_of_formed {levels : Nat} {ty : Ty} (formed : ty.Formed levels) (bounded : levels ≤ 16)
    (plain : ty.isRows = false) (small : ty.size < 2 ^ 64) : valueBytes ty = .ok ty.size := by
  induction levels generalizing ty with
  | zero => exact formed.elim
  | succ levels ih =>
      cases ty with
      | unit | boolean | i64 | u64 => rfl
      | bytes bound | string bound =>
          simp only [Ty.size] at small
          simp only [valueBytes, mulChecked_of_lt (show 2 * bound < 2 ^ 64 by omega), ok_bind, pure_eq_ok,
            satAdd_of_lt small, Ty.size]
      | tuple fields =>
          simp only [Ty.size, sizes_eq] at small
          have each : ∀ field ∈ fields, valueBytes field = .ok field.size := by
            intro field member
            have part := formed.2.2 field member
            have le : field.size ≤ (fields.map Ty.size).sum :=
              List.single_le_sum (fun _ _ => Nat.zero_le _) _ (List.mem_map_of_mem member)
            exact ih part (by omega) (part.not_rows (by omega)) (by omega)
          simp only [valueBytes, fieldsBytes_eq each, ok_bind,
            sumChecked_of_lt (show (fields.map Ty.size).sum < 2 ^ 64 by omega), pure_eq_ok, satAdd_of_lt small,
            Ty.size, sizes_eq]
      | rows maximum key value => cases plain

/-- The largest value of a described type. -/
def sizeCeiling : Nat := 2 ^ 45

/-- The largest value of a described type without Rows. -/
theorem size_le_of_plain {ty : Ty} (described : ty.Described) (plain : ty.isRows = false) :
    ty.size ≤ 2 ^ 26 := by
  obtain ⟨formed, short⟩ := described
  simp only [Ty.descriptor, List.length_append, length_leBytes, maxDescriptorBytes] at short
  have bytes := formed.size_le
  simp only [maxValueBytes] at bytes
  have total := size_le_of_formed formed le_rfl plain
  omega

/-- The estimate of a described type is exact and far below 64 bits. -/
theorem valueBytes_of_described {ty : Ty} (described : ty.Described) :
    valueBytes ty = .ok ty.size ∧ ty.size ≤ sizeCeiling := by
  cases isRows : ty.isRows with
  | false =>
      have small := size_le_of_plain described isRows
      refine ⟨valueBytes_of_formed described.formed le_rfl isRows (by omega), ?_⟩
      simp only [sizeCeiling]
      omega
  | true =>
      match ty, isRows, described with
      | .rows maximum key value, _, ⟨⟨_, _, few, keyFormed, valueFormed⟩, short⟩ =>
          have plain := keyFormed.not_rows (by decide)
          have plain' := valueFormed.not_rows (by decide)
          have keySize := size_le_of_formed keyFormed (by decide) plain
          have valueSize := size_le_of_formed valueFormed (by decide) plain'
          have keyBytes := keyFormed.size_le
          have valueBytes' := valueFormed.size_le
          simp only [maxValueBytes] at keyBytes valueBytes'
          simp only [Ty.descriptor, Ty.encodeType, List.length_cons, List.length_append, maxDescriptorBytes]
            at short
          have row : key.size + value.size ≤ 2 ^ 27 := by omega
          have product : maximum * (key.size + value.size) ≤ 65535 * 2 ^ 27 := Nat.mul_le_mul few row
          refine ⟨?_, ?_⟩
          · simp only [valueBytes, valueBytes_of_formed keyFormed (by decide) plain (by omega),
              valueBytes_of_formed valueFormed (by decide) plain' (by omega), ok_bind,
              satAdd_of_lt (show key.size + value.size < 2 ^ 64 by omega),
              satMul_of_lt (show maximum * (key.size + value.size) < 2 ^ 64 by omega),
              satMul_of_lt (show maximum * (key.size + value.size) * 2 < 2 ^ 64 by omega), pure_eq_ok,
              satAdd_of_lt (show 64 + maximum * (key.size + value.size) * 2 < 2 ^ 64 by omega), Ty.size]
          · simp only [Ty.size, sizeCeiling]
            omega

/-! ## Decoded programs -/

/-- What the format ceilings guarantee of a decoded program. -/
structure Modest (program : Program) : Prop where
  registers : program.registerTypes.length ≤ 65535
  registerTypes : ∀ ty ∈ program.registerTypes, ty.Described
  result : program.resultType.Described
  tables : program.tables.length ≤ 65535
  tableTypes : ∀ ty ∈ Resources.tableTypes program, ty.Described ∧ ty.isRows = false
  arguments : program.arguments.length ≤ 65535
  constants : program.constants.length ≤ 65535
  pools : ∀ value ∈ program.arguments ++ program.constants, ∃ ty : Ty, ty.Described ∧ ty.accepts value = true
  instructions : program.instructions.length ≤ 65535
  tuples : ∀ dst fields, .tuple dst fields ∈ program.instructions → fields.length ≤ 256
  scans : ∀ dst position lower upper flags rowLimit byteLimit,
    .scan dst position lower upper flags rowLimit byteLimit ∈ program.instructions →
      rowLimit ≤ 65535 ∧ ∃ table ∈ program.tables, program.tables[position]? = some table

theorem Modest.columns {program : Program} (modest : Modest program) {table : Table}
    (member : table ∈ program.tables) :
    (table.key.Described ∧ table.key.isRows = false) ∧ table.value.Described ∧ table.value.isRows = false :=
  ⟨modest.tableTypes table.key (List.mem_flatMap.mpr ⟨table, member, by simp⟩),
    modest.tableTypes table.value (List.mem_flatMap.mpr ⟨table, member, by simp⟩)⟩

section Verified

variable {program : Program} {argumentTypes constantTypes : List Ty} {claims : LimitPolicy}
variable {initialized : Program.Initialized} {destination : Option Nat}

theorem tuple_verified {dst : Nat} {fields : List Nat} (types : ∀ ty ∈ program.registerTypes, ty.Described)
    (verified : program.verifyInstruction argumentTypes constantTypes claims initialized (.tuple dst fields) =
      .ok destination) : fields.length ≤ 256 := by
  obtain ⟨ty, declared, verified⟩ := bind_eq_ok.mp verified
  cases ty with
  | tuple parts =>
      obtain ⟨⟨⟩, arity, -⟩ := bind_eq_ok.mp verified
      have arity := not_not.mp (refuse_eq_ok.mp arity)
      have described := types _ (List.mem_of_getElem? (Runtime.register_eq_ok declared))
      have few : parts.length ≤ 256 := described.formed.2.1
      omega
  | _ => cases verified

theorem scan_verified {dst position flags rowLimit byteLimit : Nat} {lower upper : Option Nat}
    (verified : program.verifyInstruction argumentTypes constantTypes claims initialized
      (.scan dst position lower upper flags rowLimit byteLimit) = .ok destination) :
    rowLimit ≤ 65535 ∧ ∃ table ∈ program.tables, program.tables[position]? = some table := by
  obtain ⟨⟨⟩, rows, verified⟩ := bind_eq_ok.mp verified
  obtain ⟨⟨⟩, -, verified⟩ := bind_eq_ok.mp verified
  obtain ⟨table, found, -⟩ := bind_eq_ok.mp verified
  have ceiling : claims.value 12 ≤ 65535 := claims.value_le_ceiling 12
  have rows := refuse_eq_ok.mp rows
  have found := Runtime.table_eq_ok found
  exact ⟨by omega, table, List.mem_of_getElem? found, found⟩

end Verified

theorem column_described {table : Table} (catalogued : table.Catalogued) {ty : Ty}
    (column : ty = table.key ∨ ty = table.value) : ty.Described ∧ ty.isRows = false := by
  obtain ⟨described, schema, stored⟩ := catalogued.described column
  obtain ⟨other, decoded, plain, -⟩ := Schema.typed stored
  rw [described.decode] at decoded
  cases decoded
  exact ⟨described, plain⟩

theorem decode_modest {programBytes argumentBytes : Bytes} {tables : List Table} {claims : LimitPolicy}
    {program : Program} (decoded : Program.decode programBytes argumentBytes tables claims = .ok program)
    (catalogued : ∀ table ∈ tables, table.Catalogued) : Modest program := by
  obtain ⟨loaded, rfl⟩ := Program.decode_loaded decoded
  obtain ⟨_, _, facts, -, -, certificate⟩ := loaded.certified
  simp only [Program.decode, bind_eq_ok, refuse_eq_ok, Prod.exists] at decoded
  obtain ⟨header, _, head, -, -, -, -, -, -, -, -, -, -, -, -, descriptor, _, -, resultType, result,
    ids, _, tableIds, -, same, argumentTypes, _, argumentList, registerTypes, _, registerList, constants, _, pool,
    instructions, _, code, -, -, count, _, -, -, -, arguments, _, values, -, -, ⟨⟩, verified,
    built⟩ := decoded
  simp only [pure_eq_ok, Except.ok.injEq] at built
  have fits := Program.header_fits head
  obtain ⟨registerCount, registerTyped⟩ := Program.readTypes_described registerList
  obtain ⟨argumentCount, argumentTyped⟩ := Program.readTypes_described argumentList
  obtain ⟨constantCount, constantTyped⟩ := Program.readConstants_described pool
  have accepted := Program.readArguments_accepted values
  simp only [Program.readTables, bind_eq_ok, Prod.exists] at tableIds
  obtain ⟨_, _, -, _, listed, renamed⟩ := tableIds
  cases renamed
  have tableCount := Program.readTableIds_length listed
  rw [not_not.mp same, List.length_map] at tableCount
  have registerTyped : ∀ ty ∈ program.registerTypes, ty.Described := by
    rw [← built]
    exact registerTyped
  refine ⟨?_, registerTyped, ?_, ?_, ?_, ?_, ?_, ?_,
    loaded.count, ?_, ?_⟩
  · rw [← built]
    exact registerCount.trans_le fits.registers
  · rw [← built]
    exact .of_decode result
  · exact tableCount.trans_le fits.tables
  · intro ty member
    obtain ⟨table, inTables, column⟩ := List.mem_flatMap.mp member
    exact column_described (catalogued table inTables) (by simpa using column)
  · rw [← built]
    exact (accepted.length_eq.symm.trans argumentCount).trans_le fits.arguments
  · rw [← built]
    simpa using constantCount.trans_le fits.constants
  · rw [← built]
    intro value member
    rcases List.mem_append.mp member with argument | constant
    · obtain ⟨position, found⟩ := List.mem_iff_getElem?.mp argument
      have inside : position < argumentTypes.length := by
        rw [accepted.length_eq]
        exact (List.getElem?_eq_some_iff.mp found).1
      obtain ⟨value', found', accepts⟩ := accepted.get (List.getElem?_eq_getElem inside)
      rw [found] at found'
      cases found'
      exact ⟨_, argumentTyped _ (List.getElem_mem inside), accepts⟩
    · obtain ⟨pair, listed, rfl⟩ := List.mem_map.mp constant
      exact ⟨pair.1, constantTyped pair listed⟩
  · intro dst fields member
    obtain ⟨pc, found⟩ := List.mem_iff_getElem?.mp member
    obtain ⟨_, verified, -⟩ := certificate.verified pc _ found
    exact tuple_verified registerTyped verified
  · intro dst position lower upper flags rowLimit byteLimit member
    obtain ⟨pc, found⟩ := List.mem_iff_getElem?.mp member
    obtain ⟨_, verified, -⟩ := certificate.verified pc _ found
    exact scan_verified verified

/-! ## Exact parts -/

/-- A declared manifest within the format ceilings. -/
structure Declared (manifest : AccessManifest) : Prop where
  few : manifest.entries.length ≤ 16384
  keys : ∀ id key mode, (Scope.key id key, mode) ∈ manifest.entries → key.length ≤ 1024

theorem declare_keys {tables : List Table} {entries : List (Scope × AccessMode)}
    {declarations result : OrdMap Scope Nat} (declared : Access.declare tables entries declarations = .ok result) :
    ∀ id key mode, (Scope.key id key, mode) ∈ entries → key.length ≤ 1024 := by
  induction entries generalizing declarations with
  | nil => simp
  | cons entry entries ih =>
      obtain ⟨scope, mode⟩ := entry
      obtain ⟨⟨⟩, valid, declared⟩ := bind_eq_ok.mp declared
      intro id key mode' member
      rcases List.mem_cons.mp member with same | inRest
      · cases same
        unfold Access.validateScope at valid
        split at valid
        · cases valid
        · simp only at valid
          split at valid
          · cases valid
          · split at valid
            · cases valid
            · next canonical => exact Runtime.decodeKey_length canonical
      · exact ih declared id key mode' inRest

theorem validate_declared {manifest required : AccessManifest} {tables : List Table} {claims : LimitPolicy}
    {done : Unit} (valid : Access.validate manifest required tables claims = .ok done) : Declared manifest := by
  obtain ⟨⟨⟩, counted, valid⟩ := bind_eq_ok.mp valid
  obtain ⟨declarations, declared, -⟩ := bind_eq_ok.mp valid
  have few := refuse_eq_ok.mp counted
  exact ⟨by omega, declare_keys declared⟩

/-- The most distinct addresses that the instructions access. -/
def accessCount (program : Program) : Nat :=
  program.instructions.countP isPoint + (program.instructions.filterMap rowLimit?).sum

/-- The most entries of the private writes. -/
def entryCount (program : Program) (claims : LimitPolicy) : Nat :=
  min (program.instructions.countP isWrite) (claims.value 14)

/-- What the parts of a reservation stand for. -/
structure Estimates (program : Program) (claims : LimitPolicy) (terms : Terms) : Prop where
  registers : terms.registers = (program.registerTypes.map Ty.size).sum
  keys : ∀ table ∈ program.tables, min (table.key.maxValueBytes * 2 + 2) 1024 ≤ terms.key
  values : ∀ table ∈ program.tables, table.value.maxValueBytes ≤ terms.value
  overlay : terms.overlay = min (entryCount program claims * (terms.key + terms.value + 128))
    (claims.value 15 + entryCount program claims * 128)
  addressCount : terms.addressCount = min (accessCount program) (claims.value 8)
  addresses : terms.addresses = terms.addressCount * (terms.key + 128)

/-- The parts of a reservation added up. -/
def Terms.total (terms : Terms) : Nat :=
  4096 + terms.types + terms.instructions + terms.pools + terms.scopes * 3 + terms.registers * 2 +
    terms.largest * 8 + terms.result * 4 + terms.addresses + terms.overlay * 8 + terms.scanScratch * 2

section Parts

variable {program : Program} {claims : LimitPolicy} {manifest : AccessManifest}

theorem valueBytes_registers (modest : Modest program) :
    program.registerTypes.mapM valueBytes = .ok (program.registerTypes.map Ty.size) ∧
      (program.registerTypes.map Ty.size).sum ≤ 65535 * sizeCeiling :=
  ⟨mapM_eq_ok_of_forall fun ty member => (valueBytes_of_described (modest.registerTypes ty member)).1,
    sum_map_le (fun ty member => (valueBytes_of_described (modest.registerTypes ty member)).2) modest.registers⟩

theorem largest_le {types : List Ty} (described : ∀ ty ∈ types, ty.Described) :
    types.mapM valueBytes = .ok (types.map Ty.size) ∧ (types.map Ty.size).max?.getD 64 ≤ sizeCeiling := by
  refine ⟨mapM_eq_ok_of_forall fun ty member => (valueBytes_of_described (described ty member)).1,
    max?_getD_le ?_ (by decide)⟩
  intro size member
  obtain ⟨ty, inTypes, rfl⟩ := List.mem_map.mp member
  exact (valueBytes_of_described (described ty inTypes)).2

theorem accessCount_le (modest : Modest program) :
    (program.instructions.filterMap rowLimit?).sum ≤ 65535 * 65535 ∧ accessCount program ≤ 65536 * 65535 := by
  have points : program.instructions.countP isPoint ≤ 65535 := List.countP_le_length.trans modest.instructions
  have rows : (program.instructions.filterMap rowLimit?).sum ≤ 65535 * 65535 := by
    refine sum_le_of_forall ?_ ((List.length_filterMap_le _ _).trans modest.instructions)
    intro limit member
    obtain ⟨instruction, inProgram, isScan⟩ := List.mem_filterMap.mp member
    cases instruction with
    | scan dst position lower upper flags rowLimit byteLimit =>
        cases isScan
        exact (modest.scans dst position lower upper flags limit byteLimit inProgram).1
    | _ => cases isScan
  refine ⟨rows, ?_⟩
  rw [accessCount]
  omega

/-- Scanned rows are built in exact and bounded scratch. -/
theorem scanBytes_le (modest : Modest program) :
    ∃ sizes, program.instructions.mapM (scanBytes program) = .ok sizes ∧
      (sizes.filterMap id).max?.getD 0 ≤ 65535 * 2 ^ 28 := by
  have each : ∀ instruction ∈ program.instructions, ∃ size, scanBytes program instruction = .ok size ∧
      ∀ scratch ∈ size, scratch ≤ 65535 * 2 ^ 28 := by
    intro instruction member
    cases instruction with
    | scan dst position lower upper flags rowLimit byteLimit =>
        obtain ⟨few, table, inTables, found⟩ :=
          modest.scans dst position lower upper flags rowLimit byteLimit member
        obtain ⟨⟨key, keyPlain⟩, value, valuePlain⟩ := modest.columns inTables
        have keySize := size_le_of_plain key keyPlain
        have valueSize := size_le_of_plain value valuePlain
        have row : table.key.size + table.value.size ≤ 2 ^ 27 := by omega
        have product : rowLimit * (table.key.size + table.value.size) ≤ 65535 * 2 ^ 27 := Nat.mul_le_mul few row
        refine ⟨some (rowLimit * (table.key.size + table.value.size) * 2), ?_, ?_⟩
        · simp only [scanBytes, index_eq_ok.mpr found, (valueBytes_of_described key).1,
            (valueBytes_of_described value).1, ok_bind,
            satAdd_of_lt (show table.key.size + table.value.size < 2 ^ 64 by omega),
            satMul_of_lt (show rowLimit * (table.key.size + table.value.size) < 2 ^ 64 by omega),
            satMul_of_lt (show rowLimit * (table.key.size + table.value.size) * 2 < 2 ^ 64 by omega), pure_eq_ok]
        · intro scratch same
          cases same
          omega
    | _ => exact ⟨none, rfl, by simp⟩
  obtain ⟨sizes, listed, -, bounded⟩ := mapM_ok_of_forall each
  refine ⟨sizes, listed, max?_getD_le ?_ (Nat.zero_le _)⟩
  intro scratch member
  obtain ⟨size, inSizes, same⟩ := List.mem_filterMap.mp member
  exact bounded size inSizes scratch same

/-- The key width covers every canonical key. -/
theorem keyBytes_spec (modest : Modest program) :
    program.tables.mapM keyBytes = .ok (program.tables.map fun table => table.key.maxValueBytes * 2 + 2) := by
  refine mapM_eq_ok_of_forall fun table member => ?_
  obtain ⟨⟨described, -⟩, -⟩ := modest.columns member
  have small := described.formed.size_le
  simp only [maxValueBytes] at small
  simp only [keyBytes, mulChecked_of_lt (show table.key.maxValueBytes * 2 < 2 ^ 64 by omega), ok_bind,
    addChecked_of_lt (show table.key.maxValueBytes * 2 + 2 < 2 ^ 64 by omega)]

theorem value_le (modest : Modest program) :
    (program.tables.map (·.value.maxValueBytes)).max?.getD 0 ≤ maxValueBytes := by
  refine max?_getD_le ?_ (Nat.zero_le _)
  intro size member
  obtain ⟨table, inTables, rfl⟩ := List.mem_map.mp member
  obtain ⟨-, described, -⟩ := modest.columns inTables
  exact described.formed.size_le

theorem scopes_le (declared : Declared manifest) :
    ∃ sizes, (manifest.entries.map (·.1)).mapM scopeBytes = .ok sizes ∧ sizes.sum ≤ 16384 * 2176 := by
  have each : ∀ scope ∈ manifest.entries.map (·.1), ∃ size, scopeBytes scope = .ok size ∧ size ≤ 2176 := by
    intro scope member
    obtain ⟨⟨scope, mode⟩, declares, rfl⟩ := List.mem_map.mp member
    cases scope with
    | table id => exact ⟨128, rfl, by decide⟩
    | key id key =>
        have short := declared.keys id key mode declares
        refine ⟨128 + key.length * 2, ?_, by omega⟩
        simp only [scopeBytes, mulChecked_of_lt (show key.length * 2 < 2 ^ 64 by omega), ok_bind,
          addChecked_of_lt (show 128 + key.length * 2 < 2 ^ 64 by omega)]
  obtain ⟨sizes, listed, length, bounded⟩ := mapM_ok_of_forall each
  refine ⟨sizes, listed, sum_le_of_forall bounded ?_⟩
  rw [length, List.length_map]
  exact declared.few

theorem pools_le (modest : Modest program) :
    ∃ sizes, (program.arguments ++ program.constants).mapM poolBytes = .ok sizes ∧
      sizes.sum ≤ 131070 * sizeCeiling := by
  have each : ∀ value ∈ program.arguments ++ program.constants,
      ∃ size, poolBytes value = .ok size ∧ size ≤ sizeCeiling := by
    intro value member
    obtain ⟨ty, described, accepted⟩ := modest.pools value member
    have covered := (size_le_of_accepts ty value accepted).trans (valueBytes_of_described described).2
    exact ⟨value.size, poolBytes_of_lt value (covered.trans_lt (by decide)), covered⟩
  obtain ⟨sizes, listed, length, bounded⟩ := mapM_ok_of_forall each
  refine ⟨sizes, listed, sum_le_of_forall bounded ?_⟩
  have arguments := modest.arguments
  have constants := modest.constants
  rw [length, List.length_append]
  omega

theorem types_le (modest : Modest program) :
    ∃ sizes, (program.registerTypes ++ [program.resultType] ++ tableTypes program).mapM typeBytes = .ok sizes ∧
      sizes.sum ≤ 196606 * (65536 * 64) := by
  have each : ∀ ty ∈ program.registerTypes ++ [program.resultType] ++ tableTypes program,
      ∃ size, typeBytes ty = .ok size ∧ size ≤ 65536 * 64 := by
    intro ty member
    have described : ty.Described := by
      rcases List.mem_append.mp member with inFirst | inTables
      · rcases List.mem_append.mp inFirst with register | result
        · exact modest.registerTypes ty register
        · rw [List.mem_singleton.mp result]
          exact modest.result
      · exact (modest.tableTypes ty inTables).1
    have short := described.short
    simp only [maxDescriptorBytes] at short
    refine ⟨ty.descriptor.length * 64, ?_, by omega⟩
    simp only [typeBytes, described.formed.descriptorOrPanic, ok_bind,
      mulChecked_of_lt (show ty.descriptor.length * 64 < 2 ^ 64 by omega)]
  obtain ⟨sizes, listed, length, bounded⟩ := mapM_ok_of_forall each
  have tables : (tableTypes program).length = 2 * program.tables.length := by
    simp [tableTypes, List.length_flatMap, Nat.mul_comm]
  refine ⟨sizes, listed, sum_le_of_forall bounded ?_⟩
  have registers := modest.registers
  have tableCount := modest.tables
  rw [length, List.length_append, List.length_append, tables, List.length_singleton]
  omega

theorem instructions_le (modest : Modest program) :
    ∃ sizes, program.instructions.mapM instructionBytes = .ok sizes ∧ sizes.sum ≤ 65535 * 2176 := by
  have each : ∀ instruction ∈ program.instructions,
      ∃ size, instructionBytes instruction = .ok size ∧ size ≤ 2176 := by
    intro instruction member
    cases instruction with
    | tuple dst fields =>
        have few := modest.tuples dst fields member
        refine ⟨128 + fields.length * 8, ?_, by omega⟩
        simp only [instructionBytes, mulChecked_of_lt (show fields.length * 8 < 2 ^ 64 by omega), ok_bind,
          addChecked_of_lt (show 128 + fields.length * 8 < 2 ^ 64 by omega)]
    | _ => exact ⟨128, rfl, by decide⟩
  obtain ⟨sizes, listed, length, bounded⟩ := mapM_ok_of_forall each
  exact ⟨sizes, listed, sum_le_of_forall bounded (length.trans_le modest.instructions)⟩

/-- No part of a reservation overflows or saturates, and neither does their sum. -/
theorem terms_exact (modest : Modest program) (declared : Declared manifest) (claims : LimitPolicy) :
    ∃ parts, terms program claims manifest = .ok parts ∧ Estimates program claims parts ∧
      parts.total < 2 ^ 64 := by
  obtain ⟨registers, registersLe⟩ := valueBytes_registers modest
  have typed : ∀ ty ∈ program.registerTypes ++ tableTypes program, ty.Described := by
    intro ty member
    rcases List.mem_append.mp member with register | column
    · exact modest.registerTypes ty register
    · exact (modest.tableTypes ty column).1
  obtain ⟨sizes, largestLe⟩ := largest_le typed
  obtain ⟨rowsLe, accessesLe⟩ := accessCount_le modest
  obtain ⟨scans, scanned, scansLe⟩ := scanBytes_le modest
  obtain ⟨scopes, scopeList, scopesLe⟩ := scopes_le declared
  obtain ⟨pools, pooled, poolsLe⟩ := pools_le modest
  obtain ⟨types, described, typesLe⟩ := types_le modest
  obtain ⟨instructions, listed, instructionsLe⟩ := instructions_le modest
  obtain ⟨result, resultLe⟩ := valueBytes_of_described modest.result
  have valueLe := value_le modest
  have writesLe : entryCount program claims ≤ 65535 :=
    (min_le_left _ _).trans (List.countP_le_length.trans modest.instructions)
  have overlayLimit : claims.value 15 ≤ 64 * 1024 * 1024 := claims.value_le_ceiling 15
  simp only [sizeCeiling, maxValueBytes] at registersLe largestLe poolsLe resultLe valueLe
  generalize keyed : min ((program.tables.map fun table => table.key.maxValueBytes * 2 + 2).max?.getD 0) 1024 =
    key at *
  generalize valued : (program.tables.map (·.value.maxValueBytes)).max?.getD 0 = value at *
  have keyLe : key ≤ 1024 := keyed ▸ min_le_right _ _
  have overlayLe : entryCount program claims * (key + value + 128) ≤ 65535 * 2 ^ 25 :=
    Nat.mul_le_mul writesLe (by omega)
  have countLe : min (accessCount program) (claims.value 8) * (key + 128) ≤ 65536 * 65535 * 1152 :=
    Nat.mul_le_mul ((min_le_left _ _).trans accessesLe) (by omega)
  have entries : min (program.instructions.countP isWrite) (claims.value 14) = entryCount program claims := rfl
  have accesses : program.instructions.countP isPoint + (program.instructions.filterMap rowLimit?).sum =
      accessCount program := rfl
  refine ⟨⟨(program.registerTypes.map Ty.size).sum,
    ((program.registerTypes ++ tableTypes program).map Ty.size).max?.getD 64, (scans.filterMap id).max?.getD 0,
    key, value, min (entryCount program claims * (key + value + 128))
      (claims.value 15 + entryCount program claims * 128), min (accessCount program) (claims.value 8),
    min (accessCount program) (claims.value 8) * (key + 128), scopes.sum, pools.sum, types.sum,
    instructions.sum, program.resultType.size⟩, ?_, ⟨rfl, ?_, ?_, rfl, rfl, rfl⟩, ?_⟩
  · simp only [terms, registers, sizes, scanned, keyBytes_spec modest, keyed, valued, scopeList, pooled, described,
      listed, result, entries, ok_bind, pure_eq_ok,
      sumChecked_of_lt (show (program.registerTypes.map Ty.size).sum < 2 ^ 64 by omega),
      sumChecked_of_lt (show (program.instructions.filterMap rowLimit?).sum < 2 ^ 64 by omega),
      sumChecked_of_lt (show scopes.sum < 2 ^ 64 by omega), sumChecked_of_lt (show pools.sum < 2 ^ 64 by omega),
      sumChecked_of_lt (show types.sum < 2 ^ 64 by omega),
      sumChecked_of_lt (show instructions.sum < 2 ^ 64 by omega),
      addChecked_of_lt (show key + value < 2 ^ 64 by omega),
      addChecked_of_lt (show key + value + 128 < 2 ^ 64 by omega),
      addChecked_of_lt (show key + 128 < 2 ^ 64 by omega),
      addChecked_of_lt (show program.instructions.countP isPoint +
        (program.instructions.filterMap rowLimit?).sum < 2 ^ 64 by omega), accesses,
      mulChecked_of_lt (show entryCount program claims * 128 < 2 ^ 64 by omega),
      satAdd_of_lt (show claims.value 15 + entryCount program claims * 128 < 2 ^ 64 by omega),
      satMul_of_lt (show entryCount program claims * (key + value + 128) < 2 ^ 64 by omega),
      satMul_of_lt (show min (accessCount program) (claims.value 8) * (key + 128) < 2 ^ 64 by omega)]
  · intro table member
    rw [← keyed]
    exact min_le_min_right _ (List.le_max?_getD_of_mem (List.mem_map_of_mem member))
  · intro table member
    rw [← valued]
    exact List.le_max?_getD_of_mem (List.mem_map_of_mem member)
  · simp only [Terms.total]
    omega

/-- A reservation is the sum of its parts. -/
theorem reservation_eq {parts : Terms} (found : terms program claims manifest = .ok parts)
    (small : parts.total < 2 ^ 64) : reservation program claims manifest = .ok parts.total := by
  simp only [Terms.total] at small
  simp only [reservation, found, ok_bind, mulChecked_of_lt (show parts.scopes * 3 < 2 ^ 64 by omega),
    mulChecked_of_lt (show parts.registers * 2 < 2 ^ 64 by omega),
    satMul_of_lt (show parts.largest * 8 < 2 ^ 64 by omega),
    satMul_of_lt (show parts.result * 4 < 2 ^ 64 by omega),
    satMul_of_lt (show parts.overlay * 8 < 2 ^ 64 by omega),
    satMul_of_lt (show parts.scanScratch * 2 < 2 ^ 64 by omega), pure_eq_ok, Except.ok.injEq]
  rw [foldl_satAdd]
  · simp only [List.sum_cons, List.sum_nil, Terms.total]
    omega
  · simp only [List.sum_cons, List.sum_nil]
    omega

/-- Registers are analysed without overflow. -/
theorem analysis_ok (modest : Modest program) (decoding : Nat) : ∃ scratch, analysis program decoding = .ok scratch := by
  have few := modest.registers
  simp only [analysis, (largest_le modest.registerTypes).1, ok_bind,
    mulChecked_of_lt (show program.registerTypes.length * 128 < 2 ^ 64 by omega), pure_eq_ok]
  exact ⟨_, rfl⟩

end Parts

/-- Decoding is estimated without overflow. -/
theorem decoding_ok {transaction : Transaction} {tables : List Table} {claims : LimitPolicy} {program : Program}
    (decoded : Program.decode transaction.programBytes transaction.argumentBytes tables claims = .ok program) :
    ∃ size, decoding transaction = .ok size := by
  simp only [Program.decode, bind_eq_ok, refuse_eq_ok, Prod.exists] at decoded
  obtain ⟨header, _, -, -, short, -, -, -, -, -, -, -, fewer, -⟩ := decoded
  have bytes : claims.value 0 ≤ 16 * 1024 * 1024 := claims.value_le_ceiling 0
  have arguments : claims.value 4 ≤ 16 * 1024 * 1024 := claims.value_le_ceiling 4
  have tableCount : uintAt 2 transaction.programBytes 20 < 256 ^ 2 := uintAt_lt 2 _ _
  simp only [decoding, addChecked_of_lt (show transaction.programBytes.length +
    transaction.argumentBytes.length < 2 ^ 64 by omega), ok_bind]
  split
  · exact ⟨_, rfl⟩
  · simp only [mulChecked_of_lt (show uintAt 2 transaction.programBytes 20 * 8 < 2 ^ 64 by omega),
      mulChecked_of_lt (show uintAt 2 transaction.programBytes 20 * 8 * 1024 < 2 ^ 64 by omega),
      mulChecked_of_lt (show uintAt 2 transaction.programBytes 20 * 8 * 1024 * 1024 < 2 ^ 64 by omega), ok_bind]
    exact ⟨_, rfl⟩

end Resources

end BlopDb.Vm
