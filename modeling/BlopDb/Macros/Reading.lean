/-
# Reading a bound program

What the machine reads from the bytes of a program before it looks at claims or
arguments.  The layout of a well-formed program is read back part by part: the types
and constants as they were laid out, and the instruction each encoded one stands for.
-/

import BlopDb.Macros.Binding
import BlopDb.Vm.ValueCodec

namespace BlopDb.Macros

open BlopDb.Lib
open Storage (maxU64)
open Vm (Ty Value)
open Vm.Program (header readUint readBlob readTables readTypes readConstants readInstructions finish isRows)

/-- What the bytes of a program hold. -/
structure Contents where
  result : Ty
  ids : List Nat
  arguments : List Ty
  registers : List Ty
  constants : List (Ty × Value)
  instructions : List Vm.Instruction

/-- Read the bytes of a program. -/
def readProgram (valueLimit : Nat) (bytes : Bytes) : Except Vm.Error Contents := do
  let (header, input) ← header bytes
  let (descriptor, input) ← readBlob input
  let result ← Ty.decode descriptor
  let (ids, input) ← readTables input header.tables
  let (arguments, input) ←
    readTypes (fun ty => refuse (isRows ty) (.invalid "Rows cannot be an argument")) header.arguments input
  let (registers, input) ← readTypes (fun _ => .ok ()) header.registers input
  let (constants, input) ← readConstants valueLimit header.constants input
  let (instructions, input) ← readInstructions header.instructions input
  finish input
  return ⟨result, ids, arguments, registers, constants, instructions⟩

/-- A decoded program is what was read from its bytes. -/
theorem decode_reads {programBytes argumentBytes : Bytes} {tables : List Vm.Table}
    {claims : Storage.LimitPolicy} {program : Vm.Program}
    (decoded : Vm.Program.decode programBytes argumentBytes tables claims = .ok program) :
    ∃ contents, readProgram (claims.value 10) programBytes = .ok contents ∧
      contents.result = program.resultType ∧ contents.ids = program.tables.map (·.id) ∧
      contents.registers = program.registerTypes ∧ contents.constants.map Prod.snd = program.constants ∧
      contents.instructions = program.instructions := by
  simp only [Vm.Program.decode, bind_eq_ok, Prod.exists, refuse_eq_ok, exists_const] at decoded
  obtain ⟨header, input, headed, -, -, -, -, -, -, descriptor, afterResult, framed, result, described, ids,
    afterTables, tabled, same, arguments, afterArguments, argued, registers, afterRegisters, registered,
    constants, afterConstants, pooled, instructions, afterCode, coded, ⟨⟩, done, -, -, -, -, values, -, -, ⟨⟩,
    -, ⟨⟩, -, built⟩ := decoded
  cases built
  refine ⟨⟨result, ids, arguments, registers, constants, instructions⟩, ?_, rfl, not_not.mp same, rfl, rfl, rfl⟩
  simp only [readProgram, headed, framed, described, tabled, argued, registered, pooled, coded, done, ok_bind,
    pure_eq_ok]

/-! ## The parts of a layout -/

theorem readBlob_framed {bytes : Bytes} (small : bytes.length < 2 ^ 32) (rest : Bytes) :
    readBlob (framed bytes ++ rest) = .ok (bytes, rest) := by
  simp only [readBlob, framed, List.append_assoc, readUint_leBytes (show bytes.length < 256 ^ 4 by omega),
    ok_bind, Vm.Program.take, takeBytes_append]

theorem readTableIds_idBytes {ids : List Nat} (valid : ∀ id ∈ ids, id ≠ 0 ∧ id < maxU64)
    (sorted : ids.Pairwise (· < ·)) {last : Option Nat} (after : ∀ id ∈ ids, ∀ previous ∈ last, previous < id) :
    Vm.Program.readTableIds ids.length last (idBytes ids) = .ok ids := by
  induction ids generalizing last with
  | nil => rfl
  | cons id ids ih =>
      obtain ⟨later, sorted⟩ := List.pairwise_cons.mp sorted
      obtain ⟨positive, bounded⟩ := valid id List.mem_cons_self
      have small : id < 256 ^ 8 := by
        simp only [maxU64] at bounded
        omega
      have increasing : ¬ (id = 0 ∨ id = maxU64 ∨ last.any (fun last => decide (last ≥ id))) := by
        rintro (zero | maximal | before)
        · exact positive zero
        · omega
        · simp only [Option.any_eq_true, ge_iff_le, decide_eq_true_eq] at before
          obtain ⟨previous, same, least⟩ := before
          have less := after id List.mem_cons_self previous same
          omega
      simp only [List.length_cons, Vm.Program.readTableIds, idBytes, List.flatMap_cons,
        readUint_leBytes small, ok_bind, refuse_of_not _ increasing]
      have rest : Vm.Program.readTableIds ids.length (some id) (idBytes ids) = .ok ids :=
        ih (fun other member => valid other (List.mem_cons_of_mem _ member)) sorted
          fun other member previous same => by
            cases same
            exact later other member
      rw [idBytes] at rest
      rw [rest]
      rfl

theorem readTables_idBytes {ids : List Nat} (valid : ∀ id ∈ ids, id ≠ 0 ∧ id < maxU64)
    (sorted : ids.Pairwise (· < ·)) (rest : Bytes) :
    readTables (idBytes ids ++ rest) ids.length = .ok (ids, rest) := by
  have split : Vm.Program.take (idBytes ids ++ rest) (ids.length * 8) = .ok (idBytes ids, rest) := by
    rw [show ids.length * 8 = (idBytes ids).length by rw [length_idBytes]; omega]
    exact takeBytes_append _ _ _
  have starting : Vm.Program.readTableIds ids.length none (idBytes ids) = .ok ids :=
    readTableIds_idBytes valid sorted fun _ _ _ absent => nomatch absent
  simp only [readTables, split, ok_bind, starting]
  rfl

theorem readBlob_described {ty : Ty} (described : ty.Described) (rest : Bytes) :
    Vm.Program.readBlob (framed ty.descriptor ++ rest) = .ok (ty.descriptor, rest) := by
  have short := described.short
  simp only [Vm.maxDescriptorBytes] at short
  exact readBlob_framed (by omega) rest

theorem readTypes_typeBytes {check : Ty → Except Vm.Error Unit} {types : List Ty}
    (described : ∀ ty ∈ types, ty.Described) (accepted : ∀ ty ∈ types, check ty = .ok ()) (rest : Bytes) :
    readTypes check types.length (typeBytes types ++ rest) = .ok (types, rest) := by
  induction types with
  | nil => rfl
  | cons ty types ih =>
      have first := described ty List.mem_cons_self
      have others := ih (fun other member => described other (List.mem_cons_of_mem _ member))
        fun other member => accepted other (List.mem_cons_of_mem _ member)
      have whole : typeBytes (ty :: types) = framed ty.descriptor ++ typeBytes types := rfl
      rw [whole, List.append_assoc, List.length_cons, readTypes, readBlob_described first]
      simp only [ok_bind, first.decode, accepted ty List.mem_cons_self, others]
      rfl

/-- A constant of the template stands for a value. -/
structure Constant (constant : Ty × Bytes) (value : Value) : Prop where
  described : constant.1.Described
  plain : isRows constant.1 = false
  accepts : constant.1.accepts value = true
  encoded : constant.2 = value.encode

theorem Constant.length_lt {constant : Ty × Bytes} {value : Value} (stands : Constant constant value) :
    constant.2.length < 2 ^ 32 := by
  have size := stands.described.formed.size_le
  have fits := Vm.encodedLen_le constant.1 value stands.accepts
  rw [stands.encoded, Vm.length_encode]
  simp only [Vm.maxValueBytes] at size
  omega

theorem readConstants_constantBytes {limit : Nat} {constants : List (Ty × Bytes)} {values : List Value}
    (stand : List.Forall₂ Constant constants values)
    (short : ∀ constant ∈ constants, constant.2.length ≤ limit) (rest : Bytes) :
    readConstants limit constants.length (constantBytes constants ++ rest) =
      .ok ((constants.map Prod.fst).zip values, rest) := by
  induction stand with
  | nil => rfl
  | @cons constant value constants values stands others ih =>
      obtain ⟨ty, bytes⟩ := constant
      have within := short _ List.mem_cons_self
      have rest' := ih fun other member => short other (List.mem_cons_of_mem _ member)
      have whole : constantBytes ((ty, bytes) :: constants) ++ rest =
          framed ty.descriptor ++ (framed bytes ++ (constantBytes constants ++ rest)) := by
        simp [constantBytes]
      have decoded : Vm.decodeValue ty bytes = .ok value := by
        rw [show bytes = value.encode from stands.encoded]
        exact Vm.decodeValue_encode stands.described.formed stands.accepts
      have plain : ¬ isRows ty = true := by
        have := stands.plain
        simp_all
      rw [whole, List.length_cons, readConstants, readBlob_described stands.described, ok_bind]
      simp only [stands.described.decode, ok_bind, refuse_of_not _ plain, readBlob_framed stands.length_lt,
        refuse_of_not _ (show ¬ bytes.length > limit by simpa using within), decoded, rest']
      rfl

theorem codeOf_lt (instruction : Vm.Instruction) : codeOf instruction < 256 := by
  cases instruction with
  | binary op => cases op <;> simp [codeOf, binaryCode]
  | unary op => cases op <;> simp [codeOf, unaryCode]
  | _ => simp [codeOf]

theorem length_operandBytes (operands : List Nat) : (operandBytes operands).length = 2 * operands.length := by
  induction operands with
  | nil => rfl
  | cons operand operands ih =>
      rw [operandBytes_cons, List.length_append, length_leBytes, ih, List.length_cons]
      omega

theorem length_operandsOf_lt {instruction : Vm.Instruction} (fits : Fits instruction) :
    (operandsOf instruction).length < 256 ^ 2 := by
  cases instruction with
  | tuple dst fields =>
      have few := fits.2
      simp only [operandsOf, length_operandBytes, List.length_append, List.length_cons, List.length_nil]
      omega
  | _ =>
      simp only [operandsOf, length_operandBytes, List.length_append, List.length_cons, List.length_nil,
        length_leBytes]
      norm_num

/-- Code is read as the instructions it stands for. -/
theorem readInstructions_code {instructions : List Instruction} {meanings : List Vm.Instruction}
    (means : List.Forall₂ (fun encoded meaning => Means encoded meaning ∧ Fits meaning) instructions meanings)
    (rest : Bytes) :
    readInstructions instructions.length (instructions.flatMap frame ++ rest) = .ok (meanings, rest) := by
  induction means with
  | nil => rfl
  | @cons encoded meaning instructions meanings first others ih =>
      obtain ⟨means, fits⟩ := first
      have opcode : encoded.opcode < 256 ^ 1 := by
        rw [means.opcode]
        exact codeOf_lt meaning
      have operands : encoded.operands.length < 256 ^ 2 := by
        rw [means.operands]
        exact length_operandsOf_lt fits
      have flags : ([0] : Bytes) = leBytes 1 0 := rfl
      have read : Vm.Program.readInstruction encoded.opcode encoded.operands = .ok (meaning, []) := by
        rw [means.opcode, means.operands]
        exact readInstruction_operandsOf fits
      have split (input : Bytes) : Vm.Program.take (encoded.operands ++ input) encoded.operands.length =
          .ok (encoded.operands, input) := takeBytes_append _ _ _
      simp only [List.length_cons, List.flatMap_cons, frame, List.append_assoc, readInstructions, flags,
        readUint_leBytes opcode, readUint_leBytes (show 0 < 256 ^ 1 by decide), readUint_leBytes operands,
        ok_bind, split, read, ih]
      rw [refuse_of_not _ (by simp), ok_bind, refuse_of_not _ (by simp)]
      rfl

/-! ## Whole programs -/

/-- The parts of a program are readable, and its code and constants stand for these
instructions and values. -/
structure Compiled.Readable (compiled : Compiled) (values : List Value) (meanings : List Vm.Instruction) :
    Prop where
  counted : compiled.Counted
  nonempty : compiled.instructions ≠ []
  result : compiled.result.Described
  arguments : ∀ ty ∈ compiled.arguments, ty.Described ∧ isRows ty = false
  registers : ∀ ty ∈ compiled.registers, ty.Described
  constants : List.Forall₂ Constant compiled.constants values
  code : List.Forall₂ (fun encoded meaning => Means encoded meaning ∧ Fits meaning) compiled.instructions meanings

/-- The header of a layout. -/
theorem header_layout {compiled : Compiled} (counted : compiled.Counted)
    (nonempty : compiled.instructions ≠ []) {tables : Bytes}
    (short : (compiled.layout tables).length ≤ valueLimit) :
    header (compiled.layout tables) =
      .ok (⟨compiled.registers.length, compiled.arguments.length, compiled.tableCount,
        compiled.constants.length, compiled.instructions.length⟩, compiled.body tables) := by
  obtain ⟨arguments, registers, tableCount, constants, instructions⟩ := counted
  have some := List.length_pos_iff.mpr nonempty
  have total := compiled.length_layout tables
  have bounded : ¬ (compiled.layout tables).length > Vm.maxProgramBytes := by
    simp only [Vm.maxProgramBytes, valueLimit] at short ⊢
    omega
  have fits : 32 + (compiled.body tables).length < 256 ^ 4 := by
    simp only [valueLimit] at short
    omega
  have magic (rest : Bytes) : Vm.Program.take (Vm.Program.magic ++ rest) 8 = .ok (Vm.Program.magic, rest) :=
    takeBytes_append _ Vm.Program.magic rest
  have laid : compiled.layout tables = Vm.Program.magic ++ (leBytes 2 1 ++ (leBytes 2 0 ++
      (leBytes 4 (32 + (compiled.body tables).length) ++ (leBytes 2 compiled.registers.length ++
      (leBytes 2 compiled.arguments.length ++ (leBytes 2 compiled.tableCount ++
      (leBytes 2 compiled.constants.length ++ (leBytes 4 compiled.instructions.length ++ (leBytes 4 0 ++
        compiled.body tables))))))))) := by
    simp only [Compiled.layout, Compiled.versionBytes, Compiled.counts, List.append_assoc]
  rw [header, refuse_of_not _ bounded, ok_bind, total]
  simp only [laid, magic, ok_bind, readUint_leBytes (show 1 < 256 ^ 2 by decide),
    readUint_leBytes (show 0 < 256 ^ 2 by decide), readUint_leBytes fits,
    readUint_leBytes (show compiled.registers.length < 256 ^ 2 by omega),
    readUint_leBytes (show compiled.arguments.length < 256 ^ 2 by omega),
    readUint_leBytes (show compiled.tableCount < 256 ^ 2 by omega),
    readUint_leBytes (show compiled.constants.length < 256 ^ 2 by omega),
    readUint_leBytes (show compiled.instructions.length < 256 ^ 4 by omega),
    readUint_leBytes (show 0 < 256 ^ 4 by decide)]
  rw [refuse_of_not _ (by simp), ok_bind, refuse_of_not _ (by simp), ok_bind, refuse_of_not _ (by simp),
    ok_bind, refuse_of_not _ (by simp), ok_bind, refuse_of_not _ (by omega), ok_bind,
    refuse_of_not _ (by simp)]
  rfl

/-- A layout is read back part by part. -/
theorem readProgram_layout {compiled : Compiled} {values : List Value} {meanings : List Vm.Instruction}
    (readable : compiled.Readable values meanings) {ids : List Nat}
    (valid : ∀ id ∈ ids, id ≠ 0 ∧ id < maxU64) (sorted : ids.Pairwise (· < ·))
    (length : ids.length = compiled.tableCount)
    (short : (compiled.layout (idBytes ids)).length ≤ valueLimit) {limit : Nat}
    (within : ∀ constant ∈ compiled.constants, constant.2.length ≤ limit) :
    readProgram limit (compiled.layout (idBytes ids)) =
      .ok ⟨compiled.result, ids, compiled.arguments, compiled.registers,
        (compiled.constants.map Prod.fst).zip values, meanings⟩ := by
  obtain ⟨counted, nonempty, result, arguments, registers, constants, code⟩ := readable
  have types : typeBytes (compiled.arguments ++ compiled.registers) =
      typeBytes compiled.arguments ++ typeBytes compiled.registers := by
    simp [typeBytes]
  have argumentTypes (rest : Bytes) :
      readTypes (fun ty => refuse (isRows ty) (.invalid "Rows cannot be an argument"))
        compiled.arguments.length (typeBytes compiled.arguments ++ rest) = .ok (compiled.arguments, rest) :=
    readTypes_typeBytes (fun ty member => (arguments ty member).1)
      (fun ty member => refuse_of_not _ (by simp [(arguments ty member).2])) rest
  have registerTypes (rest : Bytes) :
      readTypes (fun _ => .ok ()) compiled.registers.length (typeBytes compiled.registers ++ rest) =
        .ok (compiled.registers, rest) := readTypes_typeBytes registers (fun _ _ => rfl) rest
  have tables := readTables_idBytes valid sorted
  rw [length] at tables
  have instructions := readInstructions_code code []
  rw [List.append_nil] at instructions
  simp only [readProgram, header_layout counted nonempty short, ok_bind, Compiled.body, Compiled.pools, types,
    List.append_assoc, readBlob_described result, result.decode, tables, argumentTypes, registerTypes,
    readConstants_constantBytes constants within, instructions]
  rfl

end BlopDb.Macros
