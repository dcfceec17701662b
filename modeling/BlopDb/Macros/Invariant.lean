/-
# What the compiler keeps

Every register of the compiler has a type the machine can describe, every constant
stands for a value, and every instruction for an instruction of the machine whose
table operand is the index declared under its name.  Each step keeps this, and it
commutes with renumbering the declared tables: two compilations that differ in the
numbers of the tables run in lockstep.
-/

import BlopDb.Lib.Lockstep
import BlopDb.Macros.Compile
import BlopDb.Macros.Reading

namespace BlopDb.Macros

open BlopDb.Lib
open Storage.Encoding (checkedAdd checkedMul)
open Vm (Ty Value)
open Vm.Program (isRows)

/-! ## Types -/

theorem legal_eq_some {depth : Nat} {length : Option Nat} {size : Nat} :
    legal depth length = some size ↔ depth ≤ 16 ∧ length = some size ∧ size ≤ valueLimit := by
  unfold legal
  split_ifs with deep
  · simp only [false_iff, not_and]
    omega
  · simp only [Option.filter_eq_some_iff, decide_eq_true_eq]
    constructor
    · rintro ⟨same, fits⟩
      exact ⟨by omega, same, fits⟩
    · rintro ⟨-, same, fits⟩
      exact ⟨same, fits⟩

/-- Fields are added up. -/
theorem sizes_eq_some {depth : Nat} {fields : List Ty} {start total : Nat}
    (each : ∀ field ∈ fields, ∀ length, size depth false field = some length → length = field.maxValueBytes)
    (sized : sizes depth fields start = some total) : total = start + Ty.maxFieldsBytes fields := by
  induction fields generalizing start with
  | nil =>
      cases sized
      rfl
  | cons field fields ih =>
      simp only [sizes, Option.bind_eq_some_iff, Vm.checkedAdd_eq_some] at sized
      obtain ⟨length, measured, next, ⟨-, rfl⟩, rest⟩ := sized
      have first := each field List.mem_cons_self length measured
      have others := ih (fun other member => each other (List.mem_cons_of_mem _ member)) rest
      simp only [Ty.maxFieldsBytes]
      omega

/-- Every field of a measured list is measured. -/
theorem size_of_mem {depth : Nat} {fields : List Ty} {start total : Nat}
    (sized : sizes depth fields start = some total) {field : Ty} (member : field ∈ fields) :
    ∃ length, size depth false field = some length := by
  induction fields generalizing start with
  | nil => cases member
  | cons first fields ih =>
      simp only [sizes, Option.bind_eq_some_iff] at sized
      obtain ⟨length, measured, next, -, rest⟩ := sized
      cases member with
      | head => exact ⟨length, measured⟩
      | tail _ member => exact ih rest member

/-- A legal type is one the machine decodes, with the same largest size. -/
theorem size_sound {levels depth : Nat} (nested : depth + levels = 17) {allowRows : Bool}
    (top : allowRows = true → depth = 1) {ty : Ty} {length : Nat} (sized : size depth allowRows ty = some length) :
    ty.Formed levels ∧ length = ty.maxValueBytes ∧ (allowRows = false → isRows ty = false) := by
  induction levels generalizing depth allowRows ty length with
  | zero =>
      have deep : depth > 16 := by omega
      cases ty <;> simp [size, legal, deep] at sized
  | succ levels ih =>
      have inner {ty : Ty} {length : Nat} (sized : size (depth + 1) false ty = some length) :=
        ih (show depth + 1 + levels = 17 by omega) (fun absurd => by cases absurd) sized
      cases ty with
      | tuple fields =>
          simp only [size, legal_eq_some] at sized
          obtain ⟨-, summed, fits⟩ := sized
          split_ifs at summed with few
          have total := sizes_eq_some (fun field _ length measured => (inner measured).2.1) summed
          rw [Nat.zero_add] at total
          refine ⟨⟨?_, few, ?_⟩, total, fun _ => rfl⟩
          · rw [← show length = Ty.maxValueBytes (.tuple fields) from total]
            exact fits
          · intro field member
            obtain ⟨length, measured⟩ := size_of_mem summed member
            exact (inner measured).1
      | rows count key value =>
          simp only [size, legal_eq_some] at sized
          obtain ⟨-, summed, fits⟩ := sized
          split_ifs at summed with allowed
          simp only [Option.bind_eq_some_iff, Vm.checkedAdd_eq_some, Vm.checkedMul_eq_some] at summed
          obtain ⟨keyLength, keyed, valueLength, valued, _, ⟨-, rfl⟩, -, rfl⟩ := summed
          obtain ⟨keyFormed, rfl, -⟩ := inner keyed
          obtain ⟨valueFormed, rfl, -⟩ := inner valued
          have depthOne := top allowed.1
          have total : (key.maxValueBytes + value.maxValueBytes) * count + 4 =
              Ty.maxValueBytes (.rows count key value) := by
            simp only [Ty.maxValueBytes]
            ring
          refine ⟨⟨?_, ?_, allowed.2, keyFormed, valueFormed⟩, total, fun plain => ?_⟩
          · rw [← total]
            exact fits
          · omega
          · rw [plain] at allowed
            exact absurd allowed.1 (by decide)
      | _ =>
          simp only [size, legal_eq_some, Option.some.injEq] at sized
          obtain ⟨-, rfl, fits⟩ := sized
          exact ⟨⟨fits, trivial⟩, rfl, fun _ => rfl⟩

theorem described_of_validateType {ty : Ty} {allowRows : Bool} {done : Unit}
    (valid : validateType ty allowRows = .ok done) :
    ty.Described ∧ (allowRows = false → isRows ty = false) := by
  simp only [validateType, refuse_eq_ok, not_or, Option.isNone_iff_eq_none, not_lt, gt_iff_lt] at valid
  obtain ⟨measured, short⟩ := valid
  obtain ⟨length, sized⟩ := Option.ne_none_iff_exists'.mp measured
  obtain ⟨formed, -, plain⟩ := size_sound (show 1 + 16 = 17 from rfl) (fun _ => rfl) sized
  exact ⟨⟨formed, short⟩, plain⟩

/-! ## Renumbering -/

/-- A table under another number. -/
def TableInfo.rename (rename : Nat → Nat) (table : TableInfo) : TableInfo :=
  { table with index := rename table.index }

/-- The compiler with its tables under other numbers. -/
def Compiler.rename (rename : Nat → Nat) (compiler : Compiler) : Compiler :=
  { compiler with
    instructions := compiler.instructions.map (Instruction.rename rename)
    tables := fun name => (compiler.tables name).map (TableInfo.rename rename) }

/-- The instruction names a declared table by its number. -/
def Named (declared : String → Option TableInfo) (instruction : Instruction) : Prop :=
  ∀ offset index, instruction.table = some (offset, index) →
    ∃ table, declared table.name = some table ∧ table.index = index ∧ instruction.name = some table.name

theorem Named.of_none (declared : String → Option TableInfo) {instruction : Instruction}
    (none : instruction.table = none) : Named declared instruction := by
  intro offset index found
  rw [none] at found
  cases found

/-- Every part of the compiler can be read back. -/
structure Compiler.Sound (declared : String → Option TableInfo) (compiler : Compiler) : Prop where
  tables : compiler.tables = declared
  indexed : ∀ name table, declared name = some table → table.name = name ∧ table.index < 65535
  fewRegisters : compiler.registers.length ≤ 65535
  fewConstants : compiler.constants.length ≤ 65535
  fewInstructions : compiler.instructions.length ≤ 65535
  registers : ∀ ty ∈ compiler.registers, ty.Described
  constants : ∀ constant ∈ compiler.constants, ∃ value, Constant constant value
  code : ∀ instruction ∈ compiler.instructions,
    (∃ meaning, Means instruction meaning ∧ Fits meaning) ∧ Named declared instruction
  locals : ∀ name found, compiler.locals name = some found → found.register < compiler.registers.length
  captures : ∀ name register, compiler.captures name = some register → register < compiler.registers.length

/-- Registers are only added, and instructions keep their opcodes. -/
structure Compiler.Grows (before after : Compiler) : Prop where
  registers : before.registers.length ≤ after.registers.length
  opcodes : before.instructions.map (·.opcode) <+: after.instructions.map (·.opcode)

instance : IsPreorder Compiler Compiler.Grows where
  refl _ := ⟨le_rfl, List.prefix_rfl⟩
  trans _ _ _ first second := ⟨first.registers.trans second.registers, first.opcodes.trans second.opcodes⟩

theorem Compiler.Grows.register {before after : Compiler} (grows : before.Grows after) {register : Nat}
    (inside : register < before.registers.length) : register < after.registers.length :=
  inside.trans_le grows.registers

/-- The steps of two compilations whose tables have other numbers. -/
abbrev Tracks (rename : Nat → Nat) (declared : String → Option TableInfo) {α β : Type} (compiler : Compiler)
    (first : CompileM α) (second : CompileM β) (post : α → β → Compiler → Prop) : Prop :=
  Lockstep (Compiler.rename rename) (Compiler.Sound declared) Compiler.Grows compiler first second post

/-- The same register on both sides. -/
def Held (register register' : Nat) (compiler : Compiler) : Prop :=
  register = register' ∧ register < compiler.registers.length

theorem poolIndex_eq_ok {length index : Nat} : poolIndex length = .ok index ↔ length < 65535 ∧ length = index := by
  simp only [poolIndex, bind_eq_ok, refuse_eq_ok, exists_const, pure_eq_ok, Except.ok.injEq, ge_iff_le, not_le]

/-- Operands added to the last instruction are pushed with it. -/
theorem push_extendOperands {α : Type} (instruction : Instruction) (bytes : Bytes) (next : Nat → CompileM α) :
    (do let index ← push instruction
        extendOperands index bytes
        next index) =
      (do let index ← push { instruction with operands := instruction.operands ++ bytes }
          next index) := by
  funext compiler
  cases pooled : poolIndex compiler.instructions.length with
  | error error =>
      have fails (instruction : Instruction) : push instruction compiler = .error error := by
        simp only [push, pooled, error_bind]
      simp only [Lockstep.bind_apply, fails, error_bind]
  | ok index =>
      have returns (instruction : Instruction) : push instruction compiler =
          .ok (index, { compiler with instructions := compiler.instructions ++ [instruction] }) := by
        simp only [push, pooled, ok_bind, pure_eq_ok]
      obtain ⟨-, rfl⟩ := poolIndex_eq_ok.mp pooled
      simp only [Lockstep.bind_apply, returns, ok_bind, extendOperands, List.getElem?_concat_length,
        List.set_append_right _ _ le_rfl, Nat.sub_self, List.set_cons_zero]

/-- A jump has the target of a patched one in its last four bytes. -/
theorem patched_jump {instruction : Instruction} {meaning : Vm.Instruction} (means : Means instruction meaning)
    (fits : Fits meaning) (jump : instruction.opcode = 0x60 ∨ instruction.opcode = 0x61) {target : Nat}
    (small : target < 2 ^ 32) :
    instruction.table = none ∧ ¬ instruction.operands.length < 4 ∧
      ∃ meaning', Means { instruction with
        operands := overwrite instruction.operands (instruction.operands.length - 4) (leBytes 4 target) }
          meaning' ∧ Fits meaning' := by
  obtain ⟨opcode, operands, table⟩ := means
  rw [opcode] at jump
  cases meaning with
  | jump old =>
      have length : instruction.operands.length = 4 := by
        rw [operands]
        exact length_leBytes 4 old
      refine ⟨table, by omega, .jump target, ⟨opcode, ?_, table⟩, small⟩
      rw [length]
      exact overwrite_self (length.trans (length_leBytes 4 target).symm)
  | jumpIfFalse condition old =>
      have length : instruction.operands.length = 6 := by
        rw [operands]
        simp [operandsOf, length_operandBytes]
      refine ⟨table, by omega, .jumpIfFalse condition target, ⟨opcode, ?_, table⟩, fits.1, small⟩
      rw [length, operands]
      refine (overwrite_append_right _ _ (by simp [length_operandBytes])).trans (congrArg _ ?_)
      rw [length_operandBytes]
      exact overwrite_self (by simp)
  | binary op a b c => cases op <;> simp [codeOf, binaryCode] at jump
  | unary op a b => cases op <;> simp [codeOf, unaryCode] at jump
  | _ => simp [codeOf] at jump

section Pure

variable {rename : Nat → Nat} {declared : String → Option TableInfo} {compiler : Compiler} {α β γ : Type}
  {post : β → γ → Compiler → Prop}

theorem bind_lift {result : Except CompileError α} {next : α → CompileM β} {next' : α → CompileM γ}
    (continues : ∀ value, result = .ok value → Tracks rename declared compiler (next value) (next' value) post) :
    Tracks rename declared compiler (lift result >>= next) (lift result >>= next') post := by
  cases result with
  | error error => exact .bind_fails rfl rfl
  | ok value => exact .bind_stay rfl rfl (continues value rfl)

theorem bind_reject {bad : Prop} [Decidable bad] {error : CompileError} {next : Unit → CompileM β}
    {next' : Unit → CompileM γ} (continues : ¬ bad → Tracks rename declared compiler (next ()) (next' ()) post) :
    Tracks rename declared compiler (reject bad error >>= next) (reject bad error >>= next') post := by
  by_cases holds : bad
  · exact .bind_fails (if_pos holds) (if_pos holds)
  · exact .bind_stay (if_neg holds) (if_neg holds) (continues holds)

theorem bind_orFail {value : Option α} {error : CompileError} {next : α → CompileM β} {next' : α → CompileM γ}
    (continues : ∀ found, value = some found → Tracks rename declared compiler (next found) (next' found) post) :
    Tracks rename declared compiler (orFail value error >>= next) (orFail value error >>= next') post := by
  cases value with
  | none => exact .bind_fails rfl rfl
  | some found => exact .bind_stay rfl rfl (continues found rfl)

theorem bind_tyOf (sound : compiler.Sound declared) {register : Nat}
    (inside : register < compiler.registers.length) {next : Ty → CompileM β} {next' : Ty → CompileM γ}
    (continues : ∀ ty, ty.Described → Tracks rename declared compiler (next ty) (next' ty) post) :
    Tracks rename declared compiler (tyOf register >>= next) (tyOf register >>= next') post := by
  have found := List.getElem?_eq_getElem inside
  have returns (compiler' : Compiler) (same : compiler'.registers = compiler.registers) :
      tyOf register compiler' = .ok (compiler.registers[register], compiler') := by
    simp only [tyOf, same, found]
  exact .bind_stay (returns _ rfl) (returns _ rfl)
    (continues _ (sound.registers _ (List.getElem_mem inside)))

end Pure

section Steps

variable {rename : Nat → Nat} {declared : String → Option TableInfo} {compiler : Compiler}
  (sound : compiler.Sound declared)

include sound

theorem tracks_register (ty : Ty) :
    Tracks rename declared compiler (register ty) (register ty)
      fun register register' after => Held register register' after ∧ ty.Described ∧
        after.constants = compiler.constants := by
  cases valid : validateType ty true with
  | error error =>
      have fails (compiler : Compiler) : register ty compiler = .error error := by
        simp only [register, valid, error_bind]
      exact .fails error (fails _) (fails _)
  | ok done =>
      obtain ⟨described, -⟩ := described_of_validateType valid
      cases pooled : poolIndex compiler.registers.length with
      | error error =>
          have fails (compiler' : Compiler) (same : compiler'.registers = compiler.registers) :
              register ty compiler' = .error error := by
            simp only [register, valid, ok_bind, same, pooled, error_bind]
          exact .fails error (fails _ rfl) (fails _ rfl)
      | ok index =>
          have returns (compiler' : Compiler) (same : compiler'.registers = compiler.registers) :
              register ty compiler' =
                .ok (index, { compiler' with registers := compiler'.registers ++ [ty] }) := by
            simp only [register, valid, ok_bind, same, pooled, pure_eq_ok]
          obtain ⟨small, rfl⟩ := poolIndex_eq_ok.mp pooled
          have longer : compiler.registers.length < (compiler.registers ++ [ty]).length := by simp
          refine .returns _ _ _ (returns _ rfl) (returns _ rfl) ?_ ⟨longer.le, List.prefix_rfl⟩
            ⟨⟨rfl, longer⟩, described, rfl⟩
          exact { sound with
            fewRegisters := by simpa using small
            registers := by
              simp only [List.mem_append, List.mem_singleton]
              rintro other (member | rfl)
              · exact sound.registers other member
              · exact described
            locals := fun name found known => (sound.locals name found known).trans longer
            captures := fun name register known => (sound.captures name register known).trans longer }

/-- An instruction is appended under both numberings. -/
theorem tracks_push {instruction instruction' : Instruction} {meaning : Vm.Instruction}
    (means : Means instruction meaning) (means' : Means instruction' (mapTable rename meaning))
    (names : instruction'.name = instruction.name) (fits : Fits meaning) (named : Named declared instruction) :
    Tracks rename declared compiler (push instruction) (push instruction') fun index index' after =>
      index = index' ∧ (after.instructions.map (·.opcode))[index]? = some instruction.opcode := by
  have renamed : instruction.rename rename = instruction' :=
    (means.rename rename).ext means' (by rw [Instruction.rename_name, names])
  have length : (compiler.rename rename).instructions.length = compiler.instructions.length := by
    simp [Compiler.rename]
  cases pooled : poolIndex compiler.instructions.length with
  | error error =>
      have fails (compiler' : Compiler) (same : compiler'.instructions.length = compiler.instructions.length)
          (instruction : Instruction) : push instruction compiler' = .error error := by
        simp only [push, same, pooled, error_bind]
      exact .fails error (fails _ rfl _) (fails _ length _)
  | ok index =>
      have returns (compiler' : Compiler) (same : compiler'.instructions.length = compiler.instructions.length)
          (instruction : Instruction) : push instruction compiler' =
            .ok (index, { compiler' with instructions := compiler'.instructions ++ [instruction] }) := by
        simp only [push, same, pooled, ok_bind, pure_eq_ok]
      obtain ⟨small, rfl⟩ := poolIndex_eq_ok.mp pooled
      refine .returns _ _ { compiler with instructions := compiler.instructions ++ [instruction] }
        (returns _ rfl _) ?_ ?_ ⟨le_rfl, ?_⟩ ⟨rfl, ?_⟩
      · rw [returns _ length, Compiler.rename, Compiler.rename]
        simp only [List.map_append, List.map_cons, List.map_nil, renamed]
      · exact { sound with
          fewInstructions := by simpa using small
          code := by
            simp only [List.mem_append, List.mem_singleton]
            rintro other (member | rfl)
            · exact sound.code other member
            · exact ⟨⟨meaning, means, fits⟩, named⟩ }
      · simp only [List.map_append]
        exact List.prefix_append _ _
      · simp

/-- An instruction without a table is appended. -/
theorem tracks_emit {opcode : Nat} {operands : List Nat} {meaning : Vm.Instruction}
    (means : Means ⟨opcode, operandBytes operands, none, none⟩ meaning) (fits : Fits meaning) :
    Tracks rename declared compiler (emit opcode operands) (emit opcode operands) fun _ _ after =>
      after.instructions ≠ [] := by
  have same : mapTable rename meaning = meaning := mapTable_of_none rename means.table.symm
  refine (tracks_push sound means (by rwa [same]) rfl fits (.of_none declared rfl)).weaken ?_
  rintro index _ after - ⟨-, found⟩ empty
  simp [empty] at found

/-- An instruction with a table is appended with its number. -/
theorem tracks_emitTable {opcode : Nat} {operands operands' : List Nat} {offset : Nat} {table : TableInfo}
    {meaning : Vm.Instruction} (known : declared table.name = some table)
    (means : Means ⟨opcode, operandBytes operands, some (offset, table.index), some table.name⟩ meaning)
    (means' : Means ⟨opcode, operandBytes operands', some (offset, rename table.index), some table.name⟩
      (mapTable rename meaning)) (fits : Fits meaning) :
    Tracks rename declared compiler (emitTable opcode operands offset table)
      (emitTable opcode operands' offset (table.rename rename)) fun _ _ _ => True := by
  refine (tracks_push sound means means' rfl fits ?_).weaken fun _ _ _ _ _ => trivial
  rintro _ _ ⟨⟩
  exact ⟨table, known, rfl, rfl⟩

/-- The instruction at an index is a jump. -/
def Jumps (index : Nat) (compiler : Compiler) : Prop :=
  ∃ opcode, (compiler.instructions.map (·.opcode))[index]? = some opcode ∧ (opcode = 0x60 ∨ opcode = 0x61)

omit sound in
theorem Jumps.grows {index : Nat} {after : Compiler} (jumps : Jumps index compiler)
    (grows : compiler.Grows after) : Jumps index after := by
  obtain ⟨opcode, found, jump⟩ := jumps
  obtain ⟨inside, same⟩ := List.getElem?_eq_some_iff.mp found
  have kept := grows.opcodes.getElem inside
  refine ⟨opcode, ?_, jump⟩
  rw [List.getElem?_eq_getElem (inside.trans_le grows.opcodes.length_le), ← kept, same]

theorem tracks_jump {condition : Option Nat}
    (inside : ∀ register ∈ condition, register < compiler.registers.length) :
    Tracks rename declared compiler (jump condition) (jump condition)
      fun index index' after => index = index' ∧ Jumps index after := by
  have few := sound.fewRegisters
  cases condition with
  | none =>
      have pushes : jump none = push ⟨0x60, leBytes 4 0, none, none⟩ :=
        (push_extendOperands ⟨0x60, [], none, none⟩ (leBytes 4 0) pure).trans (bind_pure _)
      rw [pushes]
      refine (tracks_push sound (show Means _ (.jump 0) from ⟨rfl, rfl, rfl⟩) ⟨rfl, rfl, rfl⟩ rfl
        (show 0 < 2 ^ 32 by decide) (.of_none declared rfl)).weaken ?_
      rintro index _ after - ⟨same, found⟩
      exact ⟨same, 0x60, found, .inl rfl⟩
  | some condition =>
      have pushes : jump (some condition) =
          push ⟨0x61, operandBytes [condition] ++ leBytes 4 0, none, none⟩ :=
        (push_extendOperands ⟨0x61, operandBytes [condition], none, none⟩ (leBytes 4 0) pure).trans
          (bind_pure _)
      have short : Short [condition] := by
        have := inside condition rfl
        simp only [Short, List.mem_singleton, forall_eq]
        omega
      rw [pushes]
      refine (tracks_push sound (show Means _ (.jumpIfFalse condition 0) from ⟨rfl, rfl, rfl⟩)
        ⟨rfl, rfl, rfl⟩ rfl ⟨short, show 0 < 2 ^ 32 by decide⟩ (.of_none declared rfl)).weaken ?_
      rintro index _ after - ⟨same, found⟩
      exact ⟨same, 0x61, found, .inr rfl⟩

/-- A jump is patched under both numberings. -/
theorem tracks_patchJump {index : Nat} (jumps : Jumps index compiler) :
    Tracks rename declared compiler (patchJump index) (patchJump index) fun _ _ after =>
      after.instructions ≠ [] := by
  obtain ⟨opcode, known, jump⟩ := jumps
  rw [List.getElem?_map] at known
  obtain ⟨instruction, found, rfl⟩ := Option.map_eq_some_iff.mp known
  obtain ⟨⟨meaning, means, fits⟩, -⟩ := sound.code instruction (List.mem_of_getElem? found)
  have few := sound.fewInstructions
  obtain ⟨table, long, meaning', means', fits'⟩ :=
    patched_jump means fits jump (show compiler.instructions.length < 2 ^ 32 by omega)
  have same : instruction.rename rename = instruction := by
    simp only [Instruction.rename, table]
  generalize patched : { instruction with
      operands := overwrite instruction.operands (instruction.operands.length - 4)
        (leBytes 4 compiler.instructions.length) } = instruction' at means'
  have samePatched : instruction'.rename rename = instruction' := by
    simp only [← patched, Instruction.rename, table]
  have returns : patchJump index compiler =
      .ok ((), { compiler with instructions := compiler.instructions.set index instruction' }) := by
    simp only [patchJump, found, if_neg long, patched]
  have foundImage : (compiler.rename rename).instructions[index]? = some instruction := by
    simp only [Compiler.rename, List.getElem?_map, found, Option.map_some, same]
  refine .returns () () { compiler with instructions := compiler.instructions.set index instruction' }
    returns ?_ ?_ ⟨le_rfl, ?_⟩ ?_
  · simp only [patchJump, foundImage, if_neg long]
    simp only [Compiler.rename, List.length_map, patched, List.map_set, samePatched]
  · exact { sound with
      fewInstructions := by simpa using few
      code := by
        intro other member
        rcases List.mem_or_eq_of_mem_set member with old | rfl
        · exact sound.code other old
        · exact ⟨⟨meaning', means', fits'⟩, .of_none declared (by rw [← patched, table])⟩ }
  · have kept : (compiler.instructions.set index instruction').map (·.opcode) =
        compiler.instructions.map (·.opcode) := by
      ext1 position
      rw [List.map_set, List.getElem?_set]
      split_ifs with same inside
      · rw [← same, List.getElem?_map, found, ← patched]
        rfl
      · rw [← same, List.getElem?_eq_none (not_lt.mp inside)]
      · rfl
    rw [kept]
  · intro empty
    have inside := (List.getElem?_eq_some_iff.mp found).1
    have length := congrArg List.length empty
    simp only [List.length_set, List.length_nil] at length
    omega

theorem tracks_constant {ty : Ty} {bytes : Bytes} {value : Value} (accepts : ty.accepts value = true)
    (plain : isRows ty = false) (encoded : bytes = value.encode) :
    Tracks rename declared compiler (constant ty bytes) (constant ty bytes)
      fun register register' after => Held register register' after ∧ after.instructions ≠ [] := by
  refine .bind_get (bind_lift fun index pooled => (tracks_register sound ty).bind ?_)
  obtain ⟨small, rfl⟩ := poolIndex_eq_ok.mp pooled
  rintro register _ compiler₁ sound₁ - ⟨⟨rfl, inside⟩, described, kept⟩
  have added : Compiler.Sound declared
      { compiler₁ with constants := compiler₁.constants ++ [(ty, bytes)] } := by
    exact { sound₁ with
      fewConstants := by
        rw [List.length_append, kept]
        exact small
      constants := by
        simp only [List.mem_append, List.mem_singleton]
        rintro other (member | rfl)
        · exact sound₁.constants other member
        · exact ⟨value, described, plain, accepts, encoded⟩ }
  have short : Short [register, compiler.constants.length] := by
    have few := sound₁.fewRegisters
    simp only [Short, List.forall_mem_cons]
    exact ⟨by omega, by omega, by simp⟩
  refine .bind_update rfl ⟨le_rfl, List.prefix_rfl⟩ ((tracks_emit added (show Means _ (.const register compiler.constants.length) from ⟨rfl, rfl, rfl⟩)
    short).bind ?_)
  intro _ _ compiler₂ sound₂ grows₂ nonempty
  exact .pure sound₂ ⟨⟨rfl, grows₂.register inside⟩, nonempty⟩

end Steps

end BlopDb.Macros
