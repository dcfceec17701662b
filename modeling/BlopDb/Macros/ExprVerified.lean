/-
# Expressions verify

Each expression is compiled to code that initializes a register of the expected shape
and keeps the scope.  The checks the compiler makes on operand types are those the
verifier repeats on the instructions.
-/

import BlopDb.Macros.ExprSound
import BlopDb.Macros.Verified

namespace BlopDb.Macros

open BlopDb.Lib
open Vm (BinaryOp UnaryOp Ty Value)
open Vm.Program (isRows)

variable {compiler : Compiler} {needs : List Nat}

/-! ## Instructions -/

theorem register_run {ty : Ty} {result : Nat} {after : Compiler} (ran : register ty compiler = .ok (result, after)) :
    result = compiler.registers.length ∧ after = { compiler with registers := compiler.registers ++ [ty] } := by
  simp only [register, bind_eq_ok, pure_eq_ok, Except.ok.injEq, Prod.mk.injEq] at ran
  obtain ⟨_, -, _, pooled, rfl, rfl⟩ := ran
  exact ⟨(poolIndex_eq_ok.mp pooled).2.symm, rfl⟩

/-- A fresh register leaves the constants. -/
theorem codes_allocate (ty : Ty) :
    Codes compiler needs (register ty) (fun _ => []) (fun _ => true) fun result after =>
      (after.registers[result]? = some ty ∧ compiler.Kept after) ∧ after.constants = compiler.constants := by
  intro result after ran
  obtain ⟨rfl, rfl⟩ := register_run ran
  refine ⟨.silent ⟨List.prefix_append _ _, List.prefix_rfl, fun ty known => ⟨ty, known, sameShape_refl ty⟩, rfl⟩
    ⟨rfl, rfl⟩ rfl (by simp), ⟨List.getElem?_concat_length, ⟨rfl, rfl⟩, rfl⟩, rfl⟩

/-- A fresh register. -/
theorem codes_register (ty : Ty) :
    Codes compiler needs (register ty) (fun _ => []) (fun _ => true) fun result after =>
      after.registers[result]? = some ty ∧ compiler.Kept after :=
  (codes_allocate ty).weaken (List.Subset.refl _) (fun _ => List.nil_subset _) fun _ _ _ held => held.1

/-- An instruction whose successor is the next one. -/
theorem codes_push {instruction : Instruction} {meaning : Vm.Instruction} {destination : Option Nat}
    (means : Encodes instruction meaning) (falls : meaning.exit = .next)
    (verifies : Verifies compiler needs meaning destination) :
    Codes compiler needs (push instruction) (fun _ => destination.toList) (fun _ => true) fun _ after =>
      compiler.Kept after := by
  intro index after ran
  obtain ⟨-, rfl⟩ := push_run ran
  exact ⟨.instruction means falls verifies, ⟨rfl, rfl⟩, rfl⟩

/-- The result of an opcode in a fresh register. -/
theorem codes_emitResult {opcode : Nat} {ty : Ty} {operands : List Nat} (make : Nat → Vm.Instruction)
    (means : ∀ result, Encodes ⟨opcode, operandBytes (result :: operands), none, none⟩ (make result))
    (falls : ∀ result, (make result).exit = .next)
    (verifies : ∀ result after, compiler.Extends after → after.registers[result]? = some ty →
      Verifies after needs (make result) (some result)) :
    Codes compiler needs (emitResult opcode ty operands) (fun result => [result]) (fun _ => true)
      fun result after => after.registers[result]? = some ty ∧ compiler.Kept after := by
  refine (codes_register ty).bind fun result middle more ⟨typed, kept⟩ => ?_
  rw [List.append_nil]
  refine (codes_push (means result) (falls result) (verifies result middle more typed)).bind
    fun _ after more' kept' => ?_
  exact .pure rfl (by simp) ⟨more'.typed typed, kept.trans kept'⟩

/-! ## Operations -/

/-- A unary operation in a fresh register. -/
theorem codes_unary {source : Nat} (needed : source ∈ needs) {sourceType : Ty}
    (typed : compiler.registers[source]? = some sourceType) (op : UnaryOp) {ty : Ty}
    (checks : Vm.Program.verifyUnary op ty sourceType = .ok ()) :
    Codes compiler needs (emitResult (unaryCode op) ty [source]) (fun result => [result]) (fun _ => true)
      fun result after => after.registers[result]? = some ty ∧ compiler.Kept after := by
  refine codes_emitResult (fun result => .unary op result source) (fun _ => ⟨⟨rfl, rfl, rfl⟩, trivial⟩) (fun _ => rfl)
    fun result after more declared setting fulfils fact initialized => ?_
  have read := fulfils.source (more.typed typed) (initialized source needed)
  simp only [mapTable, Vm.Program.verifyInstruction, fulfils.typed declared, read, checks, ok_bind, pure_eq_ok]

/-- A binary operation in a fresh register. -/
theorem codes_binary {left right : Nat} (leftNeeded : left ∈ needs) (rightNeeded : right ∈ needs)
    {leftType rightType : Ty} (leftTyped : compiler.registers[left]? = some leftType)
    (rightTyped : compiler.registers[right]? = some rightType) (op : BinaryOp) {ty : Ty}
    (checks : Vm.Program.verifyBinary op ty leftType rightType = .ok ()) :
    Codes compiler needs (emitResult (binaryCode op) ty [left, right]) (fun result => [result]) (fun _ => true)
      fun result after => after.registers[result]? = some ty ∧ compiler.Kept after := by
  refine codes_emitResult (fun result => .binary op result left right) (fun _ => ⟨⟨rfl, rfl, rfl⟩, trivial⟩) (fun _ => rfl)
    fun result after more declared setting fulfils fact initialized => ?_
  have readLeft := fulfils.source (more.typed leftTyped) (initialized left leftNeeded)
  have readRight := fulfils.source (more.typed rightTyped) (initialized right rightNeeded)
  simp only [mapTable, Vm.Program.verifyInstruction, fulfils.typed declared, readLeft, readRight, checks, ok_bind,
    pure_eq_ok]

/-- A move between registers of one shape. -/
theorem codes_move {target source : Nat} (needed : source ∈ needs) {targetType sourceType : Ty}
    (targetTyped : compiler.registers[target]? = some targetType)
    (sourceTyped : compiler.registers[source]? = some sourceType)
    (same : sourceType.sameShape targetType = true) :
    Codes compiler needs (emit 0x03 [target, source]) (fun _ => [target]) (fun _ => true) fun _ after =>
      compiler.Kept after := by
  refine @codes_push _ _ ⟨0x03, operandBytes [target, source], none, none⟩ (.move target source) (some target)
    ⟨⟨rfl, rfl, rfl⟩, trivial⟩ rfl fun setting fulfils fact initialized => ?_
  have read := fulfils.source sourceTyped (initialized source needed)
  simp only [mapTable, Vm.Program.verifyInstruction, fulfils.typed targetTyped, read, ok_bind,
    sameShape_eq_ok (sameShape_symm same), pure_eq_ok]

theorem integer_of_isInteger {ty : Ty} (integer : isInteger ty = true) : Vm.Program.integer ty = .ok () := by
  cases ty <;> first | rfl | cases integer

/-- The type of the result of a binary opcode. -/
def resultType (opcode : Nat) (left : Ty) : Ty :=
  if 0x20 ≤ opcode ∧ opcode ≤ 0x2a then .boolean else left

/-- Types that a binary opcode takes verify with the type of its result. -/
theorem verifyBinary_of_validOperands {op : BinaryOp} {left right : Ty}
    (valid : validOperands (binaryCode op) left right = true) :
    Vm.Program.verifyBinary op (resultType (binaryCode op) left) left right = .ok () := by
  have reflexive := sameShape_eq_ok (sameShape_refl left)
  cases op with
  | add | sub | mul | div | rem | bitAnd | bitOr | bitXor =>
      simp only [validOperands, resultType, binaryCode, Nat.reduceLeDiff, and_self, and_true, and_false, or_false,
        false_or, if_true, if_false, Bool.and_eq_true, decide_eq_true_eq] at valid ⊢
      obtain ⟨integer, rfl⟩ := valid
      simp only [Vm.Program.verifyBinary, integer_of_isInteger integer, reflexive, ok_bind]
  | eq | lt | le | gt | ge =>
      simp only [validOperands, resultType, binaryCode, Nat.reduceLeDiff, and_self, and_false, false_and, or_self, if_true,
        if_false, Bool.and_eq_true, Bool.not_eq_true'] at valid ⊢
      obtain ⟨plain, same⟩ := valid
      simp only [Vm.Program.verifyBinary, sameShape_eq_ok (sameShape_refl .boolean), sameShape_eq_ok same, ok_bind]
      exact refuse_of_not _ (by simp [plain])
  | boolAnd | boolOr | boolXor =>
      simp only [validOperands, resultType, binaryCode, Nat.reduceLeDiff, and_self, and_true, and_false, or_false,
        if_true, if_false, Bool.and_eq_true, decide_eq_true_eq] at valid ⊢
      obtain ⟨rfl, rfl⟩ := valid
      rfl
  | shl | shr =>
      simp only [validOperands, resultType, binaryCode, Nat.reduceLeDiff, Nat.reduceEqDiff, and_false, or_false,
        or_true, if_true, if_false, Bool.and_eq_true, decide_eq_true_eq] at valid ⊢
      obtain ⟨integer, rfl⟩ := valid
      simp only [Vm.Program.verifyBinary, integer_of_isInteger integer, reflexive, ok_bind]
      rfl
  | rowsKey | rowsValue | concat => simp [validOperands, binaryCode] at valid

/-! ## Operands -/

/-- The action initializes a register of the expected shape. -/
def Yields (action : Option Ty → CompileM Nat) : Prop :=
  ∀ (compiler : Compiler) (needs : List Nat) (expected : Option Ty),
    Codes compiler needs (action expected) (fun result => [result]) (fun _ => true) fun result after =>
      (∀ ty ∈ expected, after.Typed result ty) ∧ compiler.Kept after

/-- The operand and, for an index expression, its key yield registers. -/
structure Argument.Yields (argument : Argument) : Prop where
  compile : Macros.Yields argument.compile
  key : ∀ base key, argument.key = some (base, key) → Macros.Yields key

theorem Argument.Yields.of_yields {expression : Expr} {action : Option Ty → CompileM Nat}
    (yields : Macros.Yields action) : Argument.Yields ⟨expression, action, none⟩ :=
  ⟨yields, fun _ _ absent => by cases absent⟩

/-- The table is declared under some name. -/
def Compiler.Declares (compiler : Compiler) (table : TableInfo) : Prop :=
  ∃ name, compiler.tables name = some table

theorem Compiler.Declares.later {table : TableInfo} (declares : compiler.Declares table) {after : Compiler}
    (more : compiler.Extends after) : after.Declares table := by
  obtain ⟨name, known⟩ := declares
  exact ⟨name, by rw [more.tables, known]⟩

theorem Setting.Fulfils.table {setting : Setting} (fulfils : setting.Fulfils compiler) {table : TableInfo}
    (declares : compiler.Declares table) :
    ∃ resolved, setting.machine.table (setting.slot table.index) = .ok resolved ∧
      resolved.key.sameShape table.key = true ∧ resolved.value.sameShape table.value = true := by
  obtain ⟨name, known⟩ := declares
  obtain ⟨resolved, found, shapes⟩ := fulfils.tables name table known
  refine ⟨resolved, ?_, shapes⟩
  rw [Vm.Program.table, Vm.Program.at?, found]

/-- An action on one register of a known type. -/
abbrev Fresh (compiler : Compiler) (needs : List Nat) (action : CompileM Nat) (ty : Ty) : Prop :=
  Codes compiler needs action (fun result => [result]) (fun _ => true) fun result after =>
    after.registers[result]? = some ty ∧ compiler.Kept after

/-- An action that puts its result in a register. -/
abbrev Computes (compiler : Compiler) (needs : List Nat) (action : CompileM Nat) : Prop :=
  Codes compiler needs action (fun result => [result]) (fun _ => true) fun _ after => compiler.Kept after

theorem Codes.kept {action : CompileM Nat} {holds : Nat → Compiler → Prop}
    (codes : Codes compiler needs action (fun result => [result]) (fun _ => true) fun result after =>
      holds result after ∧ compiler.Kept after) : Computes compiler needs action :=
  codes.weaken (List.Subset.refl _) (fun _ => List.subset_append_right _ _) fun _ _ _ held => held.2

theorem Codes.computes {action : CompileM Nat} (ty : Ty) (fresh : Fresh compiler needs action ty) :
    Computes compiler needs action :=
  fresh.kept

theorem Codes.tableInfo {β : Type} {expression : Expr} {next : TableInfo → CompileM β} {gives : β → List Nat}
    {leaves : β → Bool} {holds : β → Compiler → Prop}
    (continues : ∀ table, compiler.Declares table → Codes compiler needs (next table) gives leaves holds) :
    Codes compiler needs (tableInfo expression >>= next) gives leaves holds := by
  rw [Macros.tableInfo, bind_assoc]
  refine .lift fun name named => ?_
  rw [bind_assoc]
  exact .get (.orFail fun table known => continues table ⟨name, known⟩)

/-- The key of an address has the shape of the key of its table. -/
theorem codes_address {argument : Argument} (yields : argument.Yields) :
    Codes compiler needs (address argument) (fun place => [place.2]) (fun _ => true) fun place after =>
      after.Declares place.1 ∧ after.Typed place.2 place.1.key ∧ compiler.Kept after := by
  unfold address
  cases found : argument.key with
  | none => exact .fail
  | some indexed =>
      obtain ⟨base, key⟩ := indexed
      refine .tableInfo fun table declares => ?_
      refine (yields.key base key found compiler needs (some table.key)).bind fun key after more held => ?_
      exact .pure rfl (by simp) ⟨declares.later more, held.1 _ rfl, held.2⟩

/-- A row is loaded into a register of the type of the table. -/
theorem verifies_load {table : TableInfo} (declares : compiler.Declares table) {key : Nat}
    (typed : compiler.Typed key table.key) (needed : key ∈ needs) {result : Nat}
    (fresh : compiler.registers[result]? = some table.value) :
    Verifies compiler needs (.load result table.index key) (some result) := by
  intro setting fulfils fact initialized
  obtain ⟨keyType, known, same⟩ := typed
  obtain ⟨resolved, found, keyShape, valueShape⟩ := fulfils.table declares
  have read := fulfils.source known (initialized key needed)
  simp only [mapTable, Vm.Program.verifyInstruction, found, read, fulfils.typed fresh, ok_bind,
    sameShape_eq_ok (sameShape_trans same (sameShape_symm keyShape)), sameShape_eq_ok (sameShape_symm valueShape),
    pure_eq_ok]

theorem verifies_exists {table : TableInfo} (declares : compiler.Declares table) {key : Nat}
    (typed : compiler.Typed key table.key) (needed : key ∈ needs) {result : Nat}
    (fresh : compiler.registers[result]? = some .boolean) :
    Verifies compiler needs (.exists result table.index key) (some result) := by
  intro setting fulfils fact initialized
  obtain ⟨keyType, known, same⟩ := typed
  obtain ⟨resolved, found, keyShape, -⟩ := fulfils.table declares
  have read := fulfils.source known (initialized key needed)
  simp only [mapTable, Vm.Program.verifyInstruction, found, read, fulfils.typed fresh, ok_bind,
    sameShape_eq_ok (sameShape_trans same (sameShape_symm keyShape)), sameShape_eq_ok (sameShape_refl .boolean),
    pure_eq_ok]

/-- What is read at a key is put in a fresh register. -/
theorem codes_readRow {table : TableInfo} (declares : compiler.Declares table) {key : Nat}
    (typed : compiler.Typed key table.key) {opcode : Nat} {ty : Ty} (make : Nat → Vm.Instruction)
    (means : ∀ result name,
      Encodes ⟨opcode, operandBytes [result, table.index, key], some (2, table.index), name⟩ (make result))
    (falls : ∀ result, (make result).exit = .next)
    (verifies : ∀ (after : Compiler) result, after.Declares table → after.Typed key table.key →
      after.registers[result]? = some ty → Verifies after needs (make result) (some result)) :
    Fresh compiler needs
      (do let result ← register ty
          let _ ← emitTable opcode [result, table.index, key] 2 table
          return result) ty := by
  refine (codes_register ty).bind fun result middle more ⟨fresh, kept⟩ => ?_
  rw [List.append_nil]
  refine (codes_push (means result _) (falls result)
    (verifies middle result (declares.later more) (typed.later more) fresh)).bind fun _ after more' kept' => ?_
  exact .pure rfl (by simp) ⟨more'.typed fresh, kept.trans kept'⟩

theorem codes_load {argument : Argument} (yields : argument.Yields) :
    Computes compiler needs (readTable 0x40 argument (·.value)) := by
  refine (codes_address yields).bind fun ⟨table, key⟩ middle more ⟨declares, typed, kept⟩ => ?_
  refine (codes_readRow declares typed (fun result => .load result table.index key)
    (fun _ _ => ⟨⟨rfl, rfl, rfl⟩, trivial⟩) (fun _ => rfl)
    fun after result declares typed fresh => verifies_load declares typed (by simp) fresh).weaken
    (List.Subset.refl _) (fun _ => List.subset_append_right _ _) fun _ _ _ held => kept.trans held.2

theorem codes_exists {argument : Argument} (yields : argument.Yields) :
    Computes compiler needs (readTable 0x41 argument fun _ => .boolean) := by
  refine (codes_address yields).bind fun ⟨table, key⟩ middle more ⟨declares, typed, kept⟩ => ?_
  refine (codes_readRow declares typed (fun result => .exists result table.index key)
    (fun _ _ => ⟨⟨rfl, rfl, rfl⟩, trivial⟩) (fun _ => rfl)
    fun after result declares typed fresh => verifies_exists declares typed (by simp) fresh).weaken
    (List.Subset.refl _) (fun _ => List.subset_append_right _ _) fun _ _ _ held => kept.trans held.2

/-- Two registers are combined in a fresh one. -/
theorem codes_binaryInstruction (opcode : Nat) {left right : Nat} (leftNeeded : left ∈ needs)
    (rightNeeded : right ∈ needs) :
    Codes compiler needs (binaryInstruction opcode left right) (fun result => [result]) (fun _ => true)
      fun result after => (∃ ty, compiler.registers[left]? = some ty ∧
        after.registers[result]? = some (resultType (booleanOpcode opcode ty) ty)) ∧ compiler.Kept after := by
  refine .tyOf fun a leftTyped => .tyOf fun b rightTyped => .reject fun valid => ?_
  rw [Bool.not_eq_false] at valid
  obtain ⟨op, code⟩ := binaryCode_of_validOperands valid
  rw [← code] at valid ⊢
  refine (codes_binary leftNeeded rightNeeded leftTyped rightTyped op (verifyBinary_of_validOperands valid)).weaken
    (List.Subset.refl _) (fun _ => List.subset_append_right _ _) fun result after _ held => ?_
  refine ⟨⟨a, leftTyped, ?_⟩, held.2⟩
  rw [← code]
  exact held.1

theorem codes_binaryOperands (opcode : Nat) {left right : Argument} (leftYields : left.Yields)
    (rightYields : right.Yields) (expected : Option Ty) :
    Codes compiler needs (binaryOperands opcode left right expected) (fun operands => [operands.1, operands.2])
      (fun _ => true) fun _ after => compiler.Kept after := by
  refine .get ((leftYields.compile compiler needs _).bind fun a middle more held => .tyOf fun ty _ => ?_)
  refine (rightYields.compile middle _ _).bind fun b after more' held' => ?_
  exact .pure rfl (by simp) (held.2.trans held'.2)

theorem codes_compileFields {fields : List Argument} (yields : ∀ field ∈ fields, field.Yields)
    (hints : Option (List Ty)) :
    Codes compiler needs (compileFields fields hints) id (fun _ => true) fun _ after => compiler.Kept after := by
  induction fields generalizing compiler needs hints with
  | nil => exact .pure rfl (by simp) (.refl _)
  | cons field fields ih =>
      obtain ⟨first, rest⟩ := List.forall_mem_cons.mp yields
      refine (first.compile compiler needs _).bind fun register middle more held => ?_
      refine (ih rest _).bind fun registers after more' kept => ?_
      exact .pure rfl (by simp; tauto) (held.2.trans kept)

/-! ## Tuples -/

theorem typesOf_run {fields : List Nat} {types : List Ty} {after : Compiler}
    (ran : typesOf fields compiler = .ok (types, after)) :
    after = compiler ∧ List.Forall₂ (fun field ty => compiler.registers[field]? = some ty) fields types := by
  induction fields generalizing types after with
  | nil =>
      cases ran
      exact ⟨rfl, .nil⟩
  | cons field fields ih =>
      obtain ⟨ty, middle, typed, ran⟩ := bind_run.mp ran
      obtain ⟨others, last, rest, ran⟩ := bind_run.mp ran
      cases ran
      obtain ⟨rfl, known⟩ := tyOf_run typed
      obtain ⟨rfl, related⟩ := ih rest
      exact ⟨rfl, .cons known related⟩

theorem verifyFields_of_typed {setting : Setting} (fulfils : setting.Fulfils compiler) {fields : List Nat}
    {types : List Ty} (typed : List.Forall₂ (fun field ty => compiler.registers[field]? = some ty) fields types)
    {fact : Vm.Program.Initialized} (initialized : ∀ field ∈ fields, fact field = true) :
    setting.machine.verifyFields fact types fields = .ok () := by
  induction typed with
  | nil => rfl
  | cons known _ ih =>
      obtain ⟨here, rest⟩ := List.forall_mem_cons.mp initialized
      simp only [Vm.Program.verifyFields, fulfils.source known here, ok_bind, sameShape_eq_ok (sameShape_refl _),
        ih rest]

/-- Registers are collected in a tuple of their types. -/
theorem codes_tupleInstruction {fields : List Nat} (needed : ∀ field ∈ fields, field ∈ needs) :
    Computes compiler needs (tupleInstruction fields) := by
  refine .read (fun types after ran => typesOf_run ran) fun types typed => .computes (.tuple types) ?_
  refine codes_emitResult (fun result => .tuple result fields) (fun _ => ⟨⟨rfl, rfl, rfl⟩, trivial⟩) (fun _ => rfl)
    fun result after more declared setting fulfils fact initialized => ?_
  have later := typed.imp fun _ _ known => more.typed known
  have read := verifyFields_of_typed fulfils later fun field member => initialized field (needed field member)
  simp only [mapTable, Vm.Program.verifyInstruction, fulfils.typed declared, ok_bind, read]
  rw [refuse_of_not _ (by simp [typed.length_eq]), ok_bind]
  rfl

/-- A field of a tuple. -/
theorem codes_fieldInstruction {source : Nat} (needed : source ∈ needs) (index : Nat) :
    Computes compiler needs (fieldInstruction source index) := by
  refine .tyOf fun ty typed => ?_
  cases ty with
  | tuple fields =>
      refine .orFail fun ty found => .computes ty ?_
      refine codes_emitResult (fun result => .field result source index) (fun _ => ⟨⟨rfl, rfl, rfl⟩, trivial⟩)
        (fun _ => rfl) fun result after more declared setting fulfils fact initialized => ?_
      have read := fulfils.source (more.typed typed) (initialized source needed)
      simp only [mapTable, Vm.Program.verifyInstruction, read, fulfils.typed declared, ok_bind, Vm.Program.at?,
        found, sameShape_eq_ok (sameShape_refl ty), pure_eq_ok]
  | _ => exact .fail

/-! ## Literals -/

/-- A constant is loaded into a fresh register. -/
theorem codes_constant (ty : Ty) (bytes : Bytes) : Fresh compiler needs (constant ty bytes) ty := by
  refine .get (.lift fun index pooled => ?_)
  obtain ⟨-, rfl⟩ := poolIndex_eq_ok.mp pooled
  refine (codes_allocate ty).bind fun register middle more ⟨⟨typed, kept⟩, same⟩ => ?_
  rw [List.append_nil]
  refine .modify ⟨List.prefix_rfl, ?_, fun ty known => ⟨ty, known, sameShape_refl ty⟩, rfl⟩ rfl
    (fun fact ready _ => ready.inScope ⟨rfl, rfl⟩) ?_
  · rw [List.map_append]
    exact List.prefix_append _ _
  · refine (@codes_push _ _ _ (.const register compiler.constants.length) (some register)
      ⟨⟨rfl, rfl, rfl⟩, trivial⟩ rfl fun setting fulfils fact _ => ?_).bind fun _ after more' kept' => ?_
    · have pool : setting.constants[compiler.constants.length]? = some ty := by
        refine getElem?_of_prefix fulfils.constants ?_
        simp [same]
      have declared := fulfils.typed typed
      simp only [mapTable, Vm.Program.verifyInstruction, Vm.Program.at?, pool, declared, ok_bind,
        sameShape_eq_ok (sameShape_refl ty), pure_eq_ok]
    · have pooled : middle.Kept { middle with constants := middle.constants ++ [(ty, bytes)] } :=
        ⟨⟨rfl, rfl⟩, rfl⟩
      exact .pure rfl (by simp) ⟨more'.typed typed, (kept.trans pooled).trans kept'⟩

theorem codes_negativeLiteral (magnitude : Nat) (suffix : String) :
    Fresh compiler needs (negativeLiteral magnitude suffix) .i64 :=
  .reject fun _ => .reject fun _ => .reject fun _ => codes_constant _ _

/-- The result is compared with the expected shape. -/
theorem codes_withShape {action : CompileM Nat} (computes : Computes compiler needs action) (expected : Option Ty) :
    Codes compiler needs (withShape expected action) (fun result => [result]) (fun _ => true) fun result after =>
      (∀ ty ∈ expected, after.Typed result ty) ∧ compiler.Kept after := by
  refine computes.bind fun register middle more kept => ?_
  cases expected with
  | none => exact .pure rfl (by simp) ⟨by simp, kept⟩
  | some expected =>
      refine .tyOf fun actual typed => .lift fun _ checked => ?_
      have same : actual.sameShape expected = true := by simpa [requireShape, refuse_eq_ok] using checked
      exact .pure rfl (by simp) ⟨fun ty isExpected => Option.some.inj isExpected ▸ ⟨actual, typed, same⟩, kept⟩

/-! ## Operators -/

theorem verifyUnary_of_unaryOpcode {op : UnaryOperator} {ty : Ty} {opcode : Nat}
    (taken : unaryOpcode op ty = some opcode) :
    ∃ op, unaryCode op = opcode ∧ Vm.Program.verifyUnary op ty ty = .ok () := by
  unfold unaryOpcode at taken
  split at taken <;> cases taken
  exacts [⟨.neg, rfl, rfl⟩, ⟨.boolNot, rfl, rfl⟩, ⟨.bitNot, rfl, rfl⟩, ⟨.bitNot, rfl, rfl⟩]

theorem codes_compileUnary (op : UnaryOperator) {operand : Argument} (yields : operand.Yields)
    (expected : Option Ty) : Computes compiler needs (compileUnary op operand expected) := by
  refine (yields.compile compiler needs expected).bind fun source middle more held => ?_
  refine .tyOf fun ty typed => .orFail fun opcode taken => ?_
  obtain ⟨op, rfl, checks⟩ := verifyUnary_of_unaryOpcode taken
  exact (codes_unary (by simp) typed op checks).weaken (List.Subset.refl _)
    (fun _ => List.subset_append_right _ _) fun _ _ _ held' => held.2.trans held'.2

/-- An operand is evaluated into a register and moved to another one. -/
theorem emits_moved {right : Argument} (rightYields : right.Yields) {result : Nat}
    (typed : compiler.registers[result]? = some .boolean) {value : Nat} {middle after : Compiler}
    (evaluated : right.compile (some .boolean) compiler = .ok (value, middle)) {index : Nat}
    (moved : emit 0x03 [result, value] middle = .ok (index, after)) :
    Emits compiler needs after [result] true ∧ compiler.Kept after := by
  obtain ⟨emits, shaped, kept⟩ := rightYields.compile compiler needs (some .boolean) value middle evaluated
  obtain ⟨ty, known, same⟩ := shaped .boolean rfl
  have needed : value ∈ needs ++ [value] := by simp
  obtain ⟨emits', kept'⟩ := codes_move needed (emits.extends.typed typed) known same
    index after moved
  exact ⟨emits.trans emits', kept.trans kept'⟩

/-- The first operand decides whether the second is evaluated. -/
theorem codes_shortCircuit {left right : Argument} (leftYields : left.Yields) (rightYields : right.Yields)
    (and : Bool) : Computes compiler needs (shortCircuit left right and) := by
  refine (leftYields.compile compiler needs _).bind fun left first more ⟨shaped, kept⟩ => ?_
  refine (codes_register .boolean).bind fun result second more' ⟨fresh, kept'⟩ => ?_
  obtain ⟨ty, known, same⟩ := (shaped .boolean rfl).later more'
  refine (codes_move (by simp) fresh known same).bind fun _ start more'' kept'' => ?_
  have typed := more''.typed fresh
  have condition : start.Typed left .boolean := ⟨ty, more''.typed known, same⟩
  have sofar := (kept.trans kept').trans kept''
  generalize given : needs ++ [left] ++ [] ++ [result] = needs'
  have leftNeeded : left ∈ needs' := by simp [← given]
  have resultNeeded : [result] ⊆ needs' := by simp [← given]
  intro _ after ran
  obtain ⟨branch, fourth, jumped, ran⟩ := bind_run.mp ran
  obtain ⟨rfl, rfl⟩ := jump_eq_ok jumped
  cases and with
  | true =>
      obtain ⟨value, fifth, evaluated, ran⟩ := bind_run.mp ran
      obtain ⟨_, sixth, moved, ran⟩ := bind_run.mp ran
      obtain ⟨⟨⟩, last, patched, ran⟩ := bind_run.mp ran
      cases ran
      obtain ⟨emits, inner⟩ := @emits_moved (start.with _) needs' _ rightYields _ typed _ _ _ evaluated _ moved
      obtain ⟨-, kept⟩ := patchJump_run patched
      have inner := (start.kept_with _).trans inner
      exact ⟨(Emits.around condition leftNeeded emits inner.toScoped patched).weaken (List.Subset.refl _)
        (by simp [resultNeeded]), (sofar.trans inner).trans kept⟩
  | false =>
      obtain ⟨stop, fifth, jumped', ran⟩ := bind_run.mp ran
      obtain ⟨rfl, rfl⟩ := jump_eq_ok jumped'
      obtain ⟨⟨⟩, sixth, patched, ran⟩ := bind_run.mp ran
      obtain ⟨value, seventh, evaluated, ran⟩ := bind_run.mp ran
      obtain ⟨_, eighth, moved, ran⟩ := bind_run.mp ran
      obtain ⟨⟨⟩, last, patched', ran⟩ := bind_run.mp ran
      cases ran
      obtain ⟨more₆, kept₆⟩ := patchJump_run patched
      obtain ⟨emits, inner⟩ := @emits_moved _ needs' _ rightYields _ (more₆.typed typed) _ _ _ evaluated _ moved
      obtain ⟨-, kept⟩ := patchJump_run patched'
      have nothing : Emits (start.with (pendingJump (some left))) needs' (start.with (pendingJump (some left))) []
          true := .silent (.refl _) ⟨rfl, rfl⟩ rfl (by simp)
      have before := (sofar.trans (start.kept_with (pendingJump (some left)))).trans
        (Compiler.kept_with _ (pendingJump none))
      exact ⟨(Emits.alternatives condition leftNeeded nothing ⟨rfl, rfl⟩ patched emits inner.toScoped patched').weaken
        (List.Subset.refl _) (by simp [resultNeeded]), ((before.trans kept₆).trans inner).trans kept⟩

theorem codes_compileBinary (op : BinaryOperator) {left right : Argument} (leftYields : left.Yields)
    (rightYields : right.Yields) (expected : Option Ty) :
    Computes compiler needs (compileBinary op left right expected) := by
  unfold compileBinary
  split
  · exact codes_shortCircuit leftYields rightYields true
  · exact codes_shortCircuit leftYields rightYields false
  · rename_i isAnd isOr
    refine .orFail fun opcode taken => ?_
    refine (codes_binaryOperands opcode leftYields rightYields expected).bind fun ⟨a, b⟩ middle more kept => ?_
    refine (codes_binaryInstruction opcode (by simp) (by simp)).bind fun result after more' ⟨known, kept'⟩ => ?_
    split_ifs with inequality
    · subst inequality
      cases taken
      obtain ⟨ty, -, typed⟩ := known
      have boolean : after.registers[result]? = some .boolean := by
        rw [typed]
        rfl
      have checks : Vm.Program.verifyUnary .boolNot .boolean .boolean = .ok () := rfl
      exact (codes_unary (by simp) boolean .boolNot checks).weaken (List.Subset.refl _)
        (fun _ => List.subset_append_right _ _) fun _ _ _ held => (kept.trans kept').trans held.2
    · exact .pure rfl (by simp) (kept.trans kept')

/-! ## Operations -/

/-- An operation on one register is a move or a unary operation that verifies. -/
theorem singleOperand_verifies {name : String} {source ty : Ty} {opcode : Nat}
    (taken : singleOperand name source = some (opcode, ty)) :
    (opcode = 0x03 ∧ ty = source) ∨
      ∃ op, unaryCode op = opcode ∧ Vm.Program.verifyUnary op ty source = .ok () := by
  unfold singleOperand at taken
  split at taken
  · cases taken
    exact .inl ⟨rfl, rfl⟩
  · right
    cases source <;> simp only [reduceCtorEq] at taken
    all_goals split_ifs at taken
    all_goals cases taken
    exacts [⟨.boolNot, rfl, rfl⟩, ⟨.neg, rfl, rfl⟩, ⟨.toU64, rfl, rfl⟩, ⟨.bitNot, rfl, rfl⟩, ⟨.toI64, rfl, rfl⟩,
      ⟨.bitNot, rfl, rfl⟩, ⟨.byteLen, rfl, rfl⟩, ⟨.parseUtf8, rfl, rfl⟩, ⟨.sha256, rfl, rfl⟩,
      ⟨.byteLen, rfl, rfl⟩, ⟨.utf8Bytes, rfl, rfl⟩, ⟨.rowsLen, rfl, rfl⟩]

theorem codes_singleOperand {source : Nat} (needed : source ∈ needs) {name : String} {sourceType ty : Ty}
    {opcode : Nat} (typed : compiler.registers[source]? = some sourceType)
    (taken : singleOperand name sourceType = some (opcode, ty)) :
    Computes compiler needs (emitResult opcode ty [source]) := by
  rcases singleOperand_verifies taken with ⟨rfl, rfl⟩ | ⟨op, rfl, checks⟩
  · refine .computes ty (codes_emitResult (fun result => .move result source)
      (fun _ => ⟨⟨rfl, rfl, rfl⟩, trivial⟩) (fun _ => rfl)
      fun result after more declared setting fulfils fact initialized => ?_)
    have read := fulfils.source (more.typed typed) (initialized source needed)
    simp only [mapTable, Vm.Program.verifyInstruction, fulfils.typed declared, read, ok_bind,
      sameShape_eq_ok (sameShape_refl ty), pure_eq_ok]
  · exact .computes ty (codes_unary needed typed op checks)

/-- A row is read at a compiled index. -/
theorem codes_row {source : Nat} (needed : source ∈ needs) {index : Argument} (yields : index.Yields)
    (op : BinaryOp) {sourceType ty : Ty} (typed : compiler.registers[source]? = some sourceType)
    (checks : ∀ indexType : Ty, indexType.sameShape .u64 = true →
      Vm.Program.verifyBinary op ty sourceType indexType = .ok ()) :
    Computes compiler needs
      (do let index ← index.compile (some .u64); emitResult (binaryCode op) ty [source, index]) := by
  refine (yields.compile compiler needs _).bind fun index middle more ⟨shaped, kept⟩ => ?_
  obtain ⟨indexType, known, same⟩ := shaped .u64 rfl
  exact (codes_binary (by simp [needed]) (by simp) (more.typed typed) known op (checks indexType same)).weaken
    (List.Subset.refl _) (fun _ => List.subset_append_right _ _) fun _ _ _ held => kept.trans held.2

/-- The texts a concatenation takes have the shape of its result. -/
theorem codes_concat {source : Nat} (needed : source ∈ needs) {right : Argument} (yields : right.Yields)
    {sourceType : Ty} (typed : compiler.registers[source]? = some sourceType) (result : Nat → Ty)
    (checks : ∀ other rightType, rightType.sameShape sourceType = true →
      Vm.Program.verifyBinary .concat (result other) sourceType rightType = .ok ()) :
    Computes compiler needs
      (do let right ← right.compile (some sourceType)
          match ← tyOf right with
          | .bytes other | .string other => emitResult 0x51 (result other) [source, right]
          | _ => fail .panic) := by
  refine (yields.compile compiler needs _).bind fun right middle more ⟨shaped, kept⟩ => ?_
  obtain ⟨rightType, known, same⟩ := shaped sourceType rfl
  refine .tyOf fun found known' => ?_
  obtain rfl : rightType = found := Option.some.inj (known.symm.trans known')
  have emits (other : Nat) : Computes middle (needs ++ [right]) (emitResult 0x51 (result other) [source, right]) :=
    .computes _ (codes_binary (by simp [needed]) (by simp) (more.typed typed) known .concat
      (checks other rightType same))
  have keeps (other : Nat) := (emits other).weaken (List.Subset.refl _) (fun _ => List.subset_append_right _ _)
    fun _ _ _ held => kept.trans held
  cases rightType with
  | bytes other | string other => exact keeps other
  | _ => exact .fail

theorem codes_slice {source : Nat} (needed : source ∈ needs) {start length : Argument} (startYields : start.Yields)
    (lengthYields : length.Yields) {bound : Nat} (typed : compiler.registers[source]? = some (.bytes bound)) :
    Computes compiler needs
      (do let start ← start.compile (some .u64)
          let length ← length.compile (some .u64)
          emitResult 0x52 (.bytes bound) [source, start, length]) := by
  refine (startYields.compile compiler needs _).bind fun start first more ⟨startShaped, kept⟩ => ?_
  refine (lengthYields.compile first _ _).bind fun length second more' ⟨lengthShaped, kept'⟩ => ?_
  obtain ⟨startType, startKnown, startSame⟩ := (startShaped .u64 rfl).later more'
  obtain ⟨lengthType, lengthKnown, lengthSame⟩ := lengthShaped .u64 rfl
  refine Codes.weaken (codes_emitResult (fun result => .slice result source start length)
    (fun _ => ⟨⟨rfl, rfl, rfl⟩, trivial⟩) (fun _ => rfl)
    fun result after more'' declared setting fulfils fact initialized => ?_) (List.Subset.refl _)
    (fun _ => List.subset_append_right _ _) fun _ _ _ held => (kept.trans kept').trans held.2
  have read := fulfils.source ((more.trans (more'.trans more'')).typed typed) (initialized source (by simp [needed]))
  have readStart := fulfils.source (more''.typed startKnown) (initialized start (by simp))
  have readLength := fulfils.source (more''.typed lengthKnown) (initialized length (by simp))
  have bytes : Vm.Program.sameShape (.bytes bound) (.bytes 0) = .ok () := rfl
  simp only [mapTable, Vm.Program.verifyInstruction, fulfils.typed declared, read, readStart, readLength, bytes,
    ok_bind, sameShape_eq_ok startSame, sameShape_eq_ok lengthSame, pure_eq_ok]

theorem codes_compileOperation (name : String) {source : Nat} (needed : source ∈ needs) {rest : List Argument}
    (yields : ∀ argument ∈ rest, argument.Yields) :
    Computes compiler needs (compileOperation name source rest) := by
  refine .tyOf fun sourceType typed => ?_
  split
  · exact .lift fun index _ => codes_fieldInstruction needed index
  · split
    · rename_i taken _
      exact codes_singleOperand needed typed taken
    · split_ifs
      · refine codes_row needed (yields _ List.mem_cons_self) .rowsKey typed fun indexType same => ?_
        simp only [Vm.Program.verifyBinary, sameShape_eq_ok same, sameShape_eq_ok (sameShape_refl _), ok_bind]
      · refine codes_row needed (yields _ List.mem_cons_self) .rowsValue typed fun indexType same => ?_
        simp only [Vm.Program.verifyBinary, sameShape_eq_ok same, sameShape_eq_ok (sameShape_refl _), ok_bind]
      · exact .fail
    · split_ifs
      · rename_i bound _ _ _ _
        refine codes_concat needed (yields _ List.mem_cons_self) typed
          (fun other => .bytes (concatBound bound other)) fun other rightType same => ?_
        have joins : (Ty.bytes (concatBound bound other)).sameShape rightType = true :=
          sameShape_trans (show Ty.sameShape _ (.bytes bound) = true from rfl) (sameShape_symm same)
        simp only [Vm.Program.verifyBinary, sameShape_eq_ok joins]
        rfl
      · exact .fail
    · split_ifs
      · rename_i bound _ _ _ _
        refine codes_concat needed (yields _ List.mem_cons_self) typed
          (fun other => .string (concatBound bound other)) fun other rightType same => ?_
        have joins : (Ty.string (concatBound bound other)).sameShape rightType = true :=
          sameShape_trans (show Ty.sameShape _ (.string bound) = true from rfl) (sameShape_symm same)
        simp only [Vm.Program.verifyBinary, sameShape_eq_ok joins]
        rfl
      · exact .fail
    · split_ifs
      · exact codes_slice needed (yields _ List.mem_cons_self)
          (yields _ (List.mem_cons_of_mem _ List.mem_cons_self)) typed
      · exact .fail
    · exact .fail

/-! ## Scans -/

/-- The register of an endpoint, unless it is absent. -/
def endpointOf (argument : Argument) (operand : Nat) : Option Nat :=
  if argument.expr.isUnbounded then none else some operand

theorem codes_endpointOperand {argument : Argument} (yields : argument.Yields) (inclusive : Bool) (key : Ty) :
    Codes compiler needs (endpointOperand argument inclusive key)
      (fun operand => (endpointOf argument operand).toList) (fun _ => true) fun operand after =>
        operand = endpointCode (endpointOf argument operand) ∧
        (∀ register ∈ endpointOf argument operand, after.Typed register key) ∧
        (endpointOf argument operand = none → inclusive = false) ∧ compiler.Kept after := by
  unfold endpointOperand endpointOf
  split_ifs with absent
  · refine .reject fun exclusive => .pure rfl (by simp) ⟨rfl, by simp, fun _ => ?_, .refl _⟩
    simpa using exclusive
  · refine (yields.compile compiler needs (some key)).weaken (List.Subset.refl _)
      (fun _ => List.subset_append_right _ _) fun operand after _ held => ?_
    exact ⟨rfl, fun register isOperand => Option.some.inj isOperand ▸ held.1 key rfl, by simp, held.2⟩

theorem verifyEndpoint_of_typed {setting : Setting} (fulfils : setting.Fulfils compiler) {endpoint : Option Nat}
    {key key' : Ty} (typed : ∀ register ∈ endpoint, compiler.Typed register key) (same : key.sameShape key' = true)
    {fact : Vm.Program.Initialized} (initialized : ∀ register ∈ endpoint, fact register = true) :
    setting.machine.verifyEndpoint fact key' endpoint = .ok () := by
  cases endpoint with
  | none => rfl
  | some register =>
      obtain ⟨ty, known, shape⟩ := typed register rfl
      simp only [Vm.Program.verifyEndpoint, fulfils.source known (initialized register rfl), ok_bind,
        sameShape_eq_ok (sameShape_trans shape same)]

theorem codes_scan {table lower upper flags rowLimit byteLimit : Argument} (lowerYields : lower.Yields)
    (upperYields : upper.Yields) : Computes compiler needs (scan table lower upper flags rowLimit byteLimit) := by
  refine .tableInfo fun table declares => .lift fun flags flagged => .lift fun rowLimit limited =>
    .lift fun byteLimit bounded => ?_
  have rowBound := immediate_le limited
  have byteBound := immediate_le bounded
  refine (codes_endpointOperand lowerYields _ table.key).bind
    fun low first more ⟨lowerCode, lowerTyped, lowerAbsent, kept⟩ => ?_
  refine (codes_endpointOperand upperYields _ table.key).bind
    fun high second more' ⟨upperCode, upperTyped, upperAbsent, kept'⟩ => ?_
  generalize lowerIs : endpointOf lower low = lower at *
  generalize upperIs : endpointOf upper high = upper at *
  subst lowerCode upperCode
  refine (codes_register _).bind fun result third more'' ⟨fresh, kept''⟩ => ?_
  rw [emitTable, push_extendOperands]
  refine (@codes_push _ _ _ (.scan result table.index lower upper flags rowLimit byteLimit) (some result)
    ⟨⟨rfl, rfl, rfl⟩, immediate_le flagged, fun absent => ?_, fun absent => ?_⟩ rfl
    fun setting fulfils fact initialized => ?_).bind fun _ after _ kept₃ => ?_
  · simpa using lowerAbsent absent
  · simpa using upperAbsent absent
  · obtain ⟨resolved, found, keyShape, valueShape⟩ :=
      fulfils.table (((declares.later more).later more').later more'')
    have keySame := sameShape_symm keyShape
    have readLower := verifyEndpoint_of_typed fulfils
      (fun register member => ((lowerTyped register member).later more').later more'') keySame
      fun register member => initialized register (by simp [Option.mem_def.mp member])
    have readUpper := verifyEndpoint_of_typed fulfils
      (fun register member => (upperTyped register member).later more'') keySame
      fun register member => initialized register (by simp [Option.mem_def.mp member])
    have rows : ¬ rowLimit > ceilings.value 12 := not_lt.mpr rowBound
    have bytes : ¬ byteLimit > ceilings.value 13 := not_lt.mpr byteBound
    simp only [mapTable, Vm.Program.verifyInstruction, refuse_of_not _ rows, refuse_of_not _ bytes, found,
      fulfils.typed fresh, ok_bind, sameShape_eq_ok keySame, sameShape_eq_ok (sameShape_symm valueShape), readLower,
      readUpper, pure_eq_ok]
  · exact .pure rfl (by simp) (((kept.trans kept').trans kept'').trans kept₃)

/-! ## Calls -/

theorem codes_compileCall (callee : Expr) {args : List Argument} (yields : ∀ argument ∈ args, argument.Yields)
    (expected : Option Ty) : Computes compiler needs (compileCall callee args expected) := by
  refine .lift fun name _ => ?_
  split
  · refine .lift fun captured _ => .get ?_
    cases found : compiler.captures captured with
    | none => exact .fail
    | some register =>
        refine .pure rfl (fun other member => .inr fun fact ready => ?_) (.refl _)
        rw [List.mem_singleton.mp member]
        exact ready.captures captured register found
  · refine (codes_compileFields yields _).bind fun fields middle more kept => ?_
    exact (codes_tupleInstruction fun _ member => List.mem_append_right _ member).weaken (List.Subset.refl _)
      (fun _ => List.subset_append_right _ _) fun _ _ _ held => kept.trans held
  · refine .orFail fun operands _ => .reject fun _ => ?_
    split
    · exact codes_scan (yields _ (by simp)) (yields _ (by simp))
    · exact codes_load (yields _ List.mem_cons_self)
    · exact codes_exists (yields _ List.mem_cons_self)
    · obtain ⟨first, rest⟩ := List.forall_mem_cons.mp yields
      split
      · refine (codes_binaryOperands _ first (rest _ List.mem_cons_self) expected).bind
          fun ⟨left, right⟩ middle more kept => .tyOf fun _ _ => .reject fun _ => ?_
        exact (codes_binaryInstruction _ (by simp) (by simp)).weaken (List.Subset.refl _)
          (fun _ => List.subset_append_right _ _) fun _ _ _ held => kept.trans held.2
      · refine (first.compile compiler needs _).bind fun source middle more held => ?_
        exact (codes_compileOperation _ (by simp) rest).weaken (List.Subset.refl _)
          (fun _ => List.subset_append_right _ _) fun _ _ _ kept => held.2.trans kept
    · exact .fail

/-! ## Expressions -/

mutual

/-- Every expression yields a register of the expected shape. -/
theorem yields_expr : ∀ expression : Expr, Yields (compileExpr expression)
  | .paren inner => fun compiler needs expected => by
      rw [compileExpr]
      exact codes_withShape (yields_expr inner compiler needs expected).kept expected
  | .group inner => fun compiler needs expected => by
      rw [compileExpr]
      exact codes_withShape (yields_expr inner compiler needs expected).kept expected
  | .path name => fun compiler needs expected => by
      rw [compileExpr]
      refine codes_withShape (.lift fun name _ => .get (.orFail fun found known => ?_)) expected
      refine .pure rfl (fun register member => .inr fun fact ready => ?_) (.refl _)
      rw [List.mem_singleton.mp member]
      exact ready.locals name found known
  | .lit literal => fun compiler needs expected => by
      rw [compileExpr]
      exact codes_withShape (.lift fun ⟨ty, bytes⟩ _ => .computes ty (codes_constant ty bytes)) expected
  | .unary op operand => fun compiler needs expected => by
      by_cases negative : ∃ magnitude suffix, op = .neg ∧ operand = .lit (.integer magnitude suffix)
      · obtain ⟨magnitude, suffix, rfl, rfl⟩ := negative
        rw [compileExpr]
        exact codes_withShape (.computes .i64 (codes_negativeLiteral magnitude suffix)) expected
      · rw [compileExpr]
        · exact codes_withShape (codes_compileUnary op (.of_yields (yields_expr operand)) expected) expected
        · intro magnitude suffix isNeg isLiteral
          exact negative ⟨magnitude, suffix, isNeg, isLiteral⟩
  | .binary op left right => fun compiler needs expected => by
      rw [compileExpr]
      exact codes_withShape (codes_compileBinary op (.of_yields (yields_expr left))
        (.of_yields (yields_expr right)) expected) expected
  | .index base key => fun compiler needs expected => by
      rw [compileExpr]
      refine codes_withShape (codes_load ⟨fun _ _ _ => .fail, ?_⟩) expected
      rintro _ _ ⟨⟩
      exact yields_expr key
  | .tuple [] => fun compiler needs expected => by
      rw [compileExpr]
      exact codes_withShape (.computes .unit (codes_constant .unit [])) expected
  | .tuple (field :: fields) => fun compiler needs expected => by
      rw [compileExpr]
      refine codes_withShape ((codes_compileFields (yields_arguments (field :: fields)) _).bind
        fun registers middle more kept => ?_) expected
      exact (codes_tupleInstruction fun _ member => List.mem_append_right _ member).weaken (List.Subset.refl _)
        (fun _ => List.subset_append_right _ _) fun _ _ _ held => kept.trans held
  | .field base member => fun compiler needs expected => by
      rw [compileExpr]
      refine codes_withShape ((yields_expr base compiler needs none).bind fun source middle more held =>
        .orFail fun index _ => ?_) expected
      exact (codes_fieldInstruction (by simp) index).weaken (List.Subset.refl _)
        (fun _ => List.subset_append_right _ _) fun _ _ _ kept => held.2.trans kept
  | .call callee args => fun compiler needs expected => by
      rw [compileExpr]
      exact codes_withShape (codes_compileCall callee (yields_arguments args) expected) expected
  | .ifThen _ _ | .ifThenElse _ _ _ | .block _ _ | .returnUnit | .returnValue _ | .assign _ _
  | .unsupported => fun compiler needs expected => by
      simp only [compileExpr]
      exact .fail

/-- Every argument of a call yields a register. -/
theorem yields_arguments : ∀ args : List Expr, ∀ argument ∈ arguments args, argument.Yields
  | [] => fun argument member => by
      rw [arguments] at member
      cases member
  | expression :: rest => fun argument member => by
      by_cases indexed : ∃ base key, expression = .index base key
      · obtain ⟨base, key, rfl⟩ := indexed
        rw [arguments, List.mem_cons] at member
        rcases member with rfl | member
        · refine ⟨yields_expr (.index base key), ?_⟩
          rintro _ _ ⟨⟩
          exact yields_expr key
        · exact yields_arguments rest argument member
      · rw [arguments, List.mem_cons] at member
        · rcases member with rfl | member
          · exact .of_yields (yields_expr expression)
          · exact yields_arguments rest argument member
        · intro base key isIndex
          exact indexed ⟨base, key, isIndex⟩

end

end BlopDb.Macros
