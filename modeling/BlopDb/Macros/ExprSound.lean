/-
# Compiled expressions

Each part of the expression compiler keeps the invariant of the compiler and runs in
lockstep under a renumbering of the tables.  The register an expression is compiled
into exists and is the same under every numbering.
-/

import BlopDb.Macros.Invariant

namespace BlopDb.Macros

open BlopDb.Lib
open Vm (BinaryOp UnaryOp Ty Value)
open Vm.Program (isRows)

variable {rename : Nat → Nat} {declared : String → Option TableInfo} {compiler : Compiler}

/-! ## Names -/

@[simp]
theorem typeHint_rename (compiler : Compiler) (expression : Expr) :
    typeHint (compiler.rename rename) expression = typeHint compiler expression := by
  fun_induction typeHint compiler expression with
  | case1 inner ih => exact ih
  | case2 inner ih => exact ih
  | case4 name key =>
      simp only [typeHint, Compiler.rename, Option.map_map]
      rfl
  | _ => simp_all [typeHint, Compiler.rename]

theorem tracks_tableInfo (sound : compiler.Sound declared) (expression : Expr) :
    Tracks rename declared compiler (tableInfo expression) (tableInfo expression) fun table table' _ =>
      table' = table.rename rename ∧ declared table.name = some table := by
  refine bind_lift fun name named => .bind_get ?_
  have image : (compiler.rename rename).tables name = (declared name).map (TableInfo.rename rename) := by
    simp only [Compiler.rename, sound.tables]
  rw [image, sound.tables]
  cases found : declared name with
  | none => exact .throw _
  | some table =>
      have known : declared table.name = some table := by
        rw [(sound.indexed name table found).1, found]
      exact .pure sound ⟨rfl, known⟩

/-! ## Instructions -/

/-- The result of an opcode is put in a fresh register. -/
theorem tracks_emitResult (sound : compiler.Sound declared) {opcode : Nat} {ty : Ty} {operands : List Nat}
    (make : Nat → Vm.Instruction)
    (means : ∀ result, Means ⟨opcode, operandBytes (result :: operands), none, none⟩ (make result))
    (fits : ∀ result < 2 ^ 16, ty.Described → Fits (make result)) :
    Tracks rename declared compiler (emitResult opcode ty operands) (emitResult opcode ty operands) Held := by
  refine (tracks_register sound ty).bind ?_
  rintro result _ compiler₁ sound₁ - ⟨⟨rfl, inside⟩, described, -⟩
  have few := sound₁.fewRegisters
  refine (tracks_emit sound₁ (means result) (fits result (by omega) described)).bind ?_
  rintro _ _ compiler₂ sound₂ grows₂ -
  exact .pure sound₂ ⟨rfl, grows₂.register inside⟩

theorem Compiler.Sound.short (sound : compiler.Sound declared) {operands : List Nat}
    (inside : ∀ operand ∈ operands, operand < compiler.registers.length) : Short operands := by
  intro operand member
  have few := sound.fewRegisters
  have bound := inside operand member
  omega

theorem Short.cons {operand : Nat} {operands : List Nat} (small : operand < 2 ^ 16) (short : Short operands) :
    Short (operand :: operands) :=
  List.forall_mem_cons.mpr ⟨small, short⟩

theorem short_nil : Short [] := List.forall_mem_nil _

theorem Compiler.Sound.register_lt (sound : compiler.Sound declared) {register : Nat}
    (inside : register < compiler.registers.length) : register < 2 ^ 16 := by
  have few := sound.fewRegisters
  omega

theorem Compiler.Sound.index_lt (sound : compiler.Sound declared) {table : TableInfo}
    (known : declared table.name = some table) : table.index < 2 ^ 16 := by
  have small := (sound.indexed _ _ known).2
  omega

/-- A unary operation is put in a fresh register. -/
theorem tracks_unary (sound : compiler.Sound declared) {source : Nat}
    (inside : source < compiler.registers.length) (op : UnaryOp) (ty : Ty) :
    Tracks rename declared compiler (emitResult (unaryCode op) ty [source])
      (emitResult (unaryCode op) ty [source]) Held :=
  tracks_emitResult sound (fun result => .unary op result source) (fun _ => ⟨rfl, rfl, rfl⟩)
    fun _ small _ => .cons small (.cons (sound.register_lt inside) short_nil)

/-- A binary operation is put in a fresh register. -/
theorem tracks_binary (sound : compiler.Sound declared) {left right : Nat}
    (leftInside : left < compiler.registers.length) (rightInside : right < compiler.registers.length)
    (op : BinaryOp) (ty : Ty) :
    Tracks rename declared compiler (emitResult (binaryCode op) ty [left, right])
      (emitResult (binaryCode op) ty [left, right]) Held :=
  tracks_emitResult sound (fun result => .binary op result left right) (fun _ => ⟨rfl, rfl, rfl⟩)
    fun _ small _ => .cons small
      (.cons (sound.register_lt leftInside) (.cons (sound.register_lt rightInside) short_nil))

/-- Accepted operand types belong to an operation. -/
theorem binaryCode_of_validOperands {opcode : Nat} {left right : Ty}
    (valid : validOperands opcode left right = true) : ∃ op, binaryCode op = opcode := by
  unfold validOperands at valid
  split_ifs at valid with arithmetic comparison boolean shift
  · rcases arithmetic with ⟨low, high⟩ | ⟨low, high⟩
    · interval_cases opcode
      exacts [⟨.add, rfl⟩, ⟨.sub, rfl⟩, ⟨.mul, rfl⟩, ⟨.div, rfl⟩, ⟨.rem, rfl⟩]
    · interval_cases opcode
      exacts [⟨.bitAnd, rfl⟩, ⟨.bitOr, rfl⟩, ⟨.bitXor, rfl⟩]
  · obtain ⟨low, high⟩ := comparison
    interval_cases opcode
    exacts [⟨.eq, rfl⟩, ⟨.lt, rfl⟩, ⟨.le, rfl⟩, ⟨.gt, rfl⟩, ⟨.ge, rfl⟩]
  · obtain ⟨low, high⟩ := boolean
    interval_cases opcode
    exacts [⟨.boolAnd, rfl⟩, ⟨.boolOr, rfl⟩, ⟨.boolXor, rfl⟩]
  · rcases shift with rfl | rfl
    exacts [⟨.shl, rfl⟩, ⟨.shr, rfl⟩]

theorem tracks_binaryInstruction (sound : compiler.Sound declared) (opcode : Nat) {left right : Nat}
    (leftInside : left < compiler.registers.length) (rightInside : right < compiler.registers.length) :
    Tracks rename declared compiler (binaryInstruction opcode left right) (binaryInstruction opcode left right)
      Held := by
  refine bind_tyOf sound leftInside fun a _ => bind_tyOf sound rightInside fun b _ => bind_reject fun valid => ?_
  rw [Bool.not_eq_false] at valid
  obtain ⟨op, code⟩ := binaryCode_of_validOperands valid
  rw [← code]
  exact tracks_binary sound leftInside rightInside op _

/-- The types of registers, as many as there are registers. -/
theorem typesOf_eq_ok {fields : List Nat} (inside : ∀ field ∈ fields, field < compiler.registers.length) :
    ∃ types, types.length = fields.length ∧ ∀ compiler' : Compiler, compiler'.registers = compiler.registers →
      typesOf fields compiler' = .ok (types, compiler') := by
  induction fields with
  | nil => exact ⟨[], rfl, fun _ _ => rfl⟩
  | cons field fields ih =>
      obtain ⟨here, rest⟩ := List.forall_mem_cons.mp inside
      obtain ⟨types, length, returns⟩ := ih rest
      have found := List.getElem?_eq_getElem here
      refine ⟨compiler.registers[field] :: types, by simp [length], fun compiler' same => ?_⟩
      have first : tyOf field compiler' = .ok (compiler.registers[field], compiler') := by
        simp only [tyOf, same, found]
      simp only [typesOf, Lockstep.bind_apply, first, ok_bind, returns compiler' same]
      rfl

theorem tracks_tupleInstruction (sound : compiler.Sound declared) {fields : List Nat}
    (inside : ∀ field ∈ fields, field < compiler.registers.length) :
    Tracks rename declared compiler (tupleInstruction fields) (tupleInstruction fields) Held := by
  obtain ⟨types, length, returns⟩ := typesOf_eq_ok inside
  refine .bind_stay (returns _ rfl) (returns _ rfl) ?_
  refine tracks_emitResult sound (fun result => .tuple result fields) (fun result => ⟨rfl, rfl, rfl⟩)
    fun result small described => ⟨.cons small (sound.short inside), ?_⟩
  have few := described.formed.2.1
  omega

theorem described_field_lt {fields : List Ty} (described : Ty.Described (.tuple fields)) {index : Nat} {ty : Ty}
    (found : fields[index]? = some ty) : index < 2 ^ 16 := by
  have few := described.formed.2.1
  have inside := (List.getElem?_eq_some_iff.mp found).1
  omega

theorem tracks_fieldInstruction (sound : compiler.Sound declared) {source : Nat}
    (inside : source < compiler.registers.length) (index : Nat) :
    Tracks rename declared compiler (fieldInstruction source index) (fieldInstruction source index) Held := by
  refine bind_tyOf sound inside fun ty described => ?_
  cases ty with
  | tuple fields =>
      refine bind_orFail fun ty found => ?_
      refine tracks_emitResult sound (fun result => .field result source index)
        (fun result => ⟨rfl, rfl, rfl⟩) fun result small _ => ?_
      exact .cons small (.cons (sound.register_lt inside) (.cons (described_field_lt described found) short_nil))
  | _ => exact .throw _

/-! ## Operands -/

/-- The action compiles into the same register under every numbering. -/
def Compiles (rename : Nat → Nat) (declared : String → Option TableInfo) (action : Option Ty → CompileM Nat) :
    Prop :=
  ∀ (compiler : Compiler), compiler.Sound declared → ∀ expected,
    Tracks rename declared compiler (action expected) (action expected) Held

/-- The operand and, for an index expression, its key compile. -/
structure Argument.Compiles (rename : Nat → Nat) (declared : String → Option TableInfo) (argument : Argument) :
    Prop where
  compile : Macros.Compiles rename declared argument.compile
  key : ∀ base key, argument.key = some (base, key) → Macros.Compiles rename declared key

theorem Argument.Compiles.of_compiles {expression : Expr} {action : Option Ty → CompileM Nat}
    (compiles : Macros.Compiles rename declared action) :
    Argument.Compiles rename declared ⟨expression, action, none⟩ :=
  ⟨compiles, fun _ _ absent => by cases absent⟩

theorem tracks_address (sound : compiler.Sound declared) {argument : Argument}
    (compiles : argument.Compiles rename declared) :
    Tracks rename declared compiler (address argument) (address argument) fun place place' after =>
      place' = (place.1.rename rename, place.2) ∧ declared place.1.name = some place.1 ∧
        place.2 < after.registers.length := by
  unfold address
  cases found : argument.key with
  | none => exact .throw _
  | some indexed =>
      obtain ⟨base, key⟩ := indexed
      refine (tracks_tableInfo sound base).bind ?_
      rintro table _ compiler₁ sound₁ - ⟨rfl, known⟩
      refine (compiles.key base key found compiler₁ sound₁ _).bind ?_
      rintro register _ compiler₂ sound₂ - ⟨rfl, inside⟩
      exact .pure sound₂ ⟨rfl, known, inside⟩

theorem tracks_readTable (sound : compiler.Sound declared) {argument : Argument}
    (compiles : argument.Compiles rename declared) {opcode : Nat} {ty : TableInfo → Ty}
    (unnumbered : ∀ table, ty (table.rename rename) = ty table)
    (make : Nat → Nat → Nat → Vm.Instruction)
    (means : ∀ result table key name,
      Means ⟨opcode, operandBytes [result, table, key], some (2, table), name⟩ (make result table key))
    (renames : ∀ result table key, mapTable rename (make result table key) = make result (rename table) key)
    (fits : ∀ result table key, Short [result, table, key] → Fits (make result table key)) :
    Tracks rename declared compiler (readTable opcode argument ty) (readTable opcode argument ty) Held := by
  refine (tracks_address sound compiles).bind ?_
  rintro ⟨table, key⟩ _ compiler₁ sound₁ - ⟨rfl, known, inside⟩
  simp only [unnumbered]
  refine (tracks_register sound₁ (ty table)).bind ?_
  rintro result _ compiler₂ sound₂ grows₂ ⟨⟨rfl, resultInside⟩, -, -⟩
  have short : Short [result, table.index, key] :=
    .cons (sound₂.register_lt resultInside) (.cons (sound₂.index_lt known)
      (.cons (sound₂.register_lt (grows₂.register inside)) short_nil))
  have renamed := means result (rename table.index) key (some table.name)
  rw [← renames] at renamed
  refine (tracks_emitTable sound₂ known (means _ _ _ _) renamed (fits _ _ _ short)).bind ?_
  rintro _ _ compiler₃ sound₃ grows₃ -
  exact .pure sound₃ ⟨rfl, grows₃.register resultInside⟩

theorem tracks_binaryOperands (sound : compiler.Sound declared) (opcode : Nat) {left right : Argument}
    (leftCompiles : left.Compiles rename declared) (rightCompiles : right.Compiles rename declared)
    (expected : Option Ty) :
    Tracks rename declared compiler (binaryOperands opcode left right expected)
      (binaryOperands opcode left right expected) fun operands operands' after => operands = operands' ∧
        operands.1 < after.registers.length ∧ operands.2 < after.registers.length := by
  refine .bind_get ?_
  simp only [typeHint_rename]
  refine (leftCompiles.compile compiler sound _).bind ?_
  rintro a _ compiler₁ sound₁ - ⟨rfl, leftInside⟩
  refine bind_tyOf sound₁ leftInside fun ty _ => (rightCompiles.compile compiler₁ sound₁ _).bind ?_
  rintro b _ compiler₂ sound₂ grows₂ ⟨rfl, rightInside⟩
  exact .pure sound₂ ⟨rfl, grows₂.register leftInside, rightInside⟩

theorem tracks_compileFields (sound : compiler.Sound declared) {fields : List Argument}
    (compile : ∀ field ∈ fields, field.Compiles rename declared) (hints : Option (List Ty)) :
    Tracks rename declared compiler (compileFields fields hints) (compileFields fields hints)
      fun registers registers' after => registers = registers' ∧
        ∀ register ∈ registers, register < after.registers.length := by
  induction fields generalizing compiler hints with
  | nil => exact .pure sound ⟨rfl, List.forall_mem_nil _⟩
  | cons field fields ih =>
      obtain ⟨first, rest⟩ := List.forall_mem_cons.mp compile
      refine (first.compile compiler sound _).bind ?_
      rintro register _ compiler₁ sound₁ - ⟨rfl, inside⟩
      refine (ih sound₁ rest _).bind ?_
      rintro registers _ compiler₂ sound₂ grows₂ ⟨rfl, others⟩
      exact .pure sound₂ ⟨rfl, List.forall_mem_cons.mpr ⟨grows₂.register inside, others⟩⟩

/-- A value is moved between registers. -/
theorem tracks_move (sound : compiler.Sound declared) {target source : Nat}
    (targetInside : target < compiler.registers.length) (sourceInside : source < compiler.registers.length) :
    Tracks rename declared compiler (emit 0x03 [target, source]) (emit 0x03 [target, source])
      fun _ _ after => after.instructions ≠ [] :=
  tracks_emit sound (show Means _ (.move target source) from ⟨rfl, rfl, rfl⟩)
    (.cons (sound.register_lt targetInside) (.cons (sound.register_lt sourceInside) short_nil))

theorem tracks_shortCircuit (sound : compiler.Sound declared) {left right : Argument}
    (leftCompiles : left.Compiles rename declared) (rightCompiles : right.Compiles rename declared)
    (and : Bool) :
    Tracks rename declared compiler (shortCircuit left right and) (shortCircuit left right and) Held := by
  refine (leftCompiles.compile compiler sound _).bind ?_
  rintro left _ compiler₁ sound₁ - ⟨rfl, leftInside⟩
  refine (tracks_register sound₁ .boolean).bind ?_
  rintro result _ compiler₂ sound₂ grows₂ ⟨⟨rfl, resultInside⟩, -, -⟩
  refine (tracks_move sound₂ resultInside (grows₂.register leftInside)).bind ?_
  rintro _ _ compiler₃ sound₃ grows₃ -
  have leftLater := grows₃.register (grows₂.register leftInside)
  refine (tracks_jump sound₃ (by simpa using leftLater)).bind ?_
  rintro branch _ compiler₄ sound₄ grows₄ ⟨rfl, branches⟩
  have resultLater := grows₄.register (grows₃.register resultInside)
  cases and with
  | true =>
      refine (rightCompiles.compile compiler₄ sound₄ _).bind ?_
      rintro right _ compiler₅ sound₅ grows₅ ⟨rfl, rightInside⟩
      refine (tracks_move sound₅ (grows₅.register resultLater) rightInside).bind ?_
      rintro _ _ compiler₆ sound₆ grows₆ -
      refine (tracks_patchJump sound₆ ((branches.grows grows₅).grows grows₆)).bind ?_
      rintro _ _ compiler₇ sound₇ grows₇ -
      exact .pure sound₇ ⟨rfl, grows₇.register (grows₆.register (grows₅.register resultLater))⟩
  | false =>
      refine (tracks_jump sound₄ (by simp)).bind ?_
      rintro stop _ compiler₅ sound₅ grows₅ ⟨rfl, stops⟩
      refine (tracks_patchJump sound₅ (branches.grows grows₅)).bind ?_
      rintro _ _ compiler₆ sound₆ grows₆ -
      refine (rightCompiles.compile compiler₆ sound₆ _).bind ?_
      rintro right _ compiler₇ sound₇ grows₇ ⟨rfl, rightInside⟩
      have resultInside := grows₇.register (grows₆.register (grows₅.register resultLater))
      refine (tracks_move sound₇ resultInside rightInside).bind ?_
      rintro _ _ compiler₈ sound₈ grows₈ -
      refine (tracks_patchJump sound₈ (((stops.grows grows₆).grows grows₇).grows grows₈)).bind ?_
      rintro _ _ compiler₉ sound₉ grows₉ -
      exact .pure sound₉ ⟨rfl, grows₉.register (grows₈.register resultInside)⟩

/-! ## Operators -/

theorem unaryCode_of_unaryOpcode {op : UnaryOperator} {ty : Ty} {opcode : Nat}
    (taken : unaryOpcode op ty = some opcode) : ∃ op, unaryCode op = opcode := by
  unfold unaryOpcode at taken
  split at taken <;> cases taken
  exacts [⟨.neg, rfl⟩, ⟨.boolNot, rfl⟩, ⟨.bitNot, rfl⟩, ⟨.bitNot, rfl⟩]

theorem tracks_compileUnary (sound : compiler.Sound declared) (op : UnaryOperator) {operand : Argument}
    (compiles : operand.Compiles rename declared) (expected : Option Ty) :
    Tracks rename declared compiler (compileUnary op operand expected) (compileUnary op operand expected)
      Held := by
  refine (compiles.compile compiler sound _).bind ?_
  rintro source _ compiler₁ sound₁ - ⟨rfl, inside⟩
  refine bind_tyOf sound₁ inside fun ty _ => bind_orFail fun opcode taken => ?_
  obtain ⟨op, rfl⟩ := unaryCode_of_unaryOpcode taken
  exact tracks_unary sound₁ inside op ty

theorem tracks_compileBinary (sound : compiler.Sound declared) (op : BinaryOperator) {left right : Argument}
    (leftCompiles : left.Compiles rename declared) (rightCompiles : right.Compiles rename declared)
    (expected : Option Ty) :
    Tracks rename declared compiler (compileBinary op left right expected)
      (compileBinary op left right expected) Held := by
  unfold compileBinary
  split
  · exact tracks_shortCircuit sound leftCompiles rightCompiles true
  · exact tracks_shortCircuit sound leftCompiles rightCompiles false
  · refine bind_orFail fun opcode taken => ?_
    refine (tracks_binaryOperands sound opcode leftCompiles rightCompiles expected).bind ?_
    rintro ⟨a, b⟩ _ compiler₁ sound₁ - ⟨rfl, leftInside, rightInside⟩
    refine (tracks_binaryInstruction sound₁ opcode leftInside rightInside).bind ?_
    rintro result _ compiler₂ sound₂ - ⟨rfl, inside⟩
    split_ifs with inequality
    · exact tracks_unary sound₂ inside .boolNot .boolean
    · exact .pure sound₂ ⟨rfl, inside⟩

theorem tracks_withShape {action : CompileM Nat} {expected : Option Ty}
    (tracks : Tracks rename declared compiler action action Held) :
    Tracks rename declared compiler (withShape expected action) (withShape expected action) Held := by
  refine tracks.bind ?_
  rintro register _ compiler₁ sound₁ - ⟨rfl, inside⟩
  cases expected with
  | none => exact .pure sound₁ ⟨rfl, inside⟩
  | some expected => exact bind_tyOf sound₁ inside fun _ _ => bind_lift fun _ _ => .pure sound₁ ⟨rfl, inside⟩

/-! ## Literals -/

/-- The word of a signed constant. -/
theorem leBytes_i64 {word : Nat} (small : word < 2 ^ 64) :
    ∃ value : Value, Ty.accepts .i64 value = true ∧ leBytes 8 word = value.encode := by
  refine ⟨.i64 (Int64.ofBitVec (BitVec.ofNat 64 word)), rfl, ?_⟩
  simp only [Value.encode, Int64.toBitVec_ofBitVec, BitVec.toNat_ofNat, Nat.mod_eq_of_lt small]

theorem literalConstant_stands {literal : Literal} {expected : Option Ty} {ty : Ty} {bytes : Bytes}
    (known : literalConstant literal expected = .ok (ty, bytes)) :
    ∃ value : Value, ty.accepts value = true ∧ isRows ty = false ∧ bytes = value.encode := by
  cases literal with
  | boolean value =>
      cases known
      exact ⟨.boolean value, rfl, rfl, rfl⟩
  | integer number suffix =>
      have unsigned (small : number < 2 ^ 64) : ∃ value : Value, Ty.accepts .u64 value = true ∧
          isRows .u64 = false ∧ leBytes 8 number = value.encode := by
        refine ⟨.u64 (UInt64.ofNat number), rfl, rfl, ?_⟩
        simp only [Value.encode, UInt64.toNat_ofNat', Nat.mod_eq_of_lt small]
      have signed (small : number < 2 ^ 63) : ∃ value : Value, Ty.accepts .i64 value = true ∧
          isRows .i64 = false ∧ leBytes 8 number = value.encode := by
        obtain ⟨value, accepts, encoded⟩ := leBytes_i64 (show number < 2 ^ 64 by omega)
        exact ⟨value, accepts, rfl, encoded⟩
      simp only [literalConstant, ok_bind, error_bind, decide_eq_true_eq] at known
      split_ifs at known <;> simp only [bind_eq_ok, refuse_eq_ok, exists_const, pure_eq_ok,
        Except.ok.injEq, Prod.mk.injEq, not_le, ge_iff_le] at known <;>
        obtain ⟨small, rfl, rfl⟩ := known <;> first | exact unsigned small | exact signed small
  | text value =>
      simp only [literalConstant, bind_eq_ok, blob_eq_ok, pure_eq_ok, Except.ok.injEq, Prod.mk.injEq] at known
      obtain ⟨_, ⟨-, rfl⟩, rfl, rfl⟩ := known
      exact ⟨.string value, by simp [Ty.accepts], rfl, rfl⟩
  | byteText value =>
      simp only [literalConstant, bind_eq_ok, blob_eq_ok, pure_eq_ok, Except.ok.injEq, Prod.mk.injEq] at known
      obtain ⟨_, ⟨-, rfl⟩, rfl, rfl⟩ := known
      exact ⟨.bytes value, by simp [Ty.accepts], rfl, rfl⟩
  | unsupported => cases known

theorem tracks_literal (sound : compiler.Sound declared) (literal : Literal) (expected : Option Ty) :
    Tracks rename declared compiler (do let (ty, bytes) ← lift (literalConstant literal expected); constant ty bytes)
      (do let (ty, bytes) ← lift (literalConstant literal expected); constant ty bytes) Held := by
  refine bind_lift fun ⟨ty, bytes⟩ known => ?_
  obtain ⟨value, accepts, plain, encoded⟩ := literalConstant_stands known
  exact (tracks_constant sound accepts plain encoded).weaken fun _ _ _ _ held => held.1

theorem tracks_unit (sound : compiler.Sound declared) :
    Tracks rename declared compiler (constant .unit []) (constant .unit []) Held :=
  (tracks_constant sound (show Ty.accepts .unit .unit = true from rfl) rfl rfl).weaken
    fun _ _ _ _ held => held.1

theorem tracks_negativeLiteral (sound : compiler.Sound declared) (magnitude : Nat) (suffix : String) :
    Tracks rename declared compiler (negativeLiteral magnitude suffix) (negativeLiteral magnitude suffix)
      Held := by
  refine bind_reject fun _ => bind_reject fun _ => bind_reject fun _ => ?_
  obtain ⟨value, accepts, encoded⟩ := leBytes_i64 (Nat.mod_lt (2 ^ 64 - magnitude) (by decide : 2 ^ 64 > 0))
  exact (tracks_constant sound accepts rfl encoded).weaken fun _ _ _ _ held => held.1

/-! ## Operations -/

/-- An operation on one register is a move or a unary operation. -/
theorem singleOperand_code {name : String} {source ty : Ty} {opcode : Nat}
    (taken : singleOperand name source = some (opcode, ty)) : opcode = 0x03 ∨ ∃ op, unaryCode op = opcode := by
  unfold singleOperand at taken
  split at taken
  · cases taken
    exact .inl rfl
  · right
    cases source <;> simp only [reduceCtorEq] at taken
    all_goals split_ifs at taken
    all_goals cases taken
    exacts [⟨.boolNot, rfl⟩, ⟨.neg, rfl⟩, ⟨.toU64, rfl⟩, ⟨.bitNot, rfl⟩, ⟨.toI64, rfl⟩, ⟨.bitNot, rfl⟩,
      ⟨.byteLen, rfl⟩, ⟨.parseUtf8, rfl⟩, ⟨.sha256, rfl⟩, ⟨.byteLen, rfl⟩, ⟨.utf8Bytes, rfl⟩, ⟨.rowsLen, rfl⟩]

theorem tracks_singleOperand (sound : compiler.Sound declared) {source : Nat}
    (inside : source < compiler.registers.length) {name : String} {sourceType ty : Ty} {opcode : Nat}
    (taken : singleOperand name sourceType = some (opcode, ty)) :
    Tracks rename declared compiler (emitResult opcode ty [source]) (emitResult opcode ty [source]) Held := by
  rcases singleOperand_code taken with rfl | ⟨op, rfl⟩
  · exact tracks_emitResult sound (fun result => .move result source) (fun _ => ⟨rfl, rfl, rfl⟩)
      fun _ small _ => .cons small (.cons (sound.register_lt inside) short_nil)
  · exact tracks_unary sound inside op ty

/-- A row is read at a compiled index. -/
theorem tracks_row (sound : compiler.Sound declared) {source : Nat}
    (inside : source < compiler.registers.length) {index : Argument} (compiles : index.Compiles rename declared)
    (op : BinaryOp) (ty : Ty) :
    Tracks rename declared compiler
      (do let index ← index.compile (some .u64); emitResult (binaryCode op) ty [source, index])
      (do let index ← index.compile (some .u64); emitResult (binaryCode op) ty [source, index]) Held := by
  refine (compiles.compile compiler sound _).bind ?_
  rintro index _ compiler₁ sound₁ grows₁ ⟨rfl, indexInside⟩
  exact tracks_binary sound₁ (grows₁.register inside) indexInside op ty

/-- The type of a compiled operand selects how it is used. -/
theorem tracks_typed (sound : compiler.Sound declared) {argument : Argument}
    (compiles : argument.Compiles rename declared) {expected : Option Ty} {next : Nat → Ty → CompileM Nat}
    (continues : ∀ register ty compiler', compiler'.Sound declared → compiler.Grows compiler' →
      register < compiler'.registers.length →
      Tracks rename declared compiler' (next register ty) (next register ty) Held) :
    Tracks rename declared compiler
      (do let register ← argument.compile expected; let ty ← tyOf register; next register ty)
      (do let register ← argument.compile expected; let ty ← tyOf register; next register ty) Held := by
  refine (compiles.compile compiler sound _).bind ?_
  rintro register _ compiler₁ sound₁ grows₁ ⟨rfl, inside⟩
  exact bind_tyOf sound₁ inside fun ty _ => continues register ty compiler₁ sound₁ grows₁ inside

theorem tracks_compileOperation (sound : compiler.Sound declared) (name : String) {source : Nat}
    (inside : source < compiler.registers.length) {rest : List Argument}
    (compile : ∀ argument ∈ rest, argument.Compiles rename declared) :
    Tracks rename declared compiler (compileOperation name source rest) (compileOperation name source rest)
      Held := by
  refine bind_tyOf sound inside fun sourceType _ => ?_
  split
  · exact bind_lift fun index _ => tracks_fieldInstruction sound inside index
  · split
    · rename_i taken _
      exact tracks_singleOperand sound inside taken
    · split_ifs
      · exact tracks_row sound inside (compile _ List.mem_cons_self) .rowsKey _
      · exact tracks_row sound inside (compile _ List.mem_cons_self) .rowsValue _
      · exact .throw _
    · split_ifs
      · refine tracks_typed sound (compile _ List.mem_cons_self) ?_
        intro right ty compiler₁ sound₁ grows₁ rightInside
        cases ty with
        | bytes | string => exact tracks_binary sound₁ (grows₁.register inside) rightInside .concat _
        | _ => exact .throw _
      · exact .throw _
    · split_ifs
      · refine tracks_typed sound (compile _ List.mem_cons_self) ?_
        intro right ty compiler₁ sound₁ grows₁ rightInside
        cases ty with
        | bytes | string => exact tracks_binary sound₁ (grows₁.register inside) rightInside .concat _
        | _ => exact .throw _
      · exact .throw _
    · split_ifs
      · refine ((compile _ List.mem_cons_self).compile compiler sound _).bind ?_
        rintro start _ compiler₁ sound₁ grows₁ ⟨rfl, startInside⟩
        refine ((compile _ (List.mem_cons_of_mem _ List.mem_cons_self)).compile compiler₁ sound₁ _).bind ?_
        rintro length _ compiler₂ sound₂ grows₂ ⟨rfl, lengthInside⟩
        refine tracks_emitResult sound₂ (fun result => .slice result source start length)
          (fun _ => ⟨rfl, rfl, rfl⟩) fun _ small _ => .cons small (sound₂.short ?_)
        simp only [List.forall_mem_cons]
        exact ⟨grows₂.register (grows₁.register inside), grows₂.register startInside, lengthInside, by simp⟩
      · exact .throw _
    · exact .throw _

/-! ## Scans -/

/-- An endpoint is absent where a flag does not include it, or a register. -/
theorem tracks_endpointOperand (sound : compiler.Sound declared) {argument : Argument}
    (compiles : argument.Compiles rename declared) (inclusive : Bool) (key : Ty) :
    Tracks rename declared compiler (endpointOperand argument inclusive key)
      (endpointOperand argument inclusive key) fun operand operand' after => operand = operand' ∧
        ∃ endpoint, operand = endpointCode endpoint ∧ (∀ register ∈ endpoint, register < after.registers.length) ∧
          (endpoint = none → inclusive = false) := by
  unfold endpointOperand
  split_ifs with absent
  · refine bind_reject fun exclusive => .pure sound ⟨rfl, none, rfl, by simp, fun _ => ?_⟩
    simpa using exclusive
  · refine (compiles.compile compiler sound _).weaken ?_
    rintro register _ after - ⟨rfl, inside⟩
    exact ⟨rfl, some register, rfl, by simpa using inside, by simp⟩

theorem immediate_le {expression : Expr} {maximum value : Nat} (taken : immediate expression maximum = .ok value) :
    value ≤ maximum := by
  unfold immediate at taken
  split at taken
  · split_ifs at taken with wide small
    cases taken
    exact small.1
  · cases taken

theorem tracks_scan (sound : compiler.Sound declared) {table lower upper flags rowLimit byteLimit : Argument}
    (lowerCompiles : lower.Compiles rename declared) (upperCompiles : upper.Compiles rename declared) :
    Tracks rename declared compiler (scan table lower upper flags rowLimit byteLimit)
      (scan table lower upper flags rowLimit byteLimit) Held := by
  refine (tracks_tableInfo sound table.expr).bind ?_
  rintro table _ compiler₁ sound₁ - ⟨rfl, known⟩
  refine bind_lift fun flags flagged => bind_lift fun rowLimit limited => bind_lift fun byteLimit bounded => ?_
  have flagBound := immediate_le flagged
  have rowBound := immediate_le limited
  have byteBound := immediate_le bounded
  refine (tracks_endpointOperand sound₁ lowerCompiles _ table.key).bind ?_
  rintro _ _ compiler₂ sound₂ - ⟨rfl, lower, rfl, lowerInside, lowerAbsent⟩
  refine (tracks_endpointOperand sound₂ upperCompiles _ table.key).bind ?_
  rintro _ _ compiler₃ sound₃ grows₃ ⟨rfl, upper, rfl, upperInside, upperAbsent⟩
  refine (tracks_register sound₃ _).bind ?_
  rintro result _ compiler₄ sound₄ grows₄ ⟨⟨rfl, resultInside⟩, -, -⟩
  have few := sound₄.fewRegisters
  have fits : Fits (.scan result table.index lower upper flags rowLimit byteLimit) := by
    refine ⟨.cons (sound₄.register_lt resultInside) (.cons (sound₄.index_lt known) short_nil), ?_, ?_,
      flagBound, ?_, ?_, by omega, by omega⟩
    · intro register member
      have := grows₄.register (grows₃.register (lowerInside register member))
      omega
    · intro register member
      have := grows₄.register (upperInside register member)
      omega
    · intro absent
      simpa using lowerAbsent absent
    · intro absent
      simpa using upperAbsent absent
  rw [emitTable, emitTable, push_extendOperands, push_extendOperands]
  refine Lockstep.bind (tracks_push sound₄
    (show Means _ (.scan result table.index lower upper flags rowLimit byteLimit) from ⟨rfl, rfl, rfl⟩)
    ⟨rfl, rfl, rfl⟩ rfl fits ?_) ?_
  · rintro _ _ ⟨⟩
    exact ⟨table, known, rfl, rfl⟩
  · rintro _ _ compiler₅ sound₅ grows₅ -
    exact .pure sound₅ ⟨rfl, grows₅.register resultInside⟩

/-! ## Calls -/

theorem tracks_load (sound : compiler.Sound declared) {argument : Argument}
    (compiles : argument.Compiles rename declared) :
    Tracks rename declared compiler (readTable 0x40 argument (·.value)) (readTable 0x40 argument (·.value))
      Held :=
  tracks_readTable sound compiles (fun _ => rfl) .load (fun _ _ _ _ => ⟨rfl, rfl, rfl⟩) (fun _ _ _ => rfl)
    fun _ _ _ short => short

theorem tracks_exists (sound : compiler.Sound declared) {argument : Argument}
    (compiles : argument.Compiles rename declared) :
    Tracks rename declared compiler (readTable 0x41 argument fun _ => .boolean)
      (readTable 0x41 argument fun _ => .boolean) Held :=
  tracks_readTable sound compiles (fun _ => rfl) .exists (fun _ _ _ _ => ⟨rfl, rfl, rfl⟩) (fun _ _ _ => rfl)
    fun _ _ _ short => short

theorem tracks_compileCall (sound : compiler.Sound declared) (callee : Expr) {args : List Argument}
    (compile : ∀ argument ∈ args, argument.Compiles rename declared) (expected : Option Ty) :
    Tracks rename declared compiler (compileCall callee args expected) (compileCall callee args expected)
      Held := by
  refine bind_lift fun name _ => ?_
  split
  · refine bind_lift fun captured _ => .bind_get ?_
    show Tracks _ _ _ (orFail (compiler.captures captured) _) (orFail (compiler.captures captured) _) _
    cases found : compiler.captures captured with
    | none => exact .throw _
    | some register => exact .pure sound ⟨rfl, sound.captures captured register found⟩
  · refine (tracks_compileFields sound compile _).bind ?_
    rintro fields _ compiler₁ sound₁ - ⟨rfl, inside⟩
    exact tracks_tupleInstruction sound₁ inside
  · refine bind_orFail fun operands _ => bind_reject fun _ => ?_
    split
    · exact tracks_scan sound (compile _ (by simp)) (compile _ (by simp))
    · exact tracks_load sound (compile _ List.mem_cons_self)
    · exact tracks_exists sound (compile _ List.mem_cons_self)
    · obtain ⟨first, rest⟩ := List.forall_mem_cons.mp compile
      split
      · refine (tracks_binaryOperands sound _ first (rest _ List.mem_cons_self) expected).bind ?_
        rintro ⟨left, right⟩ _ compiler₁ sound₁ - ⟨rfl, leftInside, rightInside⟩
        refine bind_tyOf sound₁ leftInside fun _ _ => bind_reject fun _ => ?_
        exact tracks_binaryInstruction sound₁ _ leftInside rightInside
      · refine (first.compile compiler sound _).bind ?_
        rintro source _ compiler₁ sound₁ - ⟨rfl, inside⟩
        exact tracks_compileOperation sound₁ _ inside rest
    · exact .throw _

/-! ## Expressions -/

mutual

/-- An expression is compiled into the same register under every numbering. -/
theorem compiles_expr : ∀ expression : Expr, Compiles rename declared (compileExpr expression)
  | .paren inner => fun compiler sound expected => by
      rw [compileExpr]
      exact tracks_withShape (compiles_expr inner compiler sound expected)
  | .group inner => fun compiler sound expected => by
      rw [compileExpr]
      exact tracks_withShape (compiles_expr inner compiler sound expected)
  | .path name => fun compiler sound expected => by
      rw [compileExpr]
      refine tracks_withShape (bind_lift fun name _ => .bind_get (bind_orFail fun found known => ?_))
      exact .pure sound ⟨rfl, sound.locals name found known⟩
  | .lit literal => fun compiler sound expected => by
      rw [compileExpr]
      exact tracks_withShape (tracks_literal sound literal expected)
  | .unary op operand => fun compiler sound expected => by
      by_cases negative : ∃ magnitude suffix, op = .neg ∧ operand = .lit (.integer magnitude suffix)
      · obtain ⟨magnitude, suffix, rfl, rfl⟩ := negative
        rw [compileExpr]
        exact tracks_withShape (tracks_negativeLiteral sound magnitude suffix)
      · rw [compileExpr]
        · exact tracks_withShape (tracks_compileUnary sound op (.of_compiles (compiles_expr operand)) expected)
        · intro magnitude suffix isNeg isLiteral
          exact negative ⟨magnitude, suffix, isNeg, isLiteral⟩
  | .binary op left right => fun compiler sound expected => by
      rw [compileExpr]
      exact tracks_withShape (tracks_compileBinary sound op (.of_compiles (compiles_expr left))
        (.of_compiles (compiles_expr right)) expected)
  | .index base key => fun compiler sound expected => by
      rw [compileExpr]
      refine tracks_withShape (tracks_load sound ⟨fun _ _ _ => .throw _, ?_⟩)
      rintro _ _ ⟨⟩
      exact compiles_expr key
  | .tuple [] => fun compiler sound expected => by
      rw [compileExpr]
      exact tracks_withShape (tracks_unit sound)
  | .tuple (field :: fields) => fun compiler sound expected => by
      rw [compileExpr]
      refine tracks_withShape ((tracks_compileFields sound (compiles_arguments (field :: fields)) _).bind ?_)
      rintro registers _ compiler₁ sound₁ - ⟨rfl, inside⟩
      exact tracks_tupleInstruction sound₁ inside
  | .field base member => fun compiler sound expected => by
      rw [compileExpr]
      refine tracks_withShape ((compiles_expr base compiler sound none).bind ?_)
      rintro source _ compiler₁ sound₁ - ⟨rfl, inside⟩
      exact bind_orFail fun index _ => tracks_fieldInstruction sound₁ inside index
  | .call callee args => fun compiler sound expected => by
      rw [compileExpr]
      exact tracks_withShape (tracks_compileCall sound callee (compiles_arguments args) expected)
  | .ifThen _ _ | .ifThenElse _ _ _ | .block _ _ | .returnUnit | .returnValue _ | .assign _ _
  | .unsupported => fun compiler sound expected => by
      simp only [compileExpr]
      exact .throw _

/-- Every argument of a call compiles. -/
theorem compiles_arguments : ∀ args : List Expr, ∀ argument ∈ arguments args, argument.Compiles rename declared
  | [] => fun argument member => by
      rw [arguments] at member
      cases member
  | expression :: rest => fun argument member => by
      by_cases indexed : ∃ base key, expression = .index base key
      · obtain ⟨base, key, rfl⟩ := indexed
        rw [arguments, List.mem_cons] at member
        rcases member with rfl | member
        · refine ⟨compiles_expr (.index base key), ?_⟩
          rintro _ _ ⟨⟩
          exact compiles_expr key
        · exact compiles_arguments rest argument member
      · rw [arguments, List.mem_cons] at member
        · rcases member with rfl | member
          · exact .of_compiles (compiles_expr expression)
          · exact compiles_arguments rest argument member
        · intro base key isIndex
          exact indexed ⟨base, key, isIndex⟩

end

end BlopDb.Macros
