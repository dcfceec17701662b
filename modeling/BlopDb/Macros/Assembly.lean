/-
# Instructions as bytes

The bytes that stand for each instruction of the machine.  The reader inverts them,
and a table operand lies at one fixed place of every instruction that has one, so
rewriting these two bytes is the same as renaming the table.
-/

import BlopDb.Macros.Bytecode

namespace BlopDb.Macros

open BlopDb.Lib
open Vm (BinaryOp UnaryOp)

/-- The opcode of a binary operation. -/
def binaryCode : BinaryOp → Nat
  | .add => 0x10
  | .sub => 0x11
  | .mul => 0x12
  | .div => 0x13
  | .rem => 0x14
  | .eq => 0x20
  | .lt => 0x21
  | .le => 0x22
  | .gt => 0x23
  | .ge => 0x24
  | .boolAnd => 0x28
  | .boolOr => 0x29
  | .boolXor => 0x2a
  | .bitAnd => 0x30
  | .bitOr => 0x31
  | .bitXor => 0x32
  | .shl => 0x34
  | .shr => 0x35
  | .rowsKey => 0x4a
  | .rowsValue => 0x4b
  | .concat => 0x51

/-- The opcode of a unary operation. -/
def unaryCode : UnaryOp → Nat
  | .neg => 0x15
  | .toI64 => 0x16
  | .toU64 => 0x17
  | .boolNot => 0x2b
  | .bitNot => 0x33
  | .rowsLen => 0x49
  | .byteLen => 0x50
  | .utf8Bytes => 0x53
  | .parseUtf8 => 0x54
  | .sha256 => 0x55

/-- The opcode of an instruction. -/
def codeOf : Vm.Instruction → Nat
  | .const _ _ => 0x01
  | .arg _ _ => 0x02
  | .move _ _ => 0x03
  | .binary op _ _ _ => binaryCode op
  | .unary op _ _ => unaryCode op
  | .load _ _ _ => 0x40
  | .exists _ _ _ => 0x41
  | .insert _ _ _ => 0x42
  | .store _ _ _ => 0x43
  | .delete _ _ => 0x44
  | .scan _ _ _ _ _ _ _ => 0x48
  | .slice _ _ _ _ => 0x52
  | .tuple _ _ => 0x58
  | .field _ _ _ => 0x59
  | .jump _ => 0x60
  | .jumpIfFalse _ _ => 0x61
  | .require _ _ => 0x62
  | .abort _ => 0x63
  | .return _ => 0x64

/-- The operand of an optional endpoint. -/
def endpointCode (endpoint : Option Nat) : Nat := endpoint.getD 0xffff

/-- The operands of an instruction. -/
def operandsOf : Vm.Instruction → Bytes
  | .const a b | .arg a b | .move a b | .unary _ a b | .delete a b => operandBytes [a, b]
  | .binary _ a b c | .load a b c | .exists a b c | .insert a b c | .store a b c | .field a b c =>
      operandBytes [a, b, c]
  | .scan dst table lower upper flags rowLimit byteLimit =>
      operandBytes [dst, table, endpointCode lower, endpointCode upper] ++
        (leBytes 1 flags ++ [0] ++ leBytes 4 rowLimit ++ leBytes 8 byteLimit)
  | .slice a b c d => operandBytes [a, b, c, d]
  | .tuple dst fields => operandBytes ([dst, fields.length] ++ fields)
  | .jump target => leBytes 4 target
  | .jumpIfFalse condition target => operandBytes [condition] ++ leBytes 4 target
  | .require condition userCode => operandBytes [condition] ++ leBytes 4 userCode
  | .abort userCode => leBytes 4 userCode
  | .return src => operandBytes [src]

/-- The offset and the index of the table operand. -/
def tableOf : Vm.Instruction → Option (Nat × Nat)
  | .load _ table _ | .exists _ table _ | .scan _ table _ _ _ _ _ => some (2, table)
  | .insert table _ _ | .store table _ _ | .delete table _ => some (0, table)
  | _ => none

/-- Rename the table of an instruction. -/
def mapTable (rename : Nat → Nat) : Vm.Instruction → Vm.Instruction
  | .load dst table key => .load dst (rename table) key
  | .exists dst table key => .exists dst (rename table) key
  | .insert table key value => .insert (rename table) key value
  | .store table key value => .store (rename table) key value
  | .delete table key => .delete (rename table) key
  | .scan dst table lower upper flags rowLimit byteLimit =>
      .scan dst (rename table) lower upper flags rowLimit byteLimit
  | instruction => instruction

/-- Every operand of 16 bits fits its field. -/
def Short (operands : List Nat) : Prop := ∀ operand ∈ operands, operand < 2 ^ 16

/-- Every operand fits its field, and a scan has legal flags. -/
def Fits : Vm.Instruction → Prop
  | .const a b | .arg a b | .move a b | .unary _ a b | .delete a b => Short [a, b]
  | .binary _ a b c | .load a b c | .exists a b c | .insert a b c | .store a b c | .field a b c =>
      Short [a, b, c]
  | .scan dst table lower upper flags rowLimit byteLimit =>
      Short [dst, table] ∧ (∀ register ∈ lower, register < 0xffff) ∧
        (∀ register ∈ upper, register < 0xffff) ∧ flags ≤ 3 ∧
        (lower = none → flags &&& 1 = 0) ∧ (upper = none → flags &&& 2 = 0) ∧
        rowLimit < 2 ^ 32 ∧ byteLimit < 2 ^ 64
  | .slice a b c d => Short [a, b, c, d]
  | .tuple dst fields => Short (dst :: fields) ∧ fields.length ≤ 256
  | .jump target => target < 2 ^ 32
  | .jumpIfFalse condition target => Short [condition] ∧ target < 2 ^ 32
  | .require condition userCode => Short [condition] ∧ userCode < 2 ^ 32
  | .abort userCode => userCode < 2 ^ 32
  | .return src => Short [src]

/-! ## Reading back -/

@[simp]
theorem readUint_leBytes {width number : Nat} (small : number < 256 ^ width) (rest : Bytes) :
    Vm.Program.readUint width (leBytes width number ++ rest) = .ok (number, rest) := by
  simp only [Vm.Program.readUint, Vm.Program.take, takeBytes_leBytes, ok_bind, leNat_leBytes width number small]
  rfl

theorem operandBytes_cons (operand : Nat) (operands : List Nat) :
    operandBytes (operand :: operands) = leBytes 2 operand ++ operandBytes operands := rfl

theorem Short.head {operand : Nat} {operands : List Nat} (short : Short (operand :: operands)) :
    operand < 256 ^ 2 := short operand List.mem_cons_self

theorem Short.tail {operand : Nat} {operands : List Nat} (short : Short (operand :: operands)) :
    Short operands := fun other member => short other (List.mem_cons_of_mem _ member)

theorem readTwo_operandBytes {make : Nat → Nat → Vm.Instruction} {a b : Nat} (short : Short [a, b]) :
    Vm.Program.readTwo make (operandBytes [a, b]) = .ok (make a b, []) := by
  simp only [Vm.Program.readTwo, operandBytes_cons, readUint_leBytes short.head, ok_bind,
    readUint_leBytes short.tail.head]
  rfl

theorem readThree_operandBytes {make : Nat → Nat → Nat → Vm.Instruction} {a b c : Nat}
    (short : Short [a, b, c]) :
    Vm.Program.readThree make (operandBytes [a, b, c]) = .ok (make a b c, []) := by
  simp only [Vm.Program.readThree, operandBytes_cons, readUint_leBytes short.head, ok_bind,
    readUint_leBytes short.tail.head, readUint_leBytes short.tail.tail.head]
  rfl

theorem readOperands_operandBytes {operands : List Nat} (short : Short operands) (rest : Bytes) :
    Vm.Program.readOperands operands.length (operandBytes operands ++ rest) = .ok (operands, rest) := by
  induction operands with
  | nil => rfl
  | cons operand operands ih =>
      simp only [List.length_cons, Vm.Program.readOperands, operandBytes_cons, List.append_assoc,
        readUint_leBytes short.head, ok_bind, ih short.tail]
      rfl

theorem endpoint_endpointCode {endpoint : Option Nat} (short : ∀ register ∈ endpoint, register < 0xffff) :
    endpointCode endpoint < 256 ^ 2 ∧ Vm.Program.endpoint (endpointCode endpoint) = endpoint := by
  cases endpoint with
  | none => exact ⟨by decide, rfl⟩
  | some register =>
      have small := short register rfl
      simp only [endpointCode, Option.getD_some, Vm.Program.endpoint]
      exact ⟨by omega, if_pos (by omega)⟩

theorem readBinary (op : BinaryOp) (operands : Bytes) :
    Vm.Program.readInstruction (binaryCode op) operands =
      Vm.Program.readThree (.binary op) operands := by
  cases op <;> rfl

theorem readUnary (op : UnaryOp) (operands : Bytes) :
    Vm.Program.readInstruction (unaryCode op) operands = Vm.Program.readTwo (.unary op) operands := by
  cases op <;> rfl

/-- The operands of a scan are read back. -/
theorem readScan_operandsOf {dst table : Nat} {lower upper : Option Nat} {flags rowLimit byteLimit : Nat}
    (fits : Fits (.scan dst table lower upper flags rowLimit byteLimit)) :
    Vm.Program.readScan (operandsOf (.scan dst table lower upper flags rowLimit byteLimit)) =
      .ok (.scan dst table lower upper flags rowLimit byteLimit, []) := by
  obtain ⟨short, lowerShort, upperShort, legal, lowerAbsent, upperAbsent, rows, bytes⟩ := fits
  obtain ⟨lowerSmall, lowerSame⟩ := endpoint_endpointCode lowerShort
  obtain ⟨upperSmall, upperSame⟩ := endpoint_endpointCode upperShort
  have reserved : ([0] : Bytes) = leBytes 1 0 := rfl
  have absent : ¬ ((lower.isNone ∧ flags &&& 1 ≠ 0) ∨ (upper.isNone ∧ flags &&& 2 ≠ 0)) := by
    simp only [Option.isNone_iff_eq_none]
    tauto
  have last : leBytes 8 byteLimit = leBytes 8 byteLimit ++ [] := (List.append_nil _).symm
  simp only [Vm.Program.readScan, operandsOf, operandBytes_cons, List.append_assoc, ok_bind,
    readUint_leBytes short.head, readUint_leBytes short.tail.head, readUint_leBytes lowerSmall,
    readUint_leBytes upperSmall, show operandBytes [] = [] from rfl, List.nil_append]
  rw [readUint_leBytes (by omega), ok_bind, refuse_of_not _ (by omega), ok_bind, reserved,
    readUint_leBytes (by decide), ok_bind, refuse_of_not _ (by simp), ok_bind, lowerSame, upperSame,
    refuse_of_not _ absent, ok_bind, readUint_leBytes (by omega), ok_bind, last,
    readUint_leBytes (by omega), ok_bind]
  rfl

/-- The reader inverts the encoding of an instruction. -/
theorem readInstruction_operandsOf {instruction : Vm.Instruction} (fits : Fits instruction) :
    Vm.Program.readInstruction (codeOf instruction) (operandsOf instruction) = .ok (instruction, []) := by
  have whole {width number : Nat} (small : number < 256 ^ width) :
      Vm.Program.readUint width (leBytes width number) = .ok (number, []) := by
    have read := readUint_leBytes small []
    rwa [List.append_nil] at read
  cases instruction with
  | const a b | arg a b | move a b | delete a b => exact readTwo_operandBytes fits
  | unary op a b => exact (readUnary op _).trans (readTwo_operandBytes fits)
  | binary op a b c => exact (readBinary op _).trans (readThree_operandBytes fits)
  | load a b c | «exists» a b c | insert a b c | store a b c | field a b c =>
      exact readThree_operandBytes fits
  | scan dst table lower upper flags rowLimit byteLimit => exact readScan_operandsOf fits
  | slice a b c d =>
      simp only [codeOf, operandsOf, Vm.Program.readInstruction, operandBytes_cons,
        readUint_leBytes fits.head, readUint_leBytes fits.tail.head, readUint_leBytes fits.tail.tail.head,
        readUint_leBytes fits.tail.tail.tail.head, ok_bind]
      rfl
  | tuple dst fields =>
      obtain ⟨short, few⟩ := fits
      have counted : fields.length < 256 ^ 2 := by omega
      have read := readOperands_operandBytes short.tail []
      rw [List.append_nil] at read
      simp only [codeOf, operandsOf, Vm.Program.readInstruction, List.cons_append, List.nil_append,
        operandBytes_cons, readUint_leBytes short.head, readUint_leBytes counted, ok_bind]
      rw [refuse_of_not _ (by omega), ok_bind, read]
      rfl
  | jump target =>
      simp only [codeOf, operandsOf, Vm.Program.readInstruction]
      rw [whole fits]
      rfl
  | jumpIfFalse condition target =>
      simp only [codeOf, operandsOf, Vm.Program.readInstruction, operandBytes_cons, List.append_assoc,
        readUint_leBytes fits.1.head, ok_bind]
      rw [show operandBytes [] ++ leBytes 4 target = leBytes 4 target from rfl, whole fits.2]
      rfl
  | require condition userCode =>
      simp only [codeOf, operandsOf, Vm.Program.readInstruction, operandBytes_cons, List.append_assoc,
        readUint_leBytes fits.1.head, ok_bind]
      rw [show operandBytes [] ++ leBytes 4 userCode = leBytes 4 userCode from rfl, whole fits.2]
      rfl
  | abort userCode =>
      simp only [codeOf, operandsOf, Vm.Program.readInstruction]
      rw [whole fits]
      rfl
  | «return» src =>
      simp only [codeOf, operandsOf, Vm.Program.readInstruction, operandBytes_cons,
        readUint_leBytes fits.head, ok_bind]
      rfl

/-! ## Tables -/

/-- Rewrite the table operand of an instruction. -/
def Instruction.rename (rename : Nat → Nat) (instruction : Instruction) : Instruction :=
  match instruction.table with
  | none => instruction
  | some (offset, index) =>
      { instruction with
        operands := overwrite instruction.operands offset (leBytes 2 (rename index))
        table := some (offset, rename index) }

/-- The encoded form of an instruction of the machine. -/
structure Means (encoded : Instruction) (instruction : Vm.Instruction) : Prop where
  opcode : encoded.opcode = codeOf instruction
  operands : encoded.operands = operandsOf instruction
  table : encoded.table = tableOf instruction

theorem codeOf_mapTable (rename : Nat → Nat) (instruction : Vm.Instruction) :
    codeOf (mapTable rename instruction) = codeOf instruction := by
  cases instruction <;> rfl

theorem tableOf_mapTable (rename : Nat → Nat) (instruction : Vm.Instruction) :
    tableOf (mapTable rename instruction) =
      (tableOf instruction).map fun table => (table.1, rename table.2) := by
  cases instruction <;> rfl

theorem mapTable_of_none (rename : Nat → Nat) {instruction : Vm.Instruction}
    (none : tableOf instruction = none) : mapTable rename instruction = instruction := by
  cases instruction <;> first | rfl | cases none

theorem mapTable_mapTable (first second : Nat → Nat) (instruction : Vm.Instruction) :
    mapTable second (mapTable first instruction) = mapTable (second ∘ first) instruction := by
  cases instruction <;> rfl

theorem mapTable_congr {first second : Nat → Nat} {instruction : Vm.Instruction}
    (agree : ∀ offset index, tableOf instruction = some (offset, index) → first index = second index) :
    mapTable first instruction = mapTable second instruction := by
  cases instruction with
  | load | «exists» | insert | store | delete | scan => simp only [mapTable, agree _ _ rfl]
  | _ => rfl

theorem overwrite_second (first second third : Nat) (rest : List Nat) (tail : Bytes) :
    overwrite (operandBytes (first :: second :: rest) ++ tail) 2 (leBytes 2 third) =
      operandBytes (first :: third :: rest) ++ tail := by
  simp only [operandBytes_cons, List.append_assoc]
  rw [overwrite_append_right _ _ (by simp), length_leBytes, Nat.sub_self,
    overwrite_zero_append _ (by simp)]

theorem overwrite_first (first second : Nat) (rest : List Nat) :
    overwrite (operandBytes (first :: rest)) 0 (leBytes 2 second) = operandBytes (second :: rest) := by
  simp only [operandBytes_cons]
  rw [overwrite_zero_append _ (by simp)]

/-- Rewriting the operand is renaming the table. -/
theorem operandsOf_mapTable (rename : Nat → Nat) {instruction : Vm.Instruction} {offset index : Nat}
    (table : tableOf instruction = some (offset, index)) :
    operandsOf (mapTable rename instruction) =
      overwrite (operandsOf instruction) offset (leBytes 2 (rename index)) := by
  cases instruction with
  | load a b c | «exists» a b c =>
      cases table
      have second := overwrite_second a index (rename index) [c] []
      simp only [List.append_nil] at second
      exact second.symm
  | insert a b c | store a b c | delete a b =>
      cases table
      exact (overwrite_first index (rename index) _).symm
  | scan dst table' lower upper flags rowLimit byteLimit =>
      cases table
      exact (overwrite_second dst index (rename index) _ _).symm
  | _ => cases table

theorem Means.rename {encoded : Instruction} {instruction : Vm.Instruction}
    (means : Means encoded instruction) (rename : Nat → Nat) :
    Means (encoded.rename rename) (mapTable rename instruction) := by
  have table := means.table
  unfold Instruction.rename
  cases found : tableOf instruction with
  | none =>
      rw [found] at table
      rw [table, mapTable_of_none rename found]
      exact means
  | some place =>
      obtain ⟨offset, index⟩ := place
      rw [found] at table
      rw [table]
      refine ⟨means.opcode.trans (codeOf_mapTable rename instruction).symm, ?_, ?_⟩
      · rw [operandsOf_mapTable rename found, means.operands]
      · rw [tableOf_mapTable, found]
        rfl

@[simp]
theorem Instruction.rename_name (rename : Nat → Nat) (encoded : Instruction) :
    (encoded.rename rename).name = encoded.name := by
  unfold Instruction.rename
  split <;> rfl

/-- An instruction is known from what it means and the name it keeps. -/
theorem Means.ext {left right : Instruction} {instruction : Vm.Instruction}
    (leftMeans : Means left instruction) (rightMeans : Means right instruction)
    (names : left.name = right.name) : left = right := by
  obtain ⟨opcode, operands, table, name⟩ := left
  obtain ⟨opcode', operands', table', name'⟩ := right
  obtain ⟨rfl, rfl, rfl⟩ := leftMeans
  obtain ⟨rfl, rfl, rfl⟩ := rightMeans
  cases names
  rfl

theorem Fits.mapTable {instruction : Vm.Instruction} (fits : Fits instruction) {rename : Nat → Nat}
    (small : ∀ offset index, tableOf instruction = some (offset, index) → rename index < 2 ^ 16) :
    Fits (mapTable rename instruction) := by
  cases instruction with
  | load a b c | «exists» a b c | insert a b c | store a b c | delete a b =>
      have renamed := small _ _ rfl
      simp only [Macros.mapTable, Fits, Short, List.forall_mem_cons] at fits ⊢
      tauto
  | scan dst table lower upper flags rowLimit byteLimit =>
      have renamed := small _ _ rfl
      simp only [Macros.mapTable, Fits, Short, List.forall_mem_cons] at fits ⊢
      tauto
  | _ => exact fits

end BlopDb.Macros
