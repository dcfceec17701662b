/-
# Program templates

The compiler of the transaction macro lays a program out as bytes with an empty
table array.  Beside the bytes it records where the array starts and, for every
instruction that names a table, where that operand lies and which declaration it
names.  Binding fills these places once the table identities are known.
-/

import BlopDb.Lib.Buffer
import BlopDb.Lib.Wire
import BlopDb.Vm.Program

namespace BlopDb.Macros

open BlopDb.Lib
open Storage.Encoding (checkedAdd checkedMul)
open Vm (Ty)

/-- The largest program and the largest value. -/
def valueLimit : Nat := 16 * 1024 * 1024

/-- Why a program is not compiled. -/
inductive CompileError
  | message (text : String)
  | typeMismatch (expected found : Ty)
  | invalidOperands (left right : Ty)
  | invalidOperand (name : String) (ty : Ty)
  | arity (name : String) (operands : Nat)
  | literalAbove (maximum : Nat)
  | unparsable
  | panic

/-! ## Types -/

/-- A size within the value limit at a depth of at most sixteen. -/
def legal (depth : Nat) (length : Option Nat) : Option Nat :=
  if depth > 16 then none else length.filter (· ≤ valueLimit)

mutual

/-- The largest encoded size of a type at a nesting depth, if it is legal there. -/
def size (depth : Nat) (allowRows : Bool) : Ty → Option Nat
  | .unit => legal depth (some 0)
  | .boolean => legal depth (some 1)
  | .i64 | .u64 => legal depth (some 8)
  | .bytes bound | .string bound => legal depth (some (4 + bound))
  | .tuple fields =>
      legal depth (if fields.length ≤ 256 then sizes (depth + 1) fields 0 else none)
  | .rows count key value =>
      legal depth (if allowRows ∧ count ≤ 65535 then
          (size (depth + 1) false key).bind fun key => (size (depth + 1) false value).bind fun value =>
            (checkedMul (key + value) count).bind fun rows => checkedAdd rows 4
        else none)

/-- Add the largest sizes of fields to a length. -/
def sizes (depth : Nat) : List Ty → Nat → Option Nat
  | [], length => some length
  | field :: fields, length =>
      (size depth false field).bind fun field => (checkedAdd length field).bind fun length =>
        sizes depth fields length

end

/-- Reject types that the machine cannot describe. -/
def validateType (ty : Ty) (allowRows : Bool) : Except CompileError Unit :=
  refuse ((size 1 allowRows ty).isNone ∨ ty.descriptor.length > 65536)
    (.message "type exceeds ISA 1 bounds, nesting, or tuple limits, or uses Rows in a schema/capture")

mutual

/-- The least type that holds the values of two types of one shape. -/
def union : Ty → Ty → Ty
  | .bytes left, .bytes right => .bytes (max left right)
  | .string left, .string right => .string (max left right)
  | .tuple left, .tuple right => .tuple (unions left right)
  | .rows left leftKey leftValue, .rows right rightKey rightValue =>
      .rows (max left right) (union leftKey rightKey) (union leftValue rightValue)
  | left, _ => left

/-- The field-wise union of the common fields. -/
def unions : List Ty → List Ty → List Ty
  | left :: lefts, right :: rights => union left right :: unions lefts rights
  | _, _ => []

end

/-! ## Templates -/

/-- An instruction with encoded operands.  One that names a table has the offset of
that operand and the index of the declaration; the declared name is kept for
reasoning and never encoded. -/
structure Instruction where
  opcode : Nat
  operands : Bytes
  table : Option (Nat × Nat)
  name : Option String
  deriving DecidableEq

/-- The encoding of operands of 16 bits. -/
def operandBytes (operands : List Nat) : Bytes := operands.flatMap (leBytes 2)

/-- A program template with the places that binding fills. -/
structure Encoded where
  bytes : Bytes
  tableOffset : Nat
  patches : List (Nat × Nat)
  deriving DecidableEq

/-- The next index of a pool. -/
def poolIndex (length : Nat) : Except CompileError Nat := do
  refuse (length ≥ 65535) (.message "program exceeds an ISA 1 pool or instruction limit")
  return length

/-- Append a length-prefixed byte string. -/
def blob (value out : Bytes) : Except CompileError Bytes := do
  refuse (value.length > valueLimit ∨ out.length + 4 + value.length > valueLimit)
    (.message "encoding exceeds 16 MiB")
  return out ++ leBytes 4 value.length ++ value

/-- Append type descriptors. -/
def blobTypes : List Ty → Bytes → Except CompileError Bytes
  | [], bytes => .ok bytes
  | ty :: types, bytes => do
      let bytes ← blob ty.descriptor bytes
      blobTypes types bytes

/-- Append constants: a descriptor and a value each. -/
def blobConstants : List (Ty × Bytes) → Bytes → Except CompileError Bytes
  | [], bytes => .ok bytes
  | (ty, value) :: constants, bytes => do
      let bytes ← blob ty.descriptor bytes
      let bytes ← blob value bytes
      blobConstants constants bytes

/-- The patch of an instruction whose operands start at a position. -/
def patchAt (start : Nat) (table : Option (Nat × Nat)) : List (Nat × Nat) :=
  (table.map fun (offset, index) => (start + offset, index)).toList

/-- Append instructions and collect the places of their table operands. -/
def encodeInstructions : List Instruction → Bytes → List (Nat × Nat) →
    Except CompileError (Bytes × List (Nat × Nat))
  | [], bytes, patches => .ok (bytes, patches)
  | instruction :: rest, bytes, patches => do
      refuse (bytes.length + 4 + instruction.operands.length > valueLimit)
        (.message "program exceeds 16 MiB")
      let bytes := bytes ++ leBytes 1 instruction.opcode ++ [0] ++ leBytes 2 instruction.operands.length
      encodeInstructions rest (bytes ++ instruction.operands)
        (patches ++ patchAt bytes.length instruction.table)

/-- The header with an empty length field. -/
def headerBytes (registers arguments tables constants instructions : Nat) : Bytes :=
  Vm.Program.magic ++ leBytes 2 1 ++ leBytes 2 0 ++ leBytes 4 0 ++ leBytes 2 registers ++
    leBytes 2 arguments ++ leBytes 2 tables ++ leBytes 2 constants ++ leBytes 4 instructions ++ leBytes 4 0

/-- Lay a compiled program out as a template. -/
def encode (result : Ty) (arguments registers : List Ty) (tableCount : Nat)
    (constants : List (Ty × Bytes)) (instructions : List Instruction) : Except CompileError Encoded := do
  refuse (arguments.length > 65535 ∨ registers.length > 65535 ∨ tableCount > 65535 ∨
      constants.length > 65535 ∨ instructions.length > 65535)
    (.message "program exceeds an ISA 1 pool or instruction limit")
  let bytes := headerBytes registers.length arguments.length tableCount constants.length instructions.length
  let bytes ← blob result.descriptor bytes
  let tableOffset := bytes.length
  let bytes ← blobTypes (arguments ++ registers) (bytes ++ zeros (8 * tableCount))
  let bytes ← blobConstants constants bytes
  let (bytes, patches) ← encodeInstructions instructions bytes []
  refuse (bytes.length > valueLimit) (.message "program exceeds 16 MiB")
  return ⟨overwrite bytes 12 (leBytes 4 bytes.length), tableOffset, patches⟩

/-- What is laid out as a template. -/
structure Compiled where
  result : Ty
  arguments : List Ty
  registers : List Ty
  tableCount : Nat
  constants : List (Ty × Bytes)
  instructions : List Instruction

/-- Lay a compiled program out. -/
def Compiled.template (compiled : Compiled) : Except CompileError Encoded :=
  encode compiled.result compiled.arguments compiled.registers compiled.tableCount compiled.constants
    compiled.instructions

end BlopDb.Macros
