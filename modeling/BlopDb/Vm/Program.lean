/-
# Programs: reading and verification

A program is read from bytes under the claims of its transaction and verified
before any instruction runs.  Verification is one forward pass over the
registers that are definitely initialized: branches go forward only, every
instruction is reachable, every source register is initialized on every path,
and control never falls off the end.
-/

import BlopDb.Vm.Operations
import BlopDb.Lib.ForwardFlow

namespace BlopDb.Vm

open BlopDb.Lib
open Storage (LimitPolicy)

/-- The largest program. -/
def maxProgramBytes : Nat := 16 * 1024 * 1024

/-- A decoded instruction. -/
inductive Instruction
  | const (dst constant : Nat)
  | arg (dst argument : Nat)
  | move (dst src : Nat)
  | binary (op : BinaryOp) (dst left right : Nat)
  | unary (op : UnaryOp) (dst src : Nat)
  | load (dst table key : Nat)
  | exists (dst table key : Nat)
  | insert (table key value : Nat)
  | store (table key value : Nat)
  | delete (table key : Nat)
  | scan (dst table : Nat) (lower upper : Option Nat) (flags rowLimit byteLimit : Nat)
  | slice (dst src start length : Nat)
  | tuple (dst : Nat) (fields : List Nat)
  | field (dst src field : Nat)
  | jump (target : Nat)
  | jumpIfFalse (condition target : Nat)
  | require (condition userCode : Nat)
  | abort (userCode : Nat)
  | return (src : Nat)
  deriving DecidableEq, Repr

namespace Instruction

/-- Where control goes after an instruction. -/
def exit : Instruction → Exit
  | .jump target => .jump target
  | .jumpIfFalse _ target => .branch target
  | .abort _ | .return _ => .stop
  | _ => .next

end Instruction

/-- A typed program with its pools and resolved tables. -/
structure Program where
  /-- The type of the returned value. -/
  resultType : Ty
  /-- The tables, in increasing identity. -/
  tables : List Table
  /-- The supplied argument values. -/
  arguments : List Value
  /-- The declared type of each register. -/
  registerTypes : List Ty
  /-- The constant pool. -/
  constants : List Value
  /-- The code. -/
  instructions : List Instruction

namespace Program

/-! ## Reading -/

/-- Split bytes off a program or argument list. -/
def take (input : Bytes) (length : Nat) : Except Error (Bytes × Bytes) :=
  takeBytes (.invalid "truncated program or arguments") input length

/-- Read a little-endian unsigned integer of the given width. -/
def readUint (width : Nat) (input : Bytes) : Except Error (Nat × Bytes) := do
  let (bytes, input) ← take input width
  return (leNat bytes, input)

/-- Read a length-prefixed byte string. -/
def readBlob (input : Bytes) : Except Error (Bytes × Bytes) := do
  let (length, input) ← readUint 4 input
  take input length

/-- The input was read to its end. -/
def finish (input : Bytes) : Except Error Unit :=
  refuse (input ≠ []) (.invalid "trailing program or argument bytes")

/-- The counts of a program header. -/
structure Header where
  registers : Nat
  arguments : Nat
  tables : Nat
  constants : Nat
  instructions : Nat

/-- The bytes `BLOPVM01`. -/
def magic : Bytes := [0x42, 0x4c, 0x4f, 0x50, 0x56, 0x4d, 0x30, 0x31]

/-- Read the fixed-size header. -/
def header (bytes : Bytes) : Except Error (Header × Bytes) := do
  refuse (bytes.length > maxProgramBytes) (.invalid "program_bytes exceeds hard ceiling")
  let (found, input) ← take bytes 8
  refuse (found ≠ magic) (.invalid "invalid program magic")
  let (version, input) ← readUint 2 input
  refuse (version ≠ 1) (.unsupported "ISA" version)
  let (flags, input) ← readUint 2 input
  refuse (flags ≠ 0) (.invalid "nonzero program flags")
  let (length, input) ← readUint 4 input
  refuse (length ≠ bytes.length) (.invalid "invalid total program length")
  let (registers, input) ← readUint 2 input
  let (arguments, input) ← readUint 2 input
  let (tables, input) ← readUint 2 input
  let (constants, input) ← readUint 2 input
  let (instructions, input) ← readUint 4 input
  refuse (¬ (1 ≤ instructions ∧ instructions ≤ 65535))
    (.invalid "instruction count must be from 1 through 65535")
  let (reserved, input) ← readUint 4 input
  refuse (reserved ≠ 0) (.invalid "nonzero program reserved field")
  return (⟨registers, arguments, tables, constants, instructions⟩, input)

/-- Read table identities, which increase strictly from the previous one. -/
def readTableIds : Nat → Option Nat → Bytes → Except Error (List Nat)
  | 0, _, _ => .ok []
  | count + 1, last, input => do
      let (id, input) ← readUint 8 input
      refuse (id = 0 ∨ id = Storage.maxU64 ∨ last.any (fun last => decide (last ≥ id)))
        (.invalid "table IDs must be valid and strictly increasing")
      let ids ← readTableIds count (some id) input
      return id :: ids

/-- Read the table array and return the input after it. -/
def readTables (input : Bytes) (count : Nat) : Except Error (List Nat × Bytes) := do
  let (array, input) ← take input (count * 8)
  let ids ← readTableIds count none array
  return (ids, input)

/-- The table identities of an encoded program. -/
def tableIds (programBytes : Bytes) : Except Error (List Nat) := do
  let (header, input) ← header programBytes
  let (descriptor, input) ← readBlob input
  let _ ← Ty.decode descriptor
  let (ids, _) ← readTables input header.tables
  return ids

/-- The type is Rows. -/
def isRows : Ty → Bool
  | .rows _ _ _ => true
  | _ => false

/-- Read type descriptors, checking each with a filter. -/
def readTypes (check : Ty → Except Error Unit) : Nat → Bytes → Except Error (List Ty × Bytes)
  | 0, input => .ok ([], input)
  | count + 1, input => do
      let (descriptor, input) ← readBlob input
      let ty ← Ty.decode descriptor
      check ty
      let (types, input) ← readTypes check count input
      return (ty :: types, input)

/-- Read the constant pool as types and values. -/
def readConstants (valueLimit : Nat) :
    Nat → Bytes → Except Error (List (Ty × Value) × Bytes)
  | 0, input => .ok ([], input)
  | count + 1, input => do
      let (descriptor, input) ← readBlob input
      let ty ← Ty.decode descriptor
      refuse (isRows ty) (.invalid "Rows cannot be a constant")
      let (bytes, input) ← readBlob input
      refuse (bytes.length > valueLimit) (.invalid "constant value_bytes exceeds claim")
      let value ← decodeValue ty bytes
      let (constants, input) ← readConstants valueLimit count input
      return ((ty, value) :: constants, input)

/-- Read the argument values of the declared types. -/
def readArguments (valueLimit : Nat) : List Ty → Bytes → Except Error (List Value × Bytes)
  | [], input => .ok ([], input)
  | ty :: types, input => do
      let (bytes, input) ← readBlob input
      refuse (bytes.length > valueLimit) (.invalid "argument value_bytes exceeds claim")
      let value ← decodeValue ty bytes
      let (values, input) ← readArguments valueLimit types input
      return (value :: values, input)

/-- The binary operation of an opcode. -/
def binaryOp : Nat → Option BinaryOp
  | 0x10 => some .add
  | 0x11 => some .sub
  | 0x12 => some .mul
  | 0x13 => some .div
  | 0x14 => some .rem
  | 0x20 => some .eq
  | 0x21 => some .lt
  | 0x22 => some .le
  | 0x23 => some .gt
  | 0x24 => some .ge
  | 0x28 => some .boolAnd
  | 0x29 => some .boolOr
  | 0x2a => some .boolXor
  | 0x30 => some .bitAnd
  | 0x31 => some .bitOr
  | 0x32 => some .bitXor
  | 0x34 => some .shl
  | 0x35 => some .shr
  | 0x4a => some .rowsKey
  | 0x4b => some .rowsValue
  | 0x51 => some .concat
  | _ => none

/-- The unary operation of an opcode. -/
def unaryOp : Nat → Option UnaryOp
  | 0x15 => some .neg
  | 0x16 => some .toI64
  | 0x17 => some .toU64
  | 0x2b => some .boolNot
  | 0x33 => some .bitNot
  | 0x49 => some .rowsLen
  | 0x50 => some .byteLen
  | 0x53 => some .utf8Bytes
  | 0x54 => some .parseUtf8
  | 0x55 => some .sha256
  | _ => none

/-- Read operands of 16 bits each. -/
def readOperands : Nat → Bytes → Except Error (List Nat × Bytes)
  | 0, input => .ok ([], input)
  | count + 1, input => do
      let (operand, input) ← readUint 2 input
      let (operands, input) ← readOperands count input
      return (operand :: operands, input)

/-- An endpoint register; the all-ones operand means an absent endpoint. -/
def endpoint (operand : Nat) : Option Nat := if operand ≠ 0xffff then some operand else none

/-- Read the operands of a range scan. -/
def readScan (operands : Bytes) : Except Error (Instruction × Bytes) := do
  let (dst, operands) ← readUint 2 operands
  let (table, operands) ← readUint 2 operands
  let (lower, operands) ← readUint 2 operands
  let (upper, operands) ← readUint 2 operands
  let (flags, operands) ← readUint 1 operands
  refuse (flags > 3) (.invalid "invalid scan flags or reserved field")
  let (reserved, operands) ← readUint 1 operands
  refuse (reserved ≠ 0) (.invalid "invalid scan flags or reserved field")
  refuse (((endpoint lower).isNone ∧ flags &&& 1 ≠ 0) ∨
      ((endpoint upper).isNone ∧ flags &&& 2 ≠ 0))
    (.invalid "absent scan endpoint cannot be inclusive")
  let (rowLimit, operands) ← readUint 4 operands
  let (byteLimit, operands) ← readUint 8 operands
  return (.scan dst table (endpoint lower) (endpoint upper) flags rowLimit byteLimit, operands)

/-- Read an instruction with two 16-bit operands. -/
def readTwo (make : Nat → Nat → Instruction) (operands : Bytes) :
    Except Error (Instruction × Bytes) := do
  let (first, operands) ← readUint 2 operands
  let (second, operands) ← readUint 2 operands
  return (make first second, operands)

/-- Read an instruction with three 16-bit operands. -/
def readThree (make : Nat → Nat → Nat → Instruction) (operands : Bytes) :
    Except Error (Instruction × Bytes) := do
  let (first, operands) ← readUint 2 operands
  let (second, operands) ← readUint 2 operands
  let (third, operands) ← readUint 2 operands
  return (make first second third, operands)

/-- Read the operands of an opcode. -/
def readInstruction (opcode : Nat) (operands : Bytes) : Except Error (Instruction × Bytes) :=
  match opcode with
  | 0x01 => readTwo .const operands
  | 0x02 => readTwo .arg operands
  | 0x03 => readTwo .move operands
  | 0x40 => readThree .load operands
  | 0x41 => readThree .exists operands
  | 0x42 => readThree .insert operands
  | 0x43 => readThree .store operands
  | 0x44 => readTwo .delete operands
  | 0x48 => readScan operands
  | 0x52 => do
      let (dst, operands) ← readUint 2 operands
      let (src, operands) ← readUint 2 operands
      let (start, operands) ← readUint 2 operands
      let (length, operands) ← readUint 2 operands
      return (.slice dst src start length, operands)
  | 0x58 => do
      let (dst, operands) ← readUint 2 operands
      let (count, operands) ← readUint 2 operands
      refuse (count > 256) (.invalid "TUPLE exceeds 256 fields")
      let (fields, operands) ← readOperands count operands
      return (.tuple dst fields, operands)
  | 0x59 => readThree .field operands
  | 0x60 => do
      let (target, operands) ← readUint 4 operands
      return (.jump target, operands)
  | 0x61 => do
      let (condition, operands) ← readUint 2 operands
      let (target, operands) ← readUint 4 operands
      return (.jumpIfFalse condition target, operands)
  | 0x62 => do
      let (condition, operands) ← readUint 2 operands
      let (userCode, operands) ← readUint 4 operands
      return (.require condition userCode, operands)
  | 0x63 => do
      let (userCode, operands) ← readUint 4 operands
      return (.abort userCode, operands)
  | 0x64 => do
      let (src, operands) ← readUint 2 operands
      return (.return src, operands)
  | _ =>
      match binaryOp opcode, unaryOp opcode with
      | some op, _ => readThree (.binary op) operands
      | none, some op => readTwo (.unary op) operands
      | none, none => .error (.invalid "unknown ISA 1 opcode")

/-- Read a count of framed instructions. -/
def readInstructions : Nat → Bytes → Except Error (List Instruction × Bytes)
  | 0, input => .ok ([], input)
  | count + 1, input => do
      let (opcode, input) ← readUint 1 input
      let (flags, input) ← readUint 1 input
      refuse (flags ≠ 0) (.invalid "nonzero instruction flags")
      let (length, input) ← readUint 2 input
      let (operands, input) ← take input length
      let (instruction, rest) ← readInstruction opcode operands
      refuse (rest ≠ []) (.invalid "incorrect instruction operand length")
      let (instructions, input) ← readInstructions count input
      return (instruction :: instructions, input)

/-! ## Verification -/

/-- The set of definitely initialized registers, read off its bitset words. -/
abbrev Initialized := Nat → Bool

/-- Require equal shapes. -/
def sameShape (a b : Ty) : Except Error Unit :=
  refuse (a.sameShape b = false) (.invalid "instruction type shape mismatch")

/-- Require an integer type. -/
def integer : Ty → Except Error Unit
  | .i64 | .u64 => .ok ()
  | _ => .error (.invalid "instruction requires an integer")

/-- The element of a pool, or a range error. -/
def at? {α : Type} (pool : List α) (index : Nat) (reason : String) : Except Error α :=
  match pool[index]? with
  | some element => .ok element
  | none => .error (.invalid reason)

/-- The declared type of a register. -/
def register (program : Program) (index : Nat) : Except Error Ty :=
  at? program.registerTypes index "register index out of bounds"

/-- The declared type of a register that is initialized on every path. -/
def source (program : Program) (initialized : Initialized) (index : Nat) : Except Error Ty := do
  let ty ← program.register index
  refuse (initialized index = false) (.invalid "source register is not definitely initialized")
  return ty

/-- A table of the program. -/
def table (program : Program) (index : Nat) : Except Error Table :=
  at? program.tables index "table index out of bounds"

/-- Check the operand types of a binary operation. -/
def verifyBinary (op : BinaryOp) (destination left right : Ty) : Except Error Unit :=
  match op with
  | .add | .sub | .mul | .div | .rem | .bitAnd | .bitOr | .bitXor => do
      integer destination
      sameShape destination left
      sameShape destination right
  | .eq | .lt | .le | .gt | .ge => do
      sameShape destination .boolean
      sameShape left right
      refuse (isRows left) (.invalid "Rows cannot be compared")
  | .boolAnd | .boolOr | .boolXor => do
      sameShape destination .boolean
      sameShape left .boolean
      sameShape right .boolean
  | .shl | .shr => do
      integer destination
      sameShape destination left
      sameShape right .u64
  | .rowsKey =>
      match left with
      | .rows _ key _ => do
          sameShape right .u64
          sameShape destination key
      | _ => .error (.invalid "Rows instruction requires a Rows source")
  | .rowsValue =>
      match left with
      | .rows _ _ value => do
          sameShape right .u64
          sameShape destination value
      | _ => .error (.invalid "Rows instruction requires a Rows source")
  | .concat =>
      match destination with
      | .bytes _ | .string _ => do
          sameShape destination left
          sameShape destination right
      | _ => .error (.invalid "CONCAT requires Bytes or String")

/-- Check the operand types of a unary operation. -/
def verifyUnary (op : UnaryOp) (destination source : Ty) : Except Error Unit :=
  match op with
  | .neg => do
      sameShape destination .i64
      sameShape source .i64
  | .toI64 => do
      sameShape destination .i64
      sameShape source .u64
  | .toU64 => do
      sameShape destination .u64
      sameShape source .i64
  | .boolNot => do
      sameShape destination .boolean
      sameShape source .boolean
  | .bitNot => do
      integer destination
      sameShape destination source
  | .rowsLen => do
      sameShape destination .u64
      refuse (isRows source = false) (.invalid "Rows instruction requires a Rows source")
  | .byteLen => do
      sameShape destination .u64
      match source with
      | .bytes _ | .string _ => .ok ()
      | _ => .error (.invalid "BYTE_LEN requires Bytes or String")
  | .utf8Bytes => do
      sameShape destination (.bytes 0)
      sameShape source (.string 0)
  | .parseUtf8 => do
      sameShape destination (.string 0)
      sameShape source (.bytes 0)
  | .sha256 => do
      sameShape destination (.bytes 0)
      sameShape source (.bytes 0)

/-- Check the fields of a tuple against the destination's field types. -/
def verifyFields (program : Program) (initialized : Initialized) :
    List Ty → List Nat → Except Error Unit
  | ty :: types, field :: fields => do
      let source ← program.source initialized field
      sameShape ty source
      verifyFields program initialized types fields
  | _, _ => .ok ()

/-- Check an endpoint register of a scan. -/
def verifyEndpoint (program : Program) (initialized : Initialized) (key : Ty) :
    Option Nat → Except Error Unit
  | none => .ok ()
  | some index => do
      let source ← program.source initialized index
      sameShape source key

/-- Check one instruction and return the register it initializes. -/
def verifyInstruction (program : Program) (argumentTypes constantTypes : List Ty)
    (claims : LimitPolicy) (initialized : Initialized) :
    Instruction → Except Error (Option Nat)
  | .const dst constant => do
      let ty ← at? constantTypes constant "constant index out of bounds"
      sameShape (← program.register dst) ty
      return some dst
  | .arg dst argument => do
      let ty ← at? argumentTypes argument "argument index out of bounds"
      sameShape (← program.register dst) ty
      return some dst
  | .move dst src => do
      sameShape (← program.register dst) (← program.source initialized src)
      return some dst
  | .binary op dst left right => do
      let destination ← program.register dst
      let left ← program.source initialized left
      let right ← program.source initialized right
      verifyBinary op destination left right
      return some dst
  | .unary op dst src => do
      let destination ← program.register dst
      let source ← program.source initialized src
      verifyUnary op destination source
      return some dst
  | .load dst index key => do
      let table ← program.table index
      sameShape (← program.source initialized key) table.key
      sameShape (← program.register dst) table.value
      return some dst
  | .exists dst index key => do
      let source ← program.source initialized key
      let table ← program.table index
      sameShape source table.key
      sameShape (← program.register dst) .boolean
      return some dst
  | .insert index key value | .store index key value => do
      let table ← program.table index
      sameShape table.key (← program.source initialized key)
      sameShape table.value (← program.source initialized value)
      return none
  | .delete index key => do
      let table ← program.table index
      sameShape table.key (← program.source initialized key)
      return none
  | .scan dst index lower upper _ rowLimit byteLimit => do
      refuse (rowLimit > claims.value 12) (.invalid "scan range_rows exceeds claim")
      refuse (byteLimit > claims.value 13) (.invalid "scan range_bytes exceeds claim")
      let table ← program.table index
      match ← program.register dst with
      | .rows _ key value => do
          sameShape key table.key
          sameShape value table.value
          program.verifyEndpoint initialized table.key lower
          program.verifyEndpoint initialized table.key upper
          return some dst
      | _ => throw (.invalid "scan destination must be Rows")
  | .slice dst src start length => do
      sameShape (← program.register dst) (.bytes 0)
      sameShape (← program.source initialized src) (.bytes 0)
      sameShape (← program.source initialized start) .u64
      sameShape (← program.source initialized length) .u64
      return some dst
  | .tuple dst fields => do
      match ← program.register dst with
      | .tuple types => do
          refuse (types.length ≠ fields.length)
            (.invalid "TUPLE arity does not match destination")
          program.verifyFields initialized types fields
          return some dst
      | _ => throw (.invalid "TUPLE destination must be a tuple")
  | .field dst src field => do
      match ← program.source initialized src with
      | .tuple fields => do
          let ty ← at? fields field "FIELD index out of bounds"
          sameShape (← program.register dst) ty
          return some dst
      | _ => throw (.invalid "FIELD source must be a tuple")
  | .jump _ | .abort _ => return none
  | .jumpIfFalse condition _ | .require condition _ => do
      sameShape .boolean (← program.source initialized condition)
      return none
  | .return src => do
      sameShape program.resultType (← program.source initialized src)
      return none

/-- A branch goes forward and stays inside the program. -/
def verifyTarget (program : Program) (index : Nat) : Instruction → Except Error Unit
  | .jump target | .jumpIfFalse _ target =>
      refuse (target ≤ index ∨ target ≥ program.instructions.length)
        (.invalid "branch target must be forward and within the program")
  | _ => .ok ()

/-- Registers initialized on both of two paths. -/
def intersect (left right : Initialized) : Initialized := fun index => left index && right index

/-- Mark a register as initialized. -/
def markInitialized (initialized : Initialized) : Option Nat → Initialized
  | some destination => Function.update initialized destination true
  | none => initialized

/-- Verify one instruction on entry with these initialized registers. -/
def verifyVisit (program : Program) (argumentTypes constantTypes : List Ty) (claims : LimitPolicy)
    (index : Nat) (instruction : Instruction) (initialized : Initialized) (_ : Unit) :
    Except Error (Initialized × Unit) := do
  let destination ←
    program.verifyInstruction argumentTypes constantTypes claims initialized instruction
  program.verifyTarget index instruction
  return (markInitialized initialized destination, ())

/-- Verify types, initialization and control flow of a whole program. -/
def verify (program : Program) (argumentTypes constantTypes : List Ty) (claims : LimitPolicy) :
    Except Error Unit := do
  let final ← flow intersect Instruction.exit (.invalid "unreachable instruction")
    (program.verifyVisit argumentTypes constantTypes claims) 0 program.instructions
    ⟨some fun _ => false, fun _ => none, ()⟩
  refuse final.fallthrough.isSome (.invalid "control flow falls off the instruction array")

/-- Decode and verify a program with its arguments under its claims. -/
def decode (programBytes argumentBytes : Bytes) (tables : List Table) (claims : LimitPolicy) :
    Except Error Program := do
  let (header, input) ← header programBytes
  refuse (programBytes.length > claims.value 0) (.invalid "program_bytes exceeds claim")
  refuse (header.instructions > claims.value 1) (.invalid "instructions exceeds claim")
  refuse (header.registers > claims.value 2) (.invalid "registers exceeds claim")
  refuse (header.arguments > claims.value 3) (.invalid "arguments exceeds claim")
  refuse (argumentBytes.length > claims.value 4) (.invalid "argument_bytes exceeds claim")
  refuse (header.tables > claims.value 5) (.invalid "tables exceeds claim")
  let (descriptor, input) ← readBlob input
  let resultType ← Ty.decode descriptor
  let (ids, input) ← readTables input header.tables
  refuse (ids ≠ tables.map (·.id)) (.invalid "resolved tables do not match program table IDs")
  let (argumentTypes, input) ←
    readTypes (fun ty => refuse (isRows ty) (.invalid "Rows cannot be an argument"))
      header.arguments input
  let (registerTypes, input) ← readTypes (fun _ => .ok ()) header.registers input
  let (constants, input) ← readConstants (claims.value 10) header.constants input
  let (instructions, input) ← readInstructions header.instructions input
  finish input
  let (count, input) ← readUint 4 argumentBytes
  refuse (count ≠ header.arguments) (.invalid "supplied argument count does not match program")
  let (arguments, input) ← readArguments (claims.value 10) argumentTypes input
  finish input
  let program : Program :=
    { resultType, tables, arguments, registerTypes, constants := constants.map (·.2), instructions }
  program.verify argumentTypes (constants.map (·.1)) claims
  return program

end Program

end BlopDb.Vm
