/-
# Compiling expressions

Every expression is compiled into a fresh register.  A table is referred to by the
index of its declaration until the template is bound, and a jump is patched when its
target is reached.
-/

import BlopDb.Macros.Syntax

namespace BlopDb.Macros

open BlopDb.Lib
open Vm (Ty)

/-- A local variable. -/
structure Local where
  register : Nat
  mutable : Bool

/-- A declared table under its name. -/
structure TableInfo where
  index : Nat
  key : Ty
  value : Ty
  name : String

/-- The state of a compilation. -/
structure Compiler where
  registers : List Ty
  constants : List (Ty × Bytes)
  instructions : List Instruction
  locals : String → Option Local
  captures : String → Option Nat
  tables : String → Option TableInfo
  result : Option Ty
  declaredResult : Bool

/-- A step of the compiler. -/
abbrev CompileM := StateT Compiler (Except CompileError)

/-- Fail with an error. -/
def fail {α : Type} (error : CompileError) : CompileM α := fun _ => .error error

/-- Fail with an error when a condition holds. -/
def reject (bad : Prop) [Decidable bad] (error : CompileError) : CompileM Unit :=
  fun compiler => if bad then .error error else .ok ((), compiler)

/-- A check that does not look at the compiler. -/
def lift {α : Type} (result : Except CompileError α) : CompileM α :=
  fun compiler => result.map fun value => (value, compiler)

/-- A value present, or an error. -/
def orFail {α : Type} (value : Option α) (error : CompileError) : CompileM α :=
  match value with
  | some value => pure value
  | none => fail error

/-! ## Instructions -/

/-- Allocate a register. -/
def register (ty : Ty) : CompileM Nat := fun compiler => do
  validateType ty true
  let register ← poolIndex compiler.registers.length
  return (register, { compiler with registers := compiler.registers ++ [ty] })

/-- The type of a register. -/
def tyOf (register : Nat) : CompileM Ty := fun compiler =>
  match compiler.registers[register]? with
  | some ty => .ok (ty, compiler)
  | none => .error .panic

/-- Append an instruction. -/
def push (instruction : Instruction) : CompileM Nat := fun compiler => do
  let index ← poolIndex compiler.instructions.length
  return (index, { compiler with instructions := compiler.instructions ++ [instruction] })

/-- Append an instruction without a table operand. -/
def emit (opcode : Nat) (operands : List Nat) : CompileM Nat :=
  push ⟨opcode, operandBytes operands, none, none⟩

/-- Append bytes to the operands of an instruction. -/
def extendOperands (index : Nat) (bytes : Bytes) : CompileM Unit := fun compiler =>
  match compiler.instructions[index]? with
  | none => .error .panic
  | some instruction =>
      .ok ((), { compiler with
        instructions := compiler.instructions.set index
          { instruction with operands := instruction.operands ++ bytes } })

/-- Append a jump whose target is not known yet. -/
def jump (condition : Option Nat) : CompileM Nat := do
  let index ← match condition with
    | some condition => emit 0x61 [condition]
    | none => emit 0x60 []
  extendOperands index (leBytes 4 0)
  return index

/-- Let a jump continue at the next instruction. -/
def patchJump (index : Nat) : CompileM Unit := fun compiler =>
  match compiler.instructions[index]? with
  | none => .error .panic
  | some instruction =>
      if instruction.operands.length < 4 then .error .panic
      else
        .ok ((), { compiler with
          instructions := compiler.instructions.set index
            { instruction with
              operands := overwrite instruction.operands (instruction.operands.length - 4)
                (leBytes 4 compiler.instructions.length) } })

/-- Append an instruction whose operand at an offset names a table. -/
def emitTable (opcode : Nat) (operands : List Nat) (offset : Nat) (table : TableInfo) : CompileM Nat :=
  push ⟨opcode, operandBytes operands, some (offset, table.index), some table.name⟩

/-- Load a constant into a fresh register. -/
def constant (ty : Ty) (bytes : Bytes) : CompileM Nat := do
  let compiler ← get
  let index ← lift (poolIndex compiler.constants.length)
  let register ← register ty
  modify fun compiler => { compiler with constants := compiler.constants ++ [(ty, bytes)] }
  let _ ← emit 0x01 [register, index]
  return register

/-! ## Names and literals -/

/-- The name of a plain identifier. -/
def pathName : Expr → Except CompileError String
  | .path (some name) => .ok name
  | _ => .error (.message "expected a VM name, not a Rust path or call")

/-- The table an expression names. -/
def tableInfo (expression : Expr) : CompileM TableInfo := do
  let name ← lift (pathName expression)
  let compiler ← get
  orFail (compiler.tables name) (.message "unknown table; declare it in tables { ... }")

/-- The expression is the keyword of an absent endpoint. -/
def Expr.isUnbounded : Expr → Bool
  | .path (some name) => name = "unbounded"
  | _ => false

/-- An unsigned literal of any width, up to a maximum. -/
def immediate (expression : Expr) (maximum : Nat) : Except CompileError Nat :=
  match expression with
  | .lit (.integer value suffix) =>
      if value ≥ 2 ^ 64 then .error .unparsable
      else if value ≤ maximum ∧ suffix ∈ ["", "u16", "u32", "u64"] then .ok value
      else .error (.literalAbove maximum)
  | _ => .error (.literalAbove maximum)

/-- Require equal shapes. -/
def requireShape (actual expected : Ty) : Except CompileError Unit :=
  refuse (actual.sameShape expected = false) (.typeMismatch expected actual)

/-- The type is an integer. -/
def isInteger : Ty → Bool
  | .i64 | .u64 => true
  | _ => false

/-- The constant of a literal. -/
def literalConstant (literal : Literal) (expected : Option Ty) : Except CompileError (Ty × Bytes) :=
  match literal with
  | .boolean value => .ok (.boolean, [if value then 1 else 0])
  | .integer value suffix => do
      let unsigned ←
        if suffix = "u64" then .ok true
        else if suffix = "i64" then .ok false
        else if suffix = "" then .ok (decide (expected = some .u64))
        else .error (.message "VM integer literals support only i64 and u64 suffixes")
      if unsigned then do
        refuse (value ≥ 2 ^ 64) .unparsable
        return (.u64, leBytes 8 value)
      else do
        refuse (value ≥ 2 ^ 63) .unparsable
        return (.i64, leBytes 8 value)
  | .text value => do
      let bytes ← blob (textBytes value) []
      return (.string (textBytes value).length, bytes)
  | .byteText value => do
      let bytes ← blob value []
      return (.bytes value.length, bytes)
  | .unsupported => .error (.message "unsupported VM literal")

/-- The type an expression has before it is compiled, where it is evident. -/
def typeHint (compiler : Compiler) : Expr → Option Ty
  | .paren inner => typeHint compiler inner
  | .group inner => typeHint compiler inner
  | .path (some name) => (compiler.locals name).bind fun found => compiler.registers[found.register]?
  | .index (.path (some name)) _ => (compiler.tables name).map (·.value)
  | .lit (.integer _ suffix) =>
      if suffix = "u64" then some .u64 else if suffix = "i64" then some .i64 else none
  | .lit (.boolean _) => some .boolean
  | .binary op left right =>
      match op with
      | .eq | .ne | .lt | .le | .gt | .ge | .and | .or => some .boolean
      | .shl | .shr => typeHint compiler left
      | _ => (typeHint compiler left).or (typeHint compiler right)
  | .call (.path (some "__capture")) [.path (some name)] =>
      (compiler.captures name).bind fun register => compiler.registers[register]?
  | _ => none

/-! ## Expressions -/

/-- An operand expression with the action that compiles it; an index expression also
has its base and the action that compiles its key. -/
structure Argument where
  expr : Expr
  compile : Option Ty → CompileM Nat
  key : Option (Expr × (Option Ty → CompileM Nat))

/-- The table and the key register of `table[key]`. -/
def address (argument : Argument) : CompileM (TableInfo × Nat) :=
  match argument.key with
  | none => fail (.message "expected table[key]")
  | some (base, key) => do
      let table ← tableInfo base
      let key ← key (some table.key)
      return (table, key)

/-- The opcode of a binary operator. -/
def binaryOp : BinaryOperator → Option Nat
  | .add => some 0x10
  | .sub => some 0x11
  | .mul => some 0x12
  | .div => some 0x13
  | .rem => some 0x14
  | .eq | .ne => some 0x20
  | .lt => some 0x21
  | .le => some 0x22
  | .gt => some 0x23
  | .ge => some 0x24
  | .bitAnd => some 0x30
  | .bitOr => some 0x31
  | .bitXor => some 0x32
  | .shl => some 0x34
  | .shr => some 0x35
  | _ => none

/-- The opcode of an assignment operator. -/
def assignmentOp : BinaryOperator → Option Nat
  | .addAssign => some 0x10
  | .subAssign => some 0x11
  | .mulAssign => some 0x12
  | .divAssign => some 0x13
  | .remAssign => some 0x14
  | .bitAndAssign => some 0x30
  | .bitOrAssign => some 0x31
  | .bitXorAssign => some 0x32
  | .shlAssign => some 0x34
  | .shrAssign => some 0x35
  | _ => none

/-- Bitwise operators on booleans are the boolean operators. -/
def booleanOpcode (opcode : Nat) (left : Ty) : Nat :=
  if 0x30 ≤ opcode ∧ opcode ≤ 0x32 ∧ left = .boolean then opcode - 8 else opcode

/-- Operand types that a binary opcode takes. -/
def validOperands (opcode : Nat) (left right : Ty) : Bool :=
  if (0x10 ≤ opcode ∧ opcode ≤ 0x14) ∨ (0x30 ≤ opcode ∧ opcode ≤ 0x32) then isInteger left && left = right
  else if 0x20 ≤ opcode ∧ opcode ≤ 0x24 then !Vm.Program.isRows left && left.sameShape right
  else if 0x28 ≤ opcode ∧ opcode ≤ 0x2a then left = .boolean && right = .boolean
  else if opcode = 0x34 ∨ opcode = 0x35 then isInteger left && right = .u64
  else false

/-- Combine two registers. -/
def binaryInstruction (opcode left right : Nat) : CompileM Nat := do
  let a ← tyOf left
  let b ← tyOf right
  let opcode := booleanOpcode opcode a
  reject (validOperands opcode a b = false) (.invalidOperands a b)
  let result ← register (if 0x20 ≤ opcode ∧ opcode ≤ 0x2a then .boolean else a)
  let _ ← emit opcode [result, left, right]
  return result

/-- The opcode is a shift. -/
def isShift (opcode : Nat) : Bool := opcode = 0x34 || opcode = 0x35

/-- Compile the operands of a binary opcode. -/
def binaryOperands (opcode : Nat) (left right : Argument) (expected : Option Ty) : CompileM (Nat × Nat) := do
  let compiler ← get
  let hint :=
    if 0x20 ≤ opcode ∧ opcode ≤ 0x24 then typeHint compiler right.expr
    else if isShift opcode then expected
    else expected.or (typeHint compiler right.expr)
  let left ← left.compile hint
  let leftType ← tyOf left
  let right ← right.compile (some (if isShift opcode then .u64 else leftType))
  return (left, right)

/-- The types of registers. -/
def typesOf : List Nat → CompileM (List Ty)
  | [] => return []
  | register :: registers => do
      let ty ← tyOf register
      let types ← typesOf registers
      return ty :: types

/-- Collect registers in a tuple. -/
def tupleInstruction (fields : List Nat) : CompileM Nat := do
  let types ← typesOf fields
  let result ← register (.tuple types)
  let _ ← emit 0x58 ([result, fields.length] ++ fields)
  return result

/-- Take a field of a tuple. -/
def fieldInstruction (source index : Nat) : CompileM Nat := do
  let ty ← tyOf source
  match ty with
  | .tuple fields => do
      let ty ← orFail fields[index]? (.message "tuple field index out of bounds")
      let result ← register ty
      let _ ← emit 0x59 [result, source, index]
      return result
  | _ => fail (.message "field requires a tuple")

/-- Compile tuple fields with the hints of an expected tuple. -/
def compileFields : List Argument → Option (List Ty) → CompileM (List Nat)
  | [], _ => return []
  | field :: fields, hints => do
      let register ← field.compile (hints.bind List.head?)
      let registers ← compileFields fields (hints.map List.tail)
      return register :: registers

/-- The field hints of an expected type. -/
def fieldHints : Option Ty → Option (List Ty)
  | some (.tuple fields) => some fields
  | _ => none

/-- Short-circuit conjunction or disjunction. -/
def shortCircuit (left right : Argument) (and : Bool) : CompileM Nat := do
  let left ← left.compile (some .boolean)
  let result ← register .boolean
  let _ ← emit 0x03 [result, left]
  let branch ← jump (some left)
  if and then do
    let right ← right.compile (some .boolean)
    let _ ← emit 0x03 [result, right]
    patchJump branch
    return result
  else do
    let stop ← jump none
    patchJump branch
    let right ← right.compile (some .boolean)
    let _ ← emit 0x03 [result, right]
    patchJump stop
    return result

/-- A read of `table[key]`. -/
def readTable (opcode : Nat) (argument : Argument) (ty : TableInfo → Ty) : CompileM Nat := do
  let (table, key) ← address argument
  let result ← register (ty table)
  let _ ← emitTable opcode [result, table.index, key] 2 table
  return result

/-- The opcode of a unary operator on a type. -/
def unaryOpcode : UnaryOperator → Ty → Option Nat
  | .neg, .i64 => some 0x15
  | .not, .boolean => some 0x2b
  | .not, .i64 | .not, .u64 => some 0x33
  | _, _ => none

/-- Apply a unary operator. -/
def compileUnary (op : UnaryOperator) (operand : Argument) (expected : Option Ty) : CompileM Nat := do
  let source ← operand.compile expected
  let ty ← tyOf source
  let opcode ← orFail (unaryOpcode op ty) (.message "unsupported unary operation or operand type")
  let result ← register ty
  let _ ← emit opcode [result, source]
  return result

/-- A negative integer literal. -/
def negativeLiteral (magnitude : Nat) (suffix : String) : CompileM Nat := do
  reject (suffix ∉ ["", "i64"]) (.message "negative literals must be i64")
  reject (magnitude ≥ 2 ^ 64) .unparsable
  reject (magnitude > 2 ^ 63) (.message "integer literal is outside i64")
  constant .i64 (leBytes 8 ((2 ^ 64 - magnitude) % 2 ^ 64))

/-- Apply a binary operator; inequality is the negation of equality. -/
def compileBinary (op : BinaryOperator) (left right : Argument) (expected : Option Ty) : CompileM Nat :=
  match op with
  | .and => shortCircuit left right true
  | .or => shortCircuit left right false
  | op => do
      let opcode ← orFail (binaryOp op) (.message "unsupported VM operator")
      let (left, right) ← binaryOperands opcode left right expected
      let result ← binaryInstruction opcode left right
      if op = .ne then do
        let inverted ← register .boolean
        let _ ← emit 0x2b [inverted, result]
        return inverted
      else return result

/-- Compare the type of a compiled expression with the expected one. -/
def withShape (expected : Option Ty) (action : CompileM Nat) : CompileM Nat := do
  let register ← action
  match expected with
  | none => return register
  | some expected => do
      let actual ← tyOf register
      lift (requireShape actual expected)
      return register

/-! ## Operations -/

/-- How many operands a named operation takes. -/
def arity (name : String) : Option Nat :=
  if name ∈ ["copy", "load", "exists", "neg_checked", "to_i64_checked", "to_u64_checked", "bool_not",
      "bit_not", "rows_len", "byte_len", "utf8_bytes", "parse_utf8", "sha256"] then some 1
  else if name ∈ ["add_checked", "sub_checked", "mul_checked", "div_checked", "rem_checked", "eq", "lt",
      "le", "gt", "ge", "bool_and", "bool_or", "bool_xor", "bit_and", "bit_or", "bit_xor", "shl_wrap",
      "shr", "rows_key", "rows_value", "concat", "field"] then some 2
  else if name = "slice_bytes" then some 3
  else if name = "scan_bounded" then some 6
  else none

/-- The opcode of a named binary operation. -/
def namedOpcode (name : String) : Option Nat :=
  [("add_checked", 0x10), ("sub_checked", 0x11), ("mul_checked", 0x12), ("div_checked", 0x13),
    ("rem_checked", 0x14), ("eq", 0x20), ("lt", 0x21), ("le", 0x22), ("gt", 0x23), ("ge", 0x24),
    ("bool_and", 0x28), ("bool_or", 0x29), ("bool_xor", 0x2a), ("bit_and", 0x30), ("bit_or", 0x31),
    ("bit_xor", 0x32), ("shl_wrap", 0x34), ("shr", 0x35)].lookup name

/-- The hint for the first operand of an operation. -/
def operandHint (name : String) (expected : Option Ty) : Option Ty :=
  if name ∈ ["copy", "concat", "bit_not"] then expected
  else if name ∈ ["neg_checked", "to_u64_checked"] then some .i64
  else if name = "to_i64_checked" then some .u64
  else if name = "bool_not" then some .boolean
  else none

/-- The opcode and the result type of an operation on one register. -/
def singleOperand (name : String) (source : Ty) : Option (Nat × Ty) :=
  if name = "copy" then some (0x03, source)
  else
    match source with
    | .i64 =>
        if name = "neg_checked" then some (0x15, .i64)
        else if name = "to_u64_checked" then some (0x17, .u64)
        else if name = "bit_not" then some (0x33, .i64)
        else none
    | .u64 =>
        if name = "to_i64_checked" then some (0x16, .i64)
        else if name = "bit_not" then some (0x33, .u64)
        else none
    | .boolean => if name = "bool_not" then some (0x2b, .boolean) else none
    | .rows _ _ _ => if name = "rows_len" then some (0x49, .u64) else none
    | .bytes bound =>
        if name = "byte_len" then some (0x50, .u64)
        else if name = "parse_utf8" then some (0x54, .string bound)
        else if name = "sha256" then some (0x55, .bytes 32)
        else none
    | .string bound =>
        if name = "byte_len" then some (0x50, .u64)
        else if name = "utf8_bytes" then some (0x53, .bytes bound)
        else none
    | _ => none

/-- Put the result of an opcode in a fresh register. -/
def emitResult (opcode : Nat) (ty : Ty) (operands : List Nat) : CompileM Nat := do
  let result ← register ty
  let _ ← emit opcode (result :: operands)
  return result

/-- The bound of a concatenation, capped so that its descriptor stays legal. -/
def concatBound (left right : Nat) : Nat := min (left + right) (valueLimit - 4)

/-- An operation on the register of its first operand. -/
def compileOperation (name : String) (source : Nat) (rest : List Argument) : CompileM Nat := do
  let sourceType ← tyOf source
  match name, rest with
  | "field", [index] => do
      let index ← lift (immediate index.expr 255)
      fieldInstruction source index
  | name, rest =>
      match singleOperand name sourceType, sourceType, rest with
      | some (opcode, ty), _, _ => emitResult opcode ty [source]
      | none, .rows _ key value, [index] =>
          if name = "rows_key" then do
            let index ← index.compile (some .u64)
            emitResult 0x4a key [source, index]
          else if name = "rows_value" then do
            let index ← index.compile (some .u64)
            emitResult 0x4b value [source, index]
          else fail (.invalidOperand name sourceType)
      | none, .bytes bound, [right] =>
          if name = "concat" then do
            let right ← right.compile (some (.bytes bound))
            match ← tyOf right with
            | .bytes other | .string other =>
                emitResult 0x51 (.bytes (concatBound bound other)) [source, right]
            | _ => fail .panic
          else fail (.invalidOperand name sourceType)
      | none, .string bound, [right] =>
          if name = "concat" then do
            let right ← right.compile (some (.string bound))
            match ← tyOf right with
            | .bytes other | .string other =>
                emitResult 0x51 (.string (concatBound bound other)) [source, right]
            | _ => fail .panic
          else fail (.invalidOperand name sourceType)
      | none, .bytes bound, [start, length] =>
          if name = "slice_bytes" then do
            let start ← start.compile (some .u64)
            let length ← length.compile (some .u64)
            emitResult 0x52 (.bytes bound) [source, start, length]
          else fail (.invalidOperand name sourceType)
      | none, _, _ => fail (.invalidOperand name sourceType)

/-- One endpoint of a scan; the all-ones operand stands for an absent one. -/
def endpointOperand (argument : Argument) (inclusive : Bool) (key : Ty) : CompileM Nat :=
  if argument.expr.isUnbounded then do
    reject (inclusive = true) (.message "unbounded endpoints cannot be inclusive")
    return 0xffff
  else argument.compile (some key)

/-- A bounded range scan. -/
def scan (table lower upper flags rowLimit byteLimit : Argument) : CompileM Nat := do
  let table ← tableInfo table.expr
  let flags ← lift (immediate flags.expr 3)
  let rowLimit ← lift (immediate rowLimit.expr 65535)
  let byteLimit ← lift (immediate byteLimit.expr (64 * 1024 * 1024))
  let lower ← endpointOperand lower (flags &&& 1 ≠ 0) table.key
  let upper ← endpointOperand upper (flags &&& 2 ≠ 0) table.key
  let result ← register (.rows rowLimit table.key table.value)
  let index ← emitTable 0x48 [result, table.index, lower, upper] 2 table
  extendOperands index (leBytes 1 flags ++ [0] ++ leBytes 4 rowLimit ++ leBytes 8 byteLimit)
  return result

/-- A call of a named operation. -/
def compileCall (callee : Expr) (args : List Argument) (expected : Option Ty) : CompileM Nat := do
  let name ← lift (pathName callee)
  match name, args with
  | "__capture", [argument] => do
      let captured ← lift (pathName argument.expr)
      let compiler ← get
      orFail (compiler.captures captured) (.message "unknown capture")
  | "tuple", args => do
      let fields ← compileFields args (fieldHints expected)
      tupleInstruction fields
  | name, args => do
      let operands ← orFail (arity name)
        (.message "unknown VM operation; Rust function calls are not allowed")
      reject (args.length ≠ operands) (.arity name operands)
      match name, args with
      | "scan_bounded", [table, lower, upper, flags, rowLimit, byteLimit] =>
          scan table lower upper flags rowLimit byteLimit
      | "load", [argument] => readTable 0x40 argument (·.value)
      | "exists", [argument] => readTable 0x41 argument fun _ => .boolean
      | name, first :: rest =>
          match namedOpcode name, rest with
          | some opcode, [second] => do
              let (left, right) ← binaryOperands opcode first second expected
              let leftType ← tyOf left
              reject (0x30 ≤ opcode ∧ opcode ≤ 0x32 ∧ isInteger leftType = false)
                (.message "bitwise intrinsics require integers; use bool_and/or/xor for booleans")
              binaryInstruction opcode left right
          | _, rest => do
              let source ← first.compile (operandHint name expected)
              compileOperation name source rest
      | _, _ => fail .panic

mutual

/-- Compile an expression into a register. -/
def compileExpr : Expr → Option Ty → CompileM Nat
  | .paren inner, expected => withShape expected (compileExpr inner expected)
  | .group inner, expected => withShape expected (compileExpr inner expected)
  | .path name, expected => withShape expected do
      let name ← lift (pathName (.path name))
      let compiler ← get
      let found ← orFail (compiler.locals name)
        (.message "unknown VM local; external values must be declared in captures { ... }")
      return found.register
  | .lit literal, expected => withShape expected do
      let (ty, bytes) ← lift (literalConstant literal expected)
      constant ty bytes
  | .unary .neg (.lit (.integer magnitude suffix)), expected =>
      withShape expected (negativeLiteral magnitude suffix)
  | .unary op operand, expected => withShape expected
      (compileUnary op ⟨operand, fun hint => compileExpr operand hint, none⟩ expected)
  | .binary op left right, expected => withShape expected
      (compileBinary op ⟨left, fun hint => compileExpr left hint, none⟩
        ⟨right, fun hint => compileExpr right hint, none⟩ expected)
  | .index base key, expected => withShape expected
      (readTable 0x40 ⟨.index base key, fun _ => fail .panic, some (base, fun hint => compileExpr key hint)⟩
        (·.value))
  | .tuple [], expected => withShape expected (constant .unit [])
  | .tuple (field :: fields), expected => withShape expected do
      let registers ← compileFields (arguments (field :: fields)) (fieldHints expected)
      tupleInstruction registers
  | .field base member, expected => withShape expected do
      let source ← compileExpr base none
      let index ← orFail member (.message "VM tuples have numeric fields only")
      fieldInstruction source index
  | .call callee args, expected => withShape expected (compileCall callee (arguments args) expected)
  | _, _ => fail (.message ("unsupported VM expression; loops, Rust calls, casts, and value-producing " ++
      "blocks are not allowed"))

/-- The arguments of a call. -/
def arguments : List Expr → List Argument
  | [] => []
  | .index base key :: rest =>
      ⟨.index base key, fun hint => compileExpr (.index base key) hint,
        some (base, fun hint => compileExpr key hint)⟩ :: arguments rest
  | expression :: rest => ⟨expression, fun hint => compileExpr expression hint, none⟩ :: arguments rest

end

end BlopDb.Macros
