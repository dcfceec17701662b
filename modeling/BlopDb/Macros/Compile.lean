/-
# Compiling programs

Statements are compiled in order; a block that ends in a return or an abort may not
be followed by another statement.  A program declares its tables and loads its
captures before its body, and returns unit where the body can reach its end.
-/

import BlopDb.Macros.Bind
import BlopDb.Macros.CompileExpr

namespace BlopDb.Macros

open BlopDb.Lib
open Vm (Ty)

/-! ## Statements -/

/-- An expression as an operand. -/
def argument (expression : Expr) : Argument :=
  match expression with
  | .index base key =>
      ⟨expression, fun hint => compileExpr expression hint, some (base, fun hint => compileExpr key hint)⟩
  | expression => ⟨expression, fun hint => compileExpr expression hint, none⟩

/-- What an assignment writes to. -/
inductive Target
  | variable (register : Nat)
  | row (table : TableInfo) (key : Nat)

/-- The target of an assignment. -/
def assignTarget (target : Expr) : CompileM Target :=
  match target with
  | .index base key => do
      let (table, key) ← address (argument (.index base key))
      return .row table key
  | target => do
      let name ← lift (pathName target)
      let compiler ← get
      let found ← orFail (compiler.locals name) (.message "unknown VM local")
      reject (found.mutable = false)
        (.message "cannot assign to an immutable local or capture; use let mut")
      return .variable found.register

/-- The type a target holds. -/
def targetType : Target → CompileM Ty
  | .variable register => tyOf register
  | .row table _ => return table.value

/-- The register with the value a target held before. -/
def priorValue : Target → CompileM Nat
  | .variable register => return register
  | .row table key => do
      let register ← register table.value
      let _ ← emitTable 0x40 [register, table.index, key] 2 table
      return register

/-- Write a register to a target. -/
def writeTarget (target : Target) (source : Nat) : CompileM Unit :=
  match target with
  | .variable register => do
      let _ ← emit 0x03 [register, source]
  | .row table key => do
      let _ ← emitTable 0x43 [table.index, key, source] 0 table

/-- An assignment, or an assignment through a binary opcode. -/
def assignValue (target value : Expr) (opcode : Option Nat) : CompileM Unit := do
  let target ← assignTarget target
  let ty ← targetType target
  match opcode with
  | none => do
      let source ← compileExpr value (some ty)
      writeTarget target source
  | some opcode => do
      let prior ← priorValue target
      let source ← compileExpr value (some (if isShift opcode then .u64 else ty))
      let source ← binaryInstruction opcode prior source
      writeTarget target source

/-- The user code of a requirement or an abort. -/
def userCode : List Expr → Except CompileError Nat
  | [] => .ok 0
  | code :: _ => immediate code (2 ^ 32 - 1)

/-- A requirement of a condition. -/
def compileRequire (args : List Expr) : CompileM Unit :=
  match args with
  | [] => fail (.message "require(condition[, code]) or abort([code]) expected")
  | condition :: code => do
      reject (code.length > 1) (.message "require(condition[, code]) or abort([code]) expected")
      let condition ← compileExpr condition (some .boolean)
      let index ← emit 0x62 [condition]
      let code ← lift (userCode code)
      extendOperands index (leBytes 4 code)

/-- An abort. -/
def compileAbort (args : List Expr) : CompileM Unit := do
  reject (args.length > 1) (.message "require(condition[, code]) or abort([code]) expected")
  let index ← emit 0x63 []
  let code ← lift (userCode args)
  extendOperands index (leBytes 4 code)

/-- A write of a row. -/
def compileWrite (opcode : Nat) (args : List Expr) : CompileM Unit :=
  match args with
  | [row, value] => do
      let (table, key) ← address (argument row)
      let value ← compileExpr value (some table.value)
      let _ ← emitTable opcode [table.index, key, value] 0 table
  | _ => fail (.message "expected delete(table[key]) or insert/store(table[key], value)")

/-- A deletion of a row. -/
def compileDelete (args : List Expr) : CompileM Unit :=
  match args with
  | [row] => do
      let (table, key) ← address (argument row)
      let _ ← emitTable 0x44 [table.index, key] 0 table
  | _ => fail (.message "expected delete(table[key]) or insert/store(table[key], value)")

/-- The result type after one more returned type. -/
def returnedResult (compiler : Compiler) (ty : Ty) : Ty :=
  match compiler.result with
  | some result => if compiler.declaredResult then result else union result ty
  | none => ty

/-- Return a register. -/
def compileReturn (source : Nat) : CompileM Unit := do
  let ty ← tyOf source
  modify fun compiler => { compiler with result := some (returnedResult compiler ty) }
  let _ ← emit 0x64 [source]

/-- A call as a statement; only an abort ends the block. -/
def compileCallStatement (callee : Expr) (args : List Expr) : CompileM Bool := do
  let name ← lift (pathName callee)
  if name = "require" then do
    compileRequire args
    return false
  else if name = "abort" then do
    compileAbort args
    return true
  else if name = "insert" then do
    compileWrite 0x42 args
    return false
  else if name = "store" then do
    compileWrite 0x43 args
    return false
  else if name = "delete" then do
    compileDelete args
    return false
  else do
    let _ ← compileExpr (.call callee args) none
    return false

/-- The name a let pattern binds. -/
def boundName (pattern : Pattern) : Except CompileError String := do
  let name ← match pattern.name with
    | some name => .ok name
    | none => .error (.message "VM let requires a single local name")
  validateName name
  refuse (pattern.refined = true) (.message "VM bindings do not support ref or subpatterns")
  return name

/-- A let binding. -/
def compileBinding (pattern : Pattern) (annotated : Option Ty) (init : Expr) (diverges : Bool) :
    CompileM Unit := do
  let name ← lift (boundName pattern)
  reject (diverges = true) (.message "let-else is not supported by the VM")
  let source ← compileExpr init annotated
  let sourceType ← tyOf source
  let register ← register (annotated.getD sourceType)
  let _ ← emit 0x03 [register, source]
  modify fun compiler => { compiler with
    locals := Function.update compiler.locals name (some ⟨register, pattern.mutable⟩) }

/-- Run the statements of a block and forget its locals. -/
def compileBlock (statements : CompileM Bool) : CompileM Bool := do
  let outer ← get
  let terminated ← statements
  modify fun compiler => { compiler with locals := outer.locals }
  return terminated

/-- A branch without an alternative. -/
def compileIf (condition : Expr) (body : CompileM Bool) : CompileM Bool := do
  let condition ← compileExpr condition (some .boolean)
  let otherwise ← jump (some condition)
  let _ ← compileBlock body
  patchJump otherwise
  return false

/-- A branch with an alternative; a branch that ends needs no jump over it. -/
def compileIfElse (condition : Expr) (body alternative : CompileM Bool) : CompileM Bool := do
  let condition ← compileExpr condition (some .boolean)
  let otherwise ← jump (some condition)
  let terminated ← compileBlock body
  if terminated then do
    patchJump otherwise
    alternative
  else do
    let stop ← jump none
    patchJump otherwise
    let _ ← alternative
    patchJump stop
    return false

mutual

/-- Compile an expression statement; the result tells whether it ends the block. -/
def compileStatementExpr : Expr → CompileM Bool
  | .ifThen condition body => compileIf condition (compileStatements body false)
  | .ifThenElse condition body alternative =>
      compileIfElse condition (compileStatements body false) (compileStatementExpr alternative)
  | .block false body => compileBlock (compileStatements body false)
  | .returnValue value => do
      let compiler ← get
      let source ← compileExpr value compiler.result
      compileReturn source
      return true
  | .returnUnit => do
      let compiler ← get
      reject (compiler.result.any (· ≠ .unit) = true) (.message "return requires a value of the result type")
      let source ← constant .unit []
      compileReturn source
      return true
  | .assign target value => do
      assignValue target value none
      return false
  | .binary op left right =>
      match assignmentOp op with
      | some opcode => do
          assignValue left right (some opcode)
          return false
      | none => do
          let _ ← compileExpr (.binary op left right) none
          return false
  | .call callee args => compileCallStatement callee args
  | .path name => do
      let name ← lift (pathName (.path name))
      if name = "abort" then do
        compileAbort []
        return true
      else do
        let _ ← compileExpr (.path (some name)) none
        return false
  | expression => do
      let _ ← compileExpr expression none
      return false

/-- Compile the statements after one that ended the block or not. -/
def compileStatements : List Statement → Bool → CompileM Bool
  | [], terminated => return terminated
  | statement :: rest, terminated => do
      reject (terminated = true) (.message "unreachable VM statement")
      let terminated ← compileStatement statement
      compileStatements rest terminated

/-- Compile a statement. -/
def compileStatement : Statement → CompileM Bool
  | .binding pattern annotated init diverges => do
      compileBinding pattern annotated init diverges
      return false
  | .uninitialized pattern => do
      let _ ← lift (boundName pattern)
      fail (.message "VM locals must be initialized")
  | .expr expression => compileStatementExpr expression
  | .unsupported => fail (.message "Rust items and macros cannot run in a VM program")

end

/-! ## Programs -/

/-- The declared tables with their indices. -/
def declareTables : List TableDeclaration → Nat → (String → Option TableInfo) →
    Except CompileError (String → Option TableInfo)
  | [], _, tables => .ok tables
  | table :: rest, position, tables => do
      let index ← poolIndex position
      declareTables rest (position + 1)
        (Function.update tables table.name (some ⟨index, table.key, table.value, table.name⟩))

/-- Load the captures into registers. -/
def declareCaptures : List Capture → Nat → CompileM Unit
  | [], _ => return ()
  | capture :: rest, position => do
      let index ← lift (poolIndex position)
      let register ← register capture.ty
      let _ ← emit 0x02 [register, index]
      modify fun compiler => { compiler with
        locals := Function.update compiler.locals capture.name (some ⟨register, false⟩)
        captures := Function.update compiler.captures capture.name (some register) }
      declareCaptures rest (position + 1)

/-- Compile the body; a body that can reach its end returns unit there. -/
def compileBody (body : List Statement) : CompileM Unit := do
  let terminated ← compileBlock (compileStatements body false)
  if terminated then return ()
  else do
    let compiler ← get
    reject (compiler.result.any (· ≠ .unit) = true) (.message "not every path returns a value or aborts")
    let unit ← constant .unit []
    let _ ← emit 0x64 [unit]

/-- Compile the declarations and the body of a program. -/
def compileProgram (program : SourceProgram) : Except CompileError Compiled := do
  let tables ← declareTables program.tables 0 fun _ => none
  let start : Compiler :=
    { registers := [], constants := [], instructions := [], locals := fun _ => none,
      captures := fun _ => none, tables, result := program.result,
      declaredResult := program.result.isSome }
  let (_, compiler) ← (do
    declareCaptures program.captures 0
    compileBody program.body) start
  let result := compiler.result.getD .unit
  validateType result true
  return ⟨result, program.captures.map (·.ty), compiler.registers, program.tables.length,
    compiler.constants, compiler.instructions⟩

/-- Parse the declarations, compile the program and lay it out as a template. -/
def compile (program : SourceProgram) : Except CompileError Encoded := do
  checkDeclarations program
  let compiled ← compileProgram program
  compiled.template

end BlopDb.Macros
