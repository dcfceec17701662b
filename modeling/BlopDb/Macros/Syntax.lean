/-
# Transaction source

The Rust syntax that the transaction macro compiles, after tokens are parsed.
Everything the compiler rejects by its form alone is one unsupported case.
-/

import BlopDb.Macros.Bytecode

namespace BlopDb.Macros

open BlopDb.Lib
open Vm (Ty)

/-- A literal; integers keep their suffix. -/
inductive Literal
  | boolean (value : Bool)
  | integer (value : Nat) (suffix : String)
  | text (value : String)
  | byteText (value : Bytes)
  | unsupported

/-- A unary operator. -/
inductive UnaryOperator
  | deref
  | not
  | neg

/-- A binary operator. -/
inductive BinaryOperator
  | add
  | sub
  | mul
  | div
  | rem
  | and
  | or
  | bitXor
  | bitAnd
  | bitOr
  | shl
  | shr
  | eq
  | lt
  | le
  | ne
  | ge
  | gt
  | addAssign
  | subAssign
  | mulAssign
  | divAssign
  | remAssign
  | bitXorAssign
  | bitAndAssign
  | bitOrAssign
  | shlAssign
  | shrAssign
  deriving DecidableEq

/-- A let pattern. -/
structure Pattern where
  /-- The bound name of an identifier pattern. -/
  name : Option String
  /-- The pattern binds by reference or has a subpattern. -/
  refined : Bool
  /-- The binding is mutable. -/
  mutable : Bool

mutual

/-- An expression.  A path that is not a plain identifier has no name, and a named
field access has no index. -/
inductive Expr
  | paren (inner : Expr)
  | group (inner : Expr)
  | path (name : Option String)
  | lit (literal : Literal)
  | unary (op : UnaryOperator) (operand : Expr)
  | binary (op : BinaryOperator) (left right : Expr)
  | index (base key : Expr)
  | tuple (fields : List Expr)
  | field (base : Expr) (member : Option Nat)
  | call (callee : Expr) (args : List Expr)
  | ifThen (condition : Expr) (body : List Statement)
  | ifThenElse (condition : Expr) (body : List Statement) (alternative : Expr)
  | block (labelled : Bool) (body : List Statement)
  | returnUnit
  | returnValue (value : Expr)
  | assign (target value : Expr)
  | unsupported

/-- A statement. -/
inductive Statement
  | binding (pattern : Pattern) (annotated : Option Ty) (init : Expr) (diverges : Bool)
  | uninitialized (pattern : Pattern)
  | expr (expression : Expr)
  | unsupported

end

/-- A declared capture; its value is evaluated by the generated code. -/
structure Capture where
  name : String
  ty : Ty

/-- A declared table; its identity is supplied to the generated code. -/
structure TableDeclaration where
  name : String
  key : Ty
  value : Ty

/-- A transaction source program. -/
structure SourceProgram where
  captures : List Capture
  tables : List TableDeclaration
  result : Option Ty
  body : List Statement

/-! ## Declarations -/

/-- Strip raw-identifier markers. -/
def trimRaw : List Char → List Char
  | 'r' :: '#' :: rest => trimRaw rest
  | rest => rest

/-- Reject reserved names. -/
def validateName (name : String) : Except CompileError Unit :=
  refuse (trimRaw name.toList = "abort".toList ∨ trimRaw name.toList = "unbounded".toList)
    (.message "reserved VM keyword cannot be used as a binding name")

mutual

/-- The largest canonical key of a type. -/
def keySize : Ty → Nat
  | .unit => 0
  | .boolean => 1
  | .i64 | .u64 => 8
  | .bytes bound | .string bound => 2 * bound + 2
  | .tuple fields => keySizes fields
  | .rows _ _ _ => Storage.maxU64

/-- The largest canonical key of fields. -/
def keySizes : List Ty → Nat
  | [] => 0
  | field :: fields => keySize field + keySizes fields

end

/-- Accept a declared name once. -/
def uniqueName (name : String) (names : List String) : Except CompileError (List String) := do
  validateName name
  refuse (name ∈ names) (.message "duplicate capture or table name")
  return name :: names

/-- Check declared captures. -/
def checkCaptures : List Capture → List String → Except CompileError (List String)
  | [], names => .ok names
  | capture :: captures, names => do
      let names ← uniqueName capture.name names
      validateType capture.ty false
      checkCaptures captures names

/-- Check declared tables. -/
def checkTables : List TableDeclaration → List String → Except CompileError Unit
  | [], _ => .ok ()
  | table :: tables, names => do
      let names ← uniqueName table.name names
      validateType table.key false
      validateType table.value false
      refuse (keySize table.key > 1024) (.message "table key schema exceeds 1024 bytes")
      checkTables tables names

/-- The checks that parsing makes on the declarations. -/
def checkDeclarations (program : SourceProgram) : Except CompileError Unit := do
  let names ← checkCaptures program.captures []
  checkTables program.tables names

end BlopDb.Macros
