/-
# Binding a template

Table identities are sorted, so that the bound table array does not depend on the
order of declarations, and every table operand is rewritten to the position its
identity has in that array.
-/

import BlopDb.Macros.Bytecode

namespace BlopDb.Macros

open BlopDb.Lib
open Storage (maxU64)
open Vm (Ty Value)

/-- The largest encoded arguments. -/
def maxArgumentBytes : Nat := 16 * 1024 * 1024

/-- A bound program with its encoded arguments. -/
structure Transaction where
  program : Bytes
  arguments : Bytes
  deriving DecidableEq

/-- Why inputs are not bound to a program. -/
inductive BuildError
  | boundExceeded (maxBytes actualBytes : Nat)
  | argumentsTooLarge
  | invalidTableId (id : Nat)
  | duplicateTableId (id : Nat)
  | invalidTemplate
  deriving DecidableEq

/-- Append a length-prefixed byte string within its bound. -/
def pushBlob (out bytes : Bytes) (maxBytes : Nat) : Except BuildError Bytes := do
  refuse (¬ (bytes.length < 2 ^ 32 ∧ bytes.length ≤ maxBytes)) (.boundExceeded maxBytes bytes.length)
  refuse (out.length + 4 + bytes.length > maxArgumentBytes) .argumentsTooLarge
  return out ++ leBytes 4 bytes.length ++ bytes

/-- Reject reserved identities. -/
def checkTableIds : List Nat → Except BuildError Unit
  | [] => .ok ()
  | id :: ids => do
      refuse (id = 0 ∨ id = maxU64) (.invalidTableId id)
      checkTableIds ids

/-- Identities with their declaration indices, in increasing identity. -/
def sortTables (tableIds : List Nat) : List (Nat × Nat) :=
  tableIds.zipIdx.insertionSort fun left right => left.1 ≤ right.1

/-- Reject neighbouring equal identities. -/
def checkDistinct : List (Nat × Nat) → Except BuildError Unit
  | first :: second :: rest => do
      refuse (first.1 = second.1) (.duplicateTableId first.1)
      checkDistinct (second :: rest)
  | _ => .ok ()

/-- Write the sorted identities into the array and record the slot of every
declaration. -/
def writeTables (tableOffset : Nat) : List (Nat × Nat) → Nat → Bytes → List Nat → Bytes × List Nat
  | [], _, program, slots => (program, slots)
  | (id, declaration) :: rest, slot, program, slots =>
      writeTables tableOffset rest (slot + 1) (overwrite program (tableOffset + 8 * slot) (leBytes 8 id))
        (slots.set declaration slot)

/-- Rewrite the table operands to their slots. -/
def applyPatches (tableEnd : Nat) (slots : List Nat) : List (Nat × Nat) → Bytes → Except BuildError Bytes
  | [], program => .ok program
  | (offset, declaration) :: rest, program =>
      match slots[declaration]? with
      | none => .error .invalidTemplate
      | some slot => do
          refuse (offset < tableEnd) .invalidTemplate
          refuse (offset + 2 > program.length) .invalidTemplate
          applyPatches tableEnd slots rest (overwrite program offset (leBytes 2 slot))

/-- Bind table identities and encoded arguments to a template. -/
def bindProgram (template : Bytes) (tableOffset : Nat) (patches : List (Nat × Nat)) (tableIds : List Nat)
    (arguments : Bytes) : Except BuildError Transaction := do
  refuse (arguments.length > maxArgumentBytes) .argumentsTooLarge
  refuse (tableIds.length > 65535) .invalidTemplate
  let tableEnd := tableOffset + tableIds.length * 8
  refuse (tableEnd > template.length) .invalidTemplate
  checkTableIds tableIds
  let sortedTables := sortTables tableIds
  checkDistinct sortedTables
  let (program, slots) := writeTables tableOffset sortedTables 0 template (List.replicate tableIds.length 0)
  let program ← applyPatches tableEnd slots patches program
  return ⟨program, arguments⟩

/-! ## Captured values -/

mutual

/-- Append the encoding of a captured value.  The Rust types of the generated code
exclude a value of another type. -/
def encodeCapture (out : Bytes) : Ty → Value → Except BuildError Bytes
  | .unit, _ => .ok out
  | .boolean, .boolean value => .ok (out ++ [if value then 1 else 0])
  | .i64, .i64 number => .ok (out ++ leBytes 8 number.toBitVec.toNat)
  | .u64, .u64 number => .ok (out ++ leBytes 8 number.toNat)
  | .bytes bound, .bytes bytes => pushBlob out bytes bound
  | .string bound, .string text => pushBlob out (textBytes text) bound
  | .tuple types, .tuple values => encodeCaptures out types values
  | _, _ => .ok out

/-- Append the fields of a captured tuple. -/
def encodeCaptures (out : Bytes) : List Ty → List Value → Except BuildError Bytes
  | ty :: types, value :: values => do
      let out ← encodeCapture out ty value
      encodeCaptures out types values
  | _, _ => .ok out

end

/-- Append the encoded arguments of a transaction. -/
def pushArguments : List Ty → List Value → Bytes → Except BuildError Bytes
  | ty :: types, value :: values, arguments => do
      let encoded ← encodeCapture [] ty value
      let arguments ← pushBlob arguments encoded valueLimit
      pushArguments types values arguments
  | _, _, arguments => .ok arguments

/-- The generated code: encode the captured values and bind the template. -/
def buildTransaction (template : Encoded) (types : List Ty) (values : List Value) (tableIds : List Nat) :
    Except BuildError Transaction := do
  let arguments ← pushArguments types values (leBytes 4 types.length)
  bindProgram template.bytes template.tableOffset template.patches tableIds arguments

end BlopDb.Macros
