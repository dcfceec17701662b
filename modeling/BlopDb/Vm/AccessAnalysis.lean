/-
# Derived access scopes

The analysis propagates known values through forward branches and declares, for
each instruction that touches a table, the point its key register is known to
hold or else the whole table.  It reads no rows and never prunes an edge.
-/

import BlopDb.Vm.Access
import BlopDb.Vm.Program

namespace BlopDb.Vm.AccessAnalysis

open BlopDb.Lib
open Storage.Encoding (Schema)

/-- Registers with a known value; a missing register is unknown. -/
abbrev Known := OrdMap Nat Value

/-- Keep what is known equally on two paths. -/
def join (current incoming : Known) : Known :=
  current.filter fun entry => incoming.find? entry.1 = some entry.2

/-- An abort of a pure operation leaves its destination unknown. -/
def ofOperation : Operations.Result Value → Except (Fault Error) (Option Value)
  | .ok value => .ok (some value)
  | .error (.raised _) => .ok none
  | .error .panic => .error .panic

/-- Check known tuple fields against the destination's field types. -/
def fieldsAccepted (known : Known) : List Nat → List Ty → Bool
  | field :: fields, ty :: types =>
      match known.find? field with
      | some value => ty.accepts value && fieldsAccepted known fields types
      | none => false
  | _, _ => true

/-- The known values of all fields, or a panic where one is missing. -/
def knownFields (known : Known) : List Nat → Except (Fault Error) (List Value)
  | [] => .ok []
  | field :: fields =>
      match known.find? field with
      | some value => do
          let values ← knownFields known fields
          return value :: values
      | none => .error .panic

/-- The value an instruction assigns, if the known registers determine it. -/
def evaluate [Sha256] (instruction : Instruction) (program : Program) (known : Known) :
    Except (Fault Error) (Option Value) :=
  match instruction with
  | .const _ constant => return some (← index program.constants constant)
  | .arg _ argument => return some (← index program.arguments argument)
  | .move _ src => return known.find? src
  | .binary op dst left right =>
      match known.find? left, known.find? right with
      | some left, some right => do
          let destination ← index program.registerTypes dst
          ofOperation (Operations.binary op left right destination)
      | _, _ => return none
  | .unary op _ src =>
      match known.find? src with
      | some source => ofOperation (Operations.unary op source)
      | none => return none
  | .slice _ src start length =>
      match known.find? src, known.find? start, known.find? length with
      | some source, some start, some length => ofOperation (Operations.slice source start length)
      | _, _, _ => return none
  | .tuple dst fields => do
      match ← index program.registerTypes dst with
      | .tuple types =>
          if fieldsAccepted known fields types then do
            let values ← knownFields known fields
            return some (.tuple values)
          else return none
      | _ => throw .panic
  | .field _ src field =>
      match known.find? src with
      | some (.tuple fields) => return some (← index fields field)
      | some _ => .error .panic
      | none => return none
  | _ => return none

/-- The table, key register and mode of an access. -/
def access : Instruction → Option (Nat × Option Nat × AccessMode)
  | .load _ table key | .exists _ table key => some (table, some key, .read)
  | .insert table key _ => some (table, some key, .readWrite)
  | .store table key _ | .delete table key => some (table, some key, .write)
  | .scan _ table _ _ _ _ _ => some (table, none, .read)
  | _ => none

/-- The register an instruction assigns. -/
def destination : Instruction → Option Nat
  | .const dst _ | .arg dst _ | .move dst _ | .binary _ dst _ _ | .unary _ dst _
  | .slice dst _ _ _ | .tuple dst _ | .field dst _ _ | .load dst _ _ | .exists dst _ _
  | .scan dst _ _ _ _ _ _ => some dst
  | _ => none

/-- The canonical key a register is known to hold. -/
def knownKey (known : Known) (schema : Schema) (register : Nat) :
    Except (Fault Error) (Option Bytes) :=
  match known.find? register with
  | some value => do
      let encoded ← value.encodeOrPanic
      return (Storage.Encoding.encodeKey schema encoded).toOption
  | none => return none

/-- Declare the scope of an access; a key that is not known to be canonical
widens it to the table. -/
def declareAccess (program : Program) (schemas : List Schema) (known : Known)
    (instruction : Instruction) : Except (Fault Error) (List (Scope × AccessMode)) :=
  match access instruction with
  | none => return []
  | some (position, register, mode) => do
      let table ← index program.tables position
      let schema ← index schemas position
      let key ← match register with
        | some register => knownKey known schema register
        | none => pure none
      match key with
      | some key => return [(.key table.id key, mode)]
      | none => return [(.table table.id, mode)]

/-- Record what an instruction makes known of its destination. -/
def learn [Sha256] (program : Program) (known : Known) (instruction : Instruction) :
    Except (Fault Error) Known :=
  match destination instruction with
  | none => return known
  | some dst => do
      let value ← evaluate instruction program known
      match value with
      | some value => do
          let ty ← index program.registerTypes dst
          return if ty.accepts value then known.insert dst value else known.erase dst
      | none => return known.erase dst

/-- Analyse one instruction on entry with these known registers. -/
def visit [Sha256] (program : Program) (schemas : List Schema) (_ : Nat)
    (instruction : Instruction) (known : Known) (entries : List (Scope × AccessMode)) :
    Except (Fault Error) (Known × List (Scope × AccessMode)) := do
  let declared ← declareAccess program schemas known instruction
  let known ← learn program known instruction
  return (known, entries ++ declared)

/-- The key schemas of the program's tables. -/
def keySchemas : List Table → Except (Fault Error) (List Schema)
  | [] => return []
  | table :: tables => do
      let descriptor ← table.key.descriptorOrPanic
      let schema ← raise Error.storage (Schema.decode descriptor)
      let schemas ← keySchemas tables
      return schema :: schemas

/-- Derive the scopes of a verified program. -/
def derive [Sha256] (program : Program) : Except (Fault Error) AccessManifest := do
  let schemas ← keySchemas program.tables
  let final ← flow join Instruction.exit Fault.panic (visit program schemas) 0 program.instructions
    ⟨some ∅, fun _ => none, []⟩
  raise id (AccessManifest.new final.acc)

end BlopDb.Vm.AccessAnalysis
