/-
# Memory reservations

Before a transaction is decoded, analysed and run, the engine reserves an estimate of
the memory that this takes.  The estimates add up descriptor, pool, register, overlay
and address sizes, with saturating operations where a claim or a row count multiplies
a size and plain ones elsewhere.
-/

import BlopDb.Lib.Sizes
import BlopDb.Lib.Slice
import BlopDb.Vm.Prepare

namespace BlopDb.Vm.Resources

open BlopDb.Lib
open Storage (LimitPolicy)

/-- A size, or the panic of a plain operation that overflows. -/
abbrev Sized (α : Type) := Except (Fault Error) α

/-! ## Values -/

mutual

/-- Estimate the memory of any value of a type, container overhead included. -/
def valueBytes : Ty → Sized Nat
  | .bytes bound | .string bound => do return satAdd 64 (← mulChecked 2 bound)
  | .tuple fields => do return satAdd 64 (← sumChecked (← fieldsBytes fields))
  | .rows maximum key value => do
      let row := satAdd (← valueBytes key) (← valueBytes value)
      return satAdd 64 (satMul (satMul maximum row) 2)
  | _ => return satAdd 64 0

/-- The estimates of several fields. -/
def fieldsBytes : List Ty → Sized (List Nat)
  | [] => return []
  | field :: fields => do return (← valueBytes field) :: (← fieldsBytes fields)

end

mutual

/-- The memory of a value as it is nested. -/
def poolBytes : Value → Sized Nat
  | .bytes data => do addChecked 64 (← mulChecked data.length 2)
  | .string text => do addChecked 64 (← mulChecked (textBytes text).length 2)
  | .tuple fields => do addChecked 64 (← sumChecked (← poolFields fields))
  | .rows rows => do addChecked 64 (← sumChecked (← poolRows rows))
  | _ => addChecked 64 0

/-- The memory of each field. -/
def poolFields : List Value → Sized (List Nat)
  | [] => return []
  | field :: fields => do return (← poolBytes field) :: (← poolFields fields)

/-- The memory of each row. -/
def poolRows : List (Value × Value) → Sized (List Nat)
  | [] => return []
  | (key, value) :: rows => do
      let size ← addChecked (← poolBytes key) (← poolBytes value)
      return size :: (← poolRows rows)

end

/-! ## Decoding and analysis -/

/-- Estimate decoding and register analysis from the header, before decoding. -/
def decoding (transaction : Transaction) : Sized Nat := do
  let bytes := transaction.programBytes
  let base := satAdd (satMul (← addChecked bytes.length transaction.argumentBytes.length) 128) 65536
  if bytes.length < 32 then return base
  else do
    let registers := uintAt 2 bytes 16
    let tables := uintAt 2 bytes 20
    let instructions := uintAt 4 bytes 24
    -- table descriptors come from storage: their largest format sizes
    let tables ← mulChecked (← mulChecked (← mulChecked tables 8) 1024) 1024
    return satAdd (satAdd base tables) (satMul (satMul instructions registers) 2)

/-- Estimate the derivation of access scopes. -/
def analysis (program : Program) (decoding : Nat) : Sized Nat := do
  let largest := (← program.registerTypes.mapM valueBytes).max?.getD 64
  -- every forward branch can retain a map of all known registers
  let branch := satAdd (← mulChecked program.registerTypes.length 128) (satMul largest 2)
  return satAdd (satAdd decoding (satMul program.instructions.length branch)) (satMul largest 8)

/-! ## Reservation -/

/-- A point access. -/
def isPoint : Instruction → Bool
  | .load _ _ _ | .exists _ _ _ | .insert _ _ _ | .store _ _ _ | .delete _ _ => true
  | _ => false

/-- A write. -/
def isWrite : Instruction → Bool
  | .insert _ _ _ | .store _ _ _ | .delete _ _ => true
  | _ => false

/-- The row limit of a scan. -/
def rowLimit? : Instruction → Option Nat
  | .scan _ _ _ _ _ rowLimit _ => some rowLimit
  | _ => none

/-- The rows that a scan builds, counted twice. -/
def scanBytes (program : Program) : Instruction → Sized (Option Nat)
  | .scan _ table _ _ _ rowLimit _ => do
      let table ← index program.tables table
      let row := satAdd (← valueBytes table.key) (← valueBytes table.value)
      return some (satMul (satMul rowLimit row) 2)
  | _ => return none

/-- The memory of a declared scope. -/
def scopeBytes : Scope → Sized Nat
  | .table _ => return 128
  | .key _ key => do addChecked 128 (← mulChecked key.length 2)

/-- The memory of a decoded instruction. -/
def instructionBytes : Instruction → Sized Nat
  | .tuple _ fields => do addChecked 128 (← mulChecked fields.length 8)
  | _ => addChecked 128 0

/-- The memory of a decoded type. -/
def typeBytes (ty : Ty) : Sized Nat := do mulChecked (← ty.descriptorOrPanic).length 64

/-- The longest canonical key of a table, from the bound of its values. -/
def keyBytes (table : Table) : Sized Nat := do addChecked (← mulChecked table.key.maxValueBytes 2) 2

/-- The key and value types of all tables. -/
def tableTypes (program : Program) : List Ty := program.tables.flatMap fun table => [table.key, table.value]

/-- The parts of a reservation. -/
structure Terms where
  /-- Estimates of all registers. -/
  registers : Nat
  /-- The largest estimate of a register, key or value. -/
  largest : Nat
  /-- The largest construction of scanned rows. -/
  scanScratch : Nat
  /-- The longest canonical key. -/
  key : Nat
  /-- The longest stored value. -/
  value : Nat
  /-- The private writes. -/
  overlay : Nat
  /-- The most distinct addresses. -/
  addressCount : Nat
  /-- The charged addresses. -/
  addresses : Nat
  /-- The declared scopes. -/
  scopes : Nat
  /-- Arguments and constants. -/
  pools : Nat
  /-- Decoded types. -/
  types : Nat
  /-- Decoded instructions. -/
  instructions : Nat
  /-- The estimate of the result. -/
  result : Nat

/-- The parts of the reservation of a program under claims and declared scopes. -/
def terms (program : Program) (claims : LimitPolicy) (manifest : AccessManifest) : Sized Terms := do
  let registers ← sumChecked (← program.registerTypes.mapM valueBytes)
  let largest := (← (program.registerTypes ++ tableTypes program).mapM valueBytes).max?.getD 64
  let points := program.instructions.countP isPoint
  let writes := program.instructions.countP isWrite
  let rows ← sumChecked (program.instructions.filterMap rowLimit?)
  let scanScratch :=
    ((← program.instructions.mapM (scanBytes program)).filterMap id).max?.getD 0
  let key := min ((← program.tables.mapM keyBytes).max?.getD 0) 1024
  let value := (program.tables.map (·.value.maxValueBytes)).max?.getD 0
  let entries := min writes (claims.value 14)
  let overlay := min (satMul entries (← addChecked (← addChecked key value) 128))
    (satAdd (claims.value 15) (← mulChecked entries 128))
  let addressCount := min (← addChecked points rows) (claims.value 8)
  let addresses := satMul addressCount (← addChecked key 128)
  let scopes ← sumChecked (← (manifest.entries.map (·.1)).mapM scopeBytes)
  let pools ← sumChecked (← (program.arguments ++ program.constants).mapM poolBytes)
  let types ← sumChecked
    (← (program.registerTypes ++ [program.resultType] ++ tableTypes program).mapM typeBytes)
  let instructions ← sumChecked (← program.instructions.mapM instructionBytes)
  let result ← valueBytes program.resultType
  return ⟨registers, largest, scanScratch, key, value, overlay, addressCount, addresses, scopes, pools, types,
    instructions, result⟩

/-- Estimate the memory of running a prepared program. -/
def reservation (program : Program) (claims : LimitPolicy) (manifest : AccessManifest) : Sized Nat := do
  let terms ← terms program claims manifest
  -- scratch includes loaded values before claim checks, scan construction, clones and
  -- encoded result buffers during installation
  return [4096, terms.types, terms.instructions, terms.pools, ← mulChecked terms.scopes 3,
    ← mulChecked terms.registers 2, satMul terms.largest 8, satMul terms.result 4, terms.addresses,
    satMul terms.overlay 8, satMul terms.scanScratch 2].foldl satAdd 0

end BlopDb.Vm.Resources
