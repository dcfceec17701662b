/-
# Access declarations

A manifest declares the addresses a transaction may read and write, as whole
tables or single canonical keys.  Declarations are normalized separately for
reads and writes.  A declared manifest is validated against the scopes derived
from the program: every derived scope must be covered mode by mode.
-/

import BlopDb.Vm.Database

namespace BlopDb.Vm

open BlopDb.Lib
open Storage (LimitPolicy maxU64)
open Storage.Encoding (Schema)

/-- One canonical key or every possible key of a table. -/
inductive Scope
  | table (id : Nat)
  | key (id : Nat) (key : Bytes)
  deriving DecidableEq

namespace Scope

/-- The table of a scope. -/
def tableId : Scope → Nat
  | table id | key id _ => id

/-- The key bytes that order scopes of one table; a whole table has none. -/
def keyBytes : Scope → Bytes
  | table _ => []
  | key _ bytes => bytes

/-- Whole tables come before the points of the same table. -/
def kind : Scope → Nat
  | table _ => 0
  | key _ _ => 1

/-- The triple whose lexicographic order orders scopes. -/
def orderKey (scope : Scope) : Nat ×ₗ (Nat ×ₗ Bytes) :=
  toLex (scope.tableId, toLex (scope.kind, scope.keyBytes))

theorem orderKey_injective : Function.Injective orderKey := by
  intro left right h
  have triple := congrArg ofLex h
  simp only [orderKey, ofLex_toLex, Prod.mk.injEq] at triple
  obtain ⟨tables, inner⟩ := triple
  have pair := congrArg ofLex inner
  simp only [ofLex_toLex, Prod.mk.injEq] at pair
  cases left <;> cases right <;> simp_all [tableId, kind, keyBytes]

instance : LinearOrder Scope := LinearOrder.lift' orderKey orderKey_injective

end Scope

/-- Read and write modes.  Unconditional writes need write only; an insertion
checks presence and needs both. -/
inductive AccessMode
  | read
  | write
  | readWrite
  deriving DecidableEq, Repr

namespace AccessMode

/-- The bits of a mode: one for reads, two for writes. -/
def bits : AccessMode → Nat
  | read => 1
  | write => 2
  | readWrite => 3

/-- The mode of a bit set. -/
def ofBits : Nat → Except Error AccessMode
  | 1 => .ok read
  | 2 => .ok write
  | 3 => .ok readWrite
  | _ => .error (.invalid "invalid access mode")

/-- The mode includes reads. -/
def reads (mode : AccessMode) : Bool := mode.bits.testBit 0

/-- The mode includes writes. -/
def writes (mode : AccessMode) : Bool := mode.bits.testBit 1

end AccessMode

/-- Sorted unique access declarations. -/
structure AccessManifest where
  /-- The declarations in scope order. -/
  entries : List (Scope × AccessMode)
  deriving DecidableEq

namespace AccessManifest

/-- Unite the modes declared for each scope. -/
def combine : List (Scope × AccessMode) → OrdMap Scope Nat → Except Error (OrdMap Scope Nat)
  | [], combined => .ok combined
  | (scope, mode) :: entries, combined => do
      refuse (scope.tableId = 0 ∨ scope.tableId = maxU64 ∨ scope.keyBytes.length > 1024)
        (.invalid "invalid access scope table or key length")
      combine entries
        (combined.insert scope ((combined.find? scope).getD 0 ||| mode.bits))

/-- Drop point modes that the preceding scope of the same table declares whole.
The state is the table of the last scope and its whole-table modes. -/
def suppress : List (Scope × Nat) → Nat × Nat → Except Error (List (Scope × AccessMode))
  | [], _ => .ok []
  | (scope, bits) :: rest, (table, modes) => do
      let modes := if table ≠ scope.tableId then 0 else modes
      let (modes, bits) := match scope with
        | .table _ => (bits, bits)
        | .key _ _ => (modes, bits.ldiff modes)
      if bits ≠ 0 then do
        let mode ← AccessMode.ofBits bits
        let entries ← suppress rest (scope.tableId, modes)
        return (scope, mode) :: entries
      else suppress rest (scope.tableId, modes)

/-- Normalize declarations. -/
def new (entries : List (Scope × AccessMode)) : Except Error AccessManifest := do
  let combined ← combine entries ∅
  let entries ← suppress combined.entries (0, 0)
  return ⟨entries⟩

/-- The declared read scopes. -/
def reads (manifest : AccessManifest) : List Scope :=
  (manifest.entries.filter fun entry => entry.2.reads).map (·.1)

/-- The declared write scopes. -/
def writes (manifest : AccessManifest) : List Scope :=
  (manifest.entries.filter fun entry => entry.2.writes).map (·.1)

/-- Check the normalized entry count against a claim. -/
def checkCount (manifest : AccessManifest) (limit : Nat) : Except Error Unit :=
  refuse (manifest.entries.length > min limit 16384) (.invalid "manifest_scopes exceeds claim")

/-- The address is inside one of the scopes. -/
def Covered (scopes : List Scope) (address : Address) : Prop :=
  Scope.table address.table ∈ scopes ∨ Scope.key address.table address.key ∈ scopes

instance (scopes : List Scope) (address : Address) : Decidable (Covered scopes address) :=
  inferInstanceAs (Decidable (_ ∨ _))

end AccessManifest

/-- Whether two address sets intersect. -/
def overlap (left right : Scope) : Bool :=
  if left.tableId ≠ right.tableId then false
  else
    match left, right with
    | .key _ a, .key _ b => a = b
    | _, _ => true

namespace Access

/-- Check that a declared scope belongs to the program and that a key is
canonical under the table's schema. -/
def validateScope (tables : List Table) (scope : Scope) : Except Error Unit :=
  match tables.find? fun table => table.id = scope.tableId with
  | none => .error (.invalid "manifest table is not in program table array")
  | some table =>
      match scope with
      | .table _ => .ok ()
      | .key _ key =>
          match Schema.decode table.key.descriptor with
          | .error error => .error (.storage error)
          | .ok schema =>
              match Storage.Encoding.decodeKey schema key with
              | .error _ =>
                  .error (.invalid "manifest key is not canonical under historical schema")
              | .ok _ => .ok ()

/-- Collect the declared modes of each scope, validating the scopes. -/
def declare (tables : List Table) :
    List (Scope × AccessMode) → OrdMap Scope Nat → Except Error (OrdMap Scope Nat)
  | [], declarations => .ok declarations
  | (scope, mode) :: entries, declarations => do
      validateScope tables scope
      declare tables entries (declarations.insert scope mode.bits)

/-- Check that every required scope is covered in every required mode. -/
def coverAll (declarations : OrdMap Scope Nat) : List (Scope × AccessMode) → Except Error Unit
  | [] => .ok ()
  | (scope, mode) :: required => do
      let tableMode := (declarations.find? (.table scope.tableId)).getD 0
      let pointMode := (declarations.find? scope).getD 0
      refuse ((tableMode ||| pointMode) &&& mode.bits ≠ mode.bits)
        (.invalid "manifest does not cover program accesses")
      coverAll declarations required

/-- Validate a declared manifest against the required one. -/
def validate (manifest required : AccessManifest) (tables : List Table) (claims : LimitPolicy) :
    Except Error Unit := do
  manifest.checkCount (claims.value 6)
  let declarations ← declare tables manifest.entries ∅
  coverAll declarations required.entries

end Access

end BlopDb.Vm
