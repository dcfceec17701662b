/-
# Preparing transactions

Preparation decodes and verifies a program against the catalogue and policy
before its sequence, derives its access scopes and validates a declared
manifest against them.  It reads no rows.
-/

import BlopDb.Vm.AccessAnalysis
import BlopDb.Vm.Catalogue
import BlopDb.Vm.Runtime

namespace BlopDb.Vm

open BlopDb.Lib
open Storage (View LimitPolicy maxU64)

/-- The bytes of a bound transaction. -/
structure Transaction where
  /-- The program with its table identities. -/
  programBytes : Bytes
  /-- The captured argument values. -/
  argumentBytes : Bytes
  deriving DecidableEq

/-- A validated program with verified access declarations. -/
structure PreparedTransaction where
  /-- The sequence before the record. -/
  prior : Nat
  /-- The verified program. -/
  program : Program
  /-- The limits the transaction claims. -/
  claims : LimitPolicy
  /-- The declared scopes. -/
  manifest : AccessManifest

/-- The sequence of the record. -/
def PreparedTransaction.sequence (transaction : PreparedTransaction) : Nat := transaction.prior + 1

/-- The sequence before a record. -/
def priorSequence (sequence : Nat) : Except Error Nat := do
  refuse (sequence = 0 ∨ sequence = maxU64) (.invalid "reserved record sequence")
  return sequence - 1

/-- Some claim exceeds its limit. -/
def exceedsPolicy (claims policy : LimitPolicy) : Bool :=
  (claims.values.zip policy.values).any fun pair => pair.1 > pair.2

/-- The tables with these identities at a sequence. -/
def resolveTables (view : View) (prior : Nat) : List Nat → Except Error (List Table)
  | [] => .ok []
  | id :: ids => do
      let table ← Database.table view id prior
      let tables ← resolveTables view prior ids
      return table :: tables

/-- Decode a program against the catalogue and policy before its sequence. -/
def prepareProgram (view : View) (sequence : Nat) (program arguments : Bytes)
    (claims : LimitPolicy) : Except Error (Nat × Program) := do
  let prior ← priorSequence sequence
  let policy ← Database.policy view prior
  refuse (exceedsPolicy claims policy) (.invalid "transaction claims exceed historical policy")
  let ids ← Program.tableIds program
  let tables ← resolveTables view prior ids
  let program ← Program.decode program arguments tables claims
  return (prior, program)

/-- Derive the required scopes and validate the declared ones. -/
def finishPreparation [Sha256] (prior : Nat) (program : Program) (claims : LimitPolicy)
    (manifest : Option AccessManifest) : Except (Fault Error) PreparedTransaction := do
  let required ← AccessAnalysis.derive program
  let manifest := manifest.getD required
  raise id (Access.validate manifest required program.tables claims)
  return ⟨prior, program, claims, manifest⟩

/-- Check bytecode, historical metadata and scopes of a transaction. -/
def prepareTransaction [Sha256] (view : View) (sequence : Nat) (transaction : Transaction)
    (claims : LimitPolicy) (manifest : Option AccessManifest) :
    Except (Fault Error) PreparedTransaction := do
  let (prior, program) ←
    raise id (prepareProgram view sequence transaction.programBytes transaction.argumentBytes claims)
  finishPreparation prior program claims manifest

/-- Interpret a prepared program without changing storage. -/
def interpretPrepared [Sha256] (view : View) (transaction : PreparedTransaction) :
    Option (Except (Fault Error) Outcome) :=
  Runtime.run view transaction.prior transaction.program transaction.claims

end BlopDb.Vm
