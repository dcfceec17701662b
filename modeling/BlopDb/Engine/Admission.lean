/-
# Admission of commands

Before a command is sequenced, its bytes are charged against the submission queue, a
transaction is decoded and analysed within the preparation capacity, and its record is
encoded under the next sequence and the digest before it.  A command that fails one of
these checks is rejected and nothing is written.
-/

import BlopDb.Engine.Execution
import BlopDb.Vm.Resources

namespace BlopDb.Vm

open BlopDb.Lib
open Storage (LimitPolicy View)

/-- A transaction within the preparation capacity, or the bytes that it needs. -/
inductive Preparation
  | ready (prepared : PreparedTransaction)
  | capacity (required : Nat)

/-- Prepare a transaction unless decoding or analysis exceeds a capacity. -/
def prepareTransactionBounded [Sha256] (view : View) (sequence : Nat) (transaction : Transaction)
    (claims : LimitPolicy) (manifest : Option AccessManifest) (capacity : Nat) :
    Except (Fault Error) Preparation := do
  let decoding ← Resources.decoding transaction
  if decoding > capacity then return .capacity decoding
  else do
    let (prior, program) ←
      raise id (prepareProgram view sequence transaction.programBytes transaction.argumentBytes claims)
    let analysis ← Resources.analysis program decoding
    if analysis > capacity then return .capacity analysis
    else do
      let prepared ← finishPreparation prior program claims manifest
      return .ready prepared

end BlopDb.Vm

namespace BlopDb.Engine

open BlopDb.Lib
open Storage (Digest LimitPolicy View maxU64)
open Vm (AccessManifest Command PreparedTransaction Scope)

/-! ## Options and failures -/

/-- Local admission and scheduling settings. -/
structure EngineOptions where
  workers : Nat
  /-- How far above the frontier records are dispatched. -/
  executionWindow : Nat
  /-- How many visible records make a checkpoint. -/
  checkpointInterval : Nat
  submissionQueueCount : Nat
  submissionQueueBytes : Nat
  assignedBacklogCount : Nat
  assignedBacklogBytes : Nat
  /-- Capacity for assigned transactions until their receipts. -/
  executionBytes : Nat
  /-- Capacity for decoding, analysis and the prepared head. -/
  preparationBytes : Nat

/-- Why a submission fails. -/
inductive Failure
  | invalidInput (reason : String)
  /-- Validation rejected the request before sequencing. -/
  | rejected (error : Vm.Error)
  /-- The request exceeds the capacity of the process. -/
  | operationalLimit (resource : String) (required limit : Nat)
  /-- A system failure before the request was appended. -/
  | storage (error : Storage.Error)
  /-- The request may be durable. -/
  | uncertain (sequence : Option Nat)
  /-- The writer is closed. -/
  | closed
  deriving DecidableEq

/-- The most permits of a semaphore. -/
def maxPermits : Nat := 2 ^ 61 - 1

/-- Check the settings of an engine. -/
def EngineOptions.validate (options : EngineOptions) : Except Failure Unit :=
  refuse (¬ (1 ≤ options.workers ∧ options.workers ≤ 256) ∨ options.executionWindow = 0 ∨
      ¬ (1 ≤ options.checkpointInterval ∧ options.checkpointInterval ≤ 4096) ∨
      options.submissionQueueCount = 0 ∨ options.submissionQueueCount > maxPermits ∨
      options.submissionQueueBytes = 0 ∨ options.submissionQueueBytes > min (2 ^ 32 - 1) maxPermits ∨
      options.assignedBacklogCount = 0 ∨ options.assignedBacklogCount > 2 ^ 32 - 1 ∨
      options.assignedBacklogBytes = 0 ∨ options.executionBytes = 0 ∨ options.preparationBytes = 0)
    (.invalidInput "invalid operational engine limits")

/-- Classify the failure of a check before sequencing. -/
def rejection : Vm.Error → Failure
  | .storage error => .storage error
  | error => .rejected error

/-! ## Charges -/

/-- The memory of the scopes that a transaction declares. -/
def declaredBytes (manifest : Option AccessManifest) : Except (Fault Vm.Error) Nat := do
  let scopes := ((manifest.map (·.entries)).getD []).map (·.1)
  sumChecked (← scopes.mapM Vm.Resources.scopeBytes)

/-- The bytes that a submission is charged, beside a constant. -/
def submittedBytes : Command → Except (Fault Vm.Error) Nat
  | .transaction transaction _ manifest => do
      let scopes ← declaredBytes manifest
      addChecked (← addChecked transaction.programBytes.length transaction.argumentBytes.length) scopes
  | .catalogue operation => do
      Vm.Database.validateCatalogue operation
      match operation with
      | .create name key value => do
          let key ← key.descriptorOrPanic
          let value ← value.descriptorOrPanic
          addChecked (textBytes name).length (← mulChecked (← addChecked key.length value.length) 64)
      | .rename _ name => return (textBytes name).length
      | .drop _ => return 8
  | .limits _ => return 140

/-- The bytes that a submission is charged. -/
def inputBytes (command : Command) : Except (Fault Failure) Nat := do
  let bytes ← relay rejection (submittedBytes command)
  return satAdd bytes 512

/-! ## Preparation -/

/-- A transaction that can be sequenced. -/
structure Prepared where
  transaction : PreparedTransaction
  bytes : Bytes
  reservation : Nat

/-- The sequence after a durable one. -/
def nextSequence (durable : Nat) : Except Failure Nat := do
  refuse (durable + 1 ≥ maxU64) (.storage .exhausted)
  return durable + 1

/-- Fail when a resource needs more than its limit. -/
def within (resource : String) (required limit : Nat) : Except Failure Unit :=
  refuse (required > limit) (.operationalLimit resource required limit)

section Records

variable [Crc32c] [Sha256]

/-- Prepare a transaction and its record under the next sequence. -/
def prepareRecord (view : View) (options : EngineOptions) (previousSequence : Nat) (predecessor : Digest)
    (transaction : Vm.Transaction) (claims : LimitPolicy) (manifest : Option AccessManifest) :
    Except (Fault Failure) (Command × Prepared) := do
  let sequence ← raise id (nextSequence previousSequence)
  let preparation ← relay rejection
    (Vm.prepareTransactionBounded view sequence transaction claims manifest options.preparationBytes)
  match preparation with
  | .capacity required =>
      throw (.raised (.operationalLimit "preparation_bytes" required options.preparationBytes))
  | .ready prepared => do
      let command := Command.transaction transaction claims (some prepared.manifest)
      let running ← relay rejection
        (Vm.Resources.reservation prepared.program prepared.claims prepared.manifest)
      let backlog ← mulChecked options.assignedBacklogCount 16
      let input ← inputBytes command
      let reservation := satAdd (satAdd running backlog) (satMul input 3)
      raise id (within "execution_bytes" reservation options.executionBytes)
      raise id (within "preparation_bytes" reservation options.preparationBytes)
      let (kind, body) ← relay rejection (Record.encode command)
      let bytes ← raise rejection (envelope sequence predecessor kind body)
      raise id (within "assigned_backlog_bytes" bytes.length options.assignedBacklogBytes)
      return (command, ⟨prepared, bytes, reservation⟩)

/-- Prepare a command for the head of the queue. -/
def prepare (view : View) (options : EngineOptions) (previousSequence : Nat) (predecessor : Digest) :
    Command → Except (Fault Failure) (Command × Option Prepared)
  | .transaction transaction claims manifest => do
      let (command, prepared) ←
        prepareRecord view options previousSequence predecessor transaction claims manifest
      return (command, some prepared)
  | command => do
      let (_, body) ← relay rejection (Record.encode command)
      raise id (within "assigned_backlog_bytes" (body.length + recordOverhead) options.assignedBacklogBytes)
      return (command, none)

end Records

end BlopDb.Engine
