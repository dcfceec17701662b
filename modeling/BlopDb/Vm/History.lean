/-
# Checking outcomes against their source

An outcome is checked against the program of its record without executing it:
the returned type, the effects against the write instructions, the abort against
the instruction it names, and all sizes against the transaction's limits.
-/

import BlopDb.Vm.Outcome
import BlopDb.Vm.Prepare

namespace BlopDb.Vm.History

open BlopDb.Lib
open Storage (View LimitPolicy)

/-- Check effects against key and value limits and add up their charges. -/
def effectBytes (policy : LimitPolicy) : List Effect → Except Error Nat
  | [] => .ok 0
  | effect :: effects => do
      let (key, valueLength) ← match effect with
        | .put _ key value => .ok (key, value.length)
        | .delete _ key => .ok (key, 0)
        | _ => .error (Error.invalid "non-state transaction effect")
      refuse (key.length > policy.value 9 ∨ valueLength > policy.value 10)
        (.invalid "outcome effect exceeds historical transaction bounds")
      let bytes ← effectBytes policy effects
      return 9 + key.length + valueLength + bytes

/-- Check a successful outcome against limits. -/
def transactionLimits (outcome : Outcome) (policy : LimitPolicy) : Except Error Unit :=
  match outcome with
  | .aborted _ => .ok ()
  | .success _ value effects => do
      refuse (value.encodedLen > policy.value 16 ∨ value.encodedLen > policy.value 10 ∨
          effects.length > policy.value 14 ∨ effects.length > policy.value 8 ∨
          effects.length > policy.value 7)
        (.invalid "outcome exceeds historical transaction bounds")
      let bytes ← effectBytes policy effects
      refuse (bytes > policy.value 15) (.invalid "outcome exceeds historical overlay bound")

/-- The table a write instruction changes and whether it deletes. -/
def writeTarget : Instruction → Option (Nat × Bool)
  | .store table _ _ | .insert table _ _ => some (table, false)
  | .delete table _ => some (table, true)
  | _ => none

/-- The tables and kinds of a program's write instructions. -/
def writes (program : Program) : List Instruction → Except (Fault Error) (List (Nat × Bool))
  | [] => .ok []
  | instruction :: instructions =>
      match writeTarget instruction with
      | none => writes program instructions
      | some (position, delete) => do
          let table ← index program.tables position
          let rest ← writes program instructions
          return (table.id, delete) :: rest

/-- The effect is a deletion. -/
def isDelete : Effect → Bool
  | .delete _ _ => true
  | _ => false

/-- The instruction can raise the abort. -/
def legalAbort (instruction : Instruction) (reason : AbortReason) (userCode : Nat) : Bool :=
  match reason, instruction with
  | .requireFailed, .require _ code => code = userCode
  | .explicitAbort, .abort code => code = userCode
  | .missingKey, .load _ _ _ => true
  | .keyExists, .insert _ _ _ => true
  | .divisionByZero, .binary op _ _ _ => op = .div || op = .rem
  | .invalidShift, .binary op _ _ _ => op = .shl || op = .shr
  | .invalidUtf8, .unary op _ _ => op = .parseUtf8
  | .indexOutOfBounds, .slice _ _ _ _ => true
  | .indexOutOfBounds, .binary op _ _ _ => op = .rowsKey || op = .rowsValue
  | .integerOverflow, .binary op _ _ _ =>
      op = .add || op = .sub || op = .mul || op = .div || op = .rem
  | .integerOverflow, .unary op _ _ => op = .neg || op = .toI64 || op = .toU64
  | .boundExceeded, _ | .resourceLimit, _ => true
  | _, _ => false

/-- Check facts established by the source program without executing it. -/
def validateTransactionOutcome (view : View) (sequence : Nat) (transaction : Transaction)
    (claims : LimitPolicy) (record : OutcomeRecord) : Except (Fault Error) Unit := do
  let (_, program) ←
    raise id (prepareProgram view sequence transaction.programBytes transaction.argumentBytes claims)
  raise id (transactionLimits record.outcome claims)
  match record.outcome with
  | .success resultType _ effects => do
      raise id (refuse (resultType ≠ program.resultType)
        (.invalid "outcome result descriptor differs from source program"))
      let writes ← writes program program.instructions
      raise id (refuse (effects.any fun effect =>
          decide (((Outcome.effectAddress effect).table, isDelete effect) ∉ writes))
        (.invalid "outcome effect has no source write instruction"))
  | .aborted abort =>
      match program.instructions[abort.instruction]? with
      | none =>
          throw (.raised (.invalid "outcome abort instruction is outside source program"))
      | some instruction =>
          raise id (refuse (legalAbort instruction abort.reason abort.userCode = false)
            (.invalid "outcome abort fields disagree with source instruction"))

end BlopDb.Vm.History
