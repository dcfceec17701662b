/-
# Registrations as moves

A registration assigns the prepared head, refuses requests that cannot be sequenced,
receives further transactions and puts back a request that must wait.  Whatever holds of
a round and survives each of these moves holds of the gathered group.
-/

import BlopDb.Engine.Assigned

namespace BlopDb.Engine

open BlopDb.Lib
open Storage (LimitPolicy View sha256)
open Vm (AccessManifest Command)

variable [Crc32c] [Sha256]

/-! ## Assignment -/

omit [Crc32c] in
/-- What an assignment leaves of a schedule. -/
theorem assign_eq_ok {schedule next : Schedule} {ticket : Nat} {prepared : Prepared} :
    schedule.assign ticket prepared = .ok next ↔
      schedule.assignedBytes + prepared.bytes.length < 2 ^ 64 ∧
        schedule.reservedBytes + prepared.reservation < 2 ^ 64 ∧
        next = { schedule with
          entries := schedule.entries ++ [newEntry schedule.entries ticket prepared]
          assignedBytes := schedule.assignedBytes + prepared.bytes.length
          reservedBytes := schedule.reservedBytes + prepared.reservation } := by
  simp only [Schedule.assign, bind_eq_ok, addChecked_eq_ok, pure_eq_ok, Except.ok.injEq]
  constructor
  · rintro ⟨assigned, ⟨small, rfl⟩, reserved, ⟨small', rfl⟩, rfl⟩
    exact ⟨small, small', rfl⟩
  · rintro ⟨small, small', rfl⟩
    exact ⟨_, ⟨small, rfl⟩, _, ⟨small', rfl⟩, rfl⟩

omit [Crc32c] [Sha256] in
/-- There is room for a transaction that keeps the schedule within its limits. -/
theorem hasRoom_eq_true {options : EngineOptions} {schedule : Schedule} {prepared : Prepared} :
    hasRoom options schedule prepared = .ok true ↔
      schedule.entries.length ≠ options.assignedBacklogCount ∧
        schedule.assignedBytes + prepared.bytes.length ≤ options.assignedBacklogBytes ∧
        schedule.reservedBytes + prepared.reservation ≤ options.executionBytes := by
  unfold hasRoom
  split_ifs with full
  · simp [full]
  · simp only [bind_eq_ok, subChecked_eq_ok]
    constructor
    · rintro ⟨bytes, ⟨below, rfl⟩, room⟩
      by_cases large : prepared.bytes.length > options.assignedBacklogBytes - schedule.assignedBytes
      · rw [if_pos large] at room
        cases room
      · rw [if_neg large, bind_eq_ok] at room
        obtain ⟨reservation, below', room⟩ := room
        obtain ⟨below', rfl⟩ := subChecked_eq_ok.mp below'
        have fits := of_decide_eq_true (Except.ok.inj room)
        omega
    · rintro ⟨-, below, below'⟩
      refine ⟨_, ⟨by omega, rfl⟩, ?_⟩
      rw [if_neg (by omega), bind_eq_ok]
      exact ⟨_, subChecked_eq_ok.mpr ⟨by omega, rfl⟩, congrArg Except.ok (decide_eq_true (by omega))⟩

/-! ## Moves -/

namespace Round

/-- One move of a registration. -/
inductive Move (view : View) (options : EngineOptions) : Round → Round → Prop
  | assign {round : Round} {command : Command} {prepared : Prepared} {ticket : Nat} {schedule : Schedule}
      (isHead : round.head = some ⟨command, some prepared, ticket⟩)
      (room : hasRoom options round.schedule prepared = .ok true)
      (assigned : round.schedule.assign ticket prepared = .ok schedule) :
      Move view options round { round with
        schedule := schedule
        head := none
        records := round.records ++ [(prepared.transaction.sequence, prepared.bytes)] }
  | refuse {round : Round} {transaction : Vm.Transaction} {claims : LimitPolicy}
      {manifest : Option AccessManifest} {ticket : Nat} {receiver : List Request} {failure : Failure}
      (vacant : round.head = none) (working : round.failure = none)
      (isFirst : round.receiver = .execute (.transaction transaction claims manifest) ticket :: receiver) :
      Move view options round { round with
        receiver := receiver
        replies := round.replies ++ [(ticket, .error failure)]
        failure := if failure.fatal then some (.uncertain none) else none }
  | receive {round : Round} {transaction : Vm.Transaction} {claims : LimitPolicy}
      {manifest : Option AccessManifest} {ticket : Nat} {receiver : List Request} {previous : Entry}
      {command : Command} {prepared : Prepared} (vacant : round.head = none) (opened : round.barrier = none)
      (isFirst : round.receiver = .execute (.transaction transaction claims manifest) ticket :: receiver)
      (isLast : round.schedule.entries.getLast? = some previous)
      (accepted : prepareRecord view options previous.sequence previous.digest transaction claims manifest =
        .ok (command, prepared)) :
      Move view options round { round with receiver := receiver, head := some ⟨command, some prepared, ticket⟩ }
  | putBack {round : Round} {request : Request} {receiver : List Request} (vacant : round.head = none)
      (opened : round.barrier = none) (isFirst : round.receiver = request :: receiver) :
      Move view options round { round with receiver := receiver, barrier := some request }

/-- Rounds that moves from a round reach. -/
def Moves (view : View) (options : EngineOptions) : Round → Round → Prop :=
  Relation.ReflTransGen (Move view options)

variable {view : View} {options : EngineOptions} {round next : Round} {more : Bool}

theorem admitHead_moves {command : Command} {ticket : Nat} {prepared : Prepared}
    (isHead : round.head = some ⟨command, some prepared, ticket⟩)
    (admitted : round.admitHead options ticket prepared = .ok (next, more)) :
    Moves view options round next ∧ next.barrier = round.barrier ∧ next.failure = round.failure := by
  obtain ⟨room, found, admitted⟩ := bind_eq_ok.mp admitted
  cases room with
  | true =>
      obtain ⟨schedule, assigned, same⟩ := bind_eq_ok.mp admitted
      cases same
      exact ⟨.single (.assign isHead found assigned), rfl, rfl⟩
  | false =>
      cases admitted
      exact ⟨.refl, rfl, rfl⟩

theorem receive_moves (vacant : round.head = none) (opened : round.barrier = none) (working : round.failure = none)
    (received : round.receive view options = .ok (next, more)) :
    Moves view options round next ∧ (more = true → next.barrier = none ∧ next.failure = none) := by
  unfold Round.receive at received
  split at received
  · cases received
    exact ⟨.refl, fun _ => ⟨opened, working⟩⟩
  · rename_i transaction claims manifest ticket receiver isFirst
    split at received
    · cases received
    · rename_i previous isLast
      split at received
      · cases received
      · rename_i failure refused
        cases received
        refine ⟨.single (.refuse vacant working isFirst), fun on => ⟨opened, ?_⟩⟩
        rw [if_neg]
        simpa using on
      · rename_i command prepared accepted
        obtain ⟨moves, kept, kept'⟩ := admitHead_moves rfl received
        exact ⟨.head (.receive vacant opened isFirst isLast accepted) moves,
          fun _ => ⟨kept.trans opened, kept'.trans working⟩⟩
  · rename_i request receiver _ isFirst
    cases received
    exact ⟨.single (.putBack vacant opened isFirst), nofun⟩

theorem turn_moves {quiet : Bool} (opened : round.barrier = none) (working : round.failure = none)
    (turned : round.turn view options quiet = .ok (next, more)) :
    Moves view options round next ∧ (more = true → next.barrier = none ∧ next.failure = none) := by
  unfold Round.turn at turned
  split at turned
  · rename_i command prepared ticket isHead
    obtain ⟨moves, kept, kept'⟩ := admitHead_moves isHead turned
    exact ⟨moves, fun _ => ⟨kept.trans opened, kept'.trans working⟩⟩
  · cases turned
  · rename_i vacant
    split_ifs at turned
    · exact receive_moves vacant opened working turned
    · cases turned
      exact ⟨.refl, nofun⟩

/-- A gathered group is reached by moves. -/
theorem gather_moves {quiet : List Bool} (opened : round.barrier = none) (working : round.failure = none)
    (gathered : gather view options quiet round = .ok next) : Moves view options round next := by
  induction quiet generalizing round with
  | nil =>
      cases gathered
      exact .refl
  | cons flag quiet ih =>
      obtain ⟨⟨turned, more⟩, isTurn, gathered⟩ := bind_eq_ok.mp gathered
      obtain ⟨moves, on⟩ := turn_moves opened working isTurn
      cases more with
      | true => exact moves.trans (ih (on rfl).1 (on rfl).2 gathered)
      | false =>
          cases gathered
          exact moves

end Round

end BlopDb.Engine
