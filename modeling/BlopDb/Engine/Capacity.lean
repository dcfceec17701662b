/-
# The books of a coordinator

A schedule counts the bytes and the reservations of its entries.  The counts stay the
sums over the entries and stay within the limits, so no subtraction of an admission or
of a retirement underflows, and a prepared head fits an empty schedule.
-/

import BlopDb.Engine.Tickets

namespace BlopDb.Engine

open BlopDb.Lib

/-- The books of a schedule are the sums over its entries, within the limits. -/
structure Schedule.Balanced (options : EngineOptions) (schedule : Schedule) : Prop where
  assigned : schedule.assignedBytes = (schedule.entries.map (·.bytes)).sum
  reserved : schedule.reservedBytes = (schedule.entries.map (·.reservation)).sum
  count : schedule.entries.length ≤ options.assignedBacklogCount
  bytes : schedule.assignedBytes ≤ options.assignedBacklogBytes
  execution : schedule.reservedBytes ≤ options.executionBytes

variable {options : EngineOptions} {schedule next : Schedule}

namespace Schedule.Balanced

theorem empty (frontier : Nat) : Schedule.Balanced options ⟨frontier, [], 0, 0⟩ :=
  ⟨rfl, rfl, Nat.zero_le _, Nat.zero_le _, Nat.zero_le _⟩

/-- Entries of the same sizes have the same books. -/
theorem congr (balanced : schedule.Balanced options)
    (sizes : next.entries.map (fun entry => (entry.bytes, entry.reservation)) =
      schedule.entries.map fun entry => (entry.bytes, entry.reservation))
    (assigned : next.assignedBytes = schedule.assignedBytes) (reserved : next.reservedBytes = schedule.reservedBytes) :
    next.Balanced options := by
  have bytes := congrArg (List.map Prod.fst) sizes
  have reservations := congrArg (List.map Prod.snd) sizes
  have lengths := congrArg List.length sizes
  simp only [List.map_map, Function.comp_def, List.length_map] at bytes reservations lengths
  refine ⟨?_, ?_, lengths ▸ balanced.count, assigned ▸ balanced.bytes, reserved ▸ balanced.execution⟩
  · rw [assigned, balanced.assigned, bytes]
  · rw [reserved, balanced.reserved, reservations]

/-- The check for room does not underflow. -/
theorem hasRoom_eq (balanced : schedule.Balanced options) (prepared : Prepared) :
    hasRoom options schedule prepared = .ok (decide (schedule.entries.length < options.assignedBacklogCount ∧
      schedule.assignedBytes + prepared.bytes.length ≤ options.assignedBacklogBytes ∧
      schedule.reservedBytes + prepared.reservation ≤ options.executionBytes)) := by
  obtain ⟨-, -, count, bytes, execution⟩ := balanced
  unfold hasRoom
  split_ifs with full
  · rw [decide_eq_false (by omega)]
    rfl
  · rw [subChecked_of_le bytes, ok_bind]
    split_ifs with large
    · rw [decide_eq_false (by omega)]
      rfl
    · rw [subChecked_of_le execution, ok_bind, pure_eq_ok]
      refine congrArg Except.ok (decide_eq_decide.mpr ?_)
      omega

/-- A prepared transaction fits an empty schedule. -/
theorem room_of_empty (balanced : schedule.Balanced options) (vacant : schedule.entries = [])
    (some' : options.assignedBacklogCount ≠ 0) {prepared : Prepared} (fits : prepared.Fits options) :
    hasRoom options schedule prepared = .ok true := by
  have assigned := balanced.assigned
  have reserved := balanced.reserved
  have bytes := fits.bytes
  have reservation := fits.reservation
  rw [vacant, List.map_nil, List.sum_nil] at assigned reserved
  rw [balanced.hasRoom_eq, decide_eq_true]
  rw [vacant, List.length_nil]
  omega

/-- An assignment keeps the books. -/
theorem assign [Sha256] (balanced : schedule.Balanced options) {prepared : Prepared} {ticket : Nat}
    (room : hasRoom options schedule prepared = .ok true) (assigned : schedule.assign ticket prepared = .ok next) :
    next.Balanced options := by
  obtain ⟨more, bytes, execution⟩ := hasRoom_eq_true.mp room
  obtain ⟨-, -, rfl⟩ := assign_eq_ok.mp assigned
  have count := balanced.count
  refine ⟨?_, ?_, ?_, bytes, execution⟩
  · rw [List.map_append, List.sum_append, ← balanced.assigned]
    simp [newEntry]
  · rw [List.map_append, List.sum_append, ← balanced.reserved]
    simp [newEntry]
  · rw [List.length_append, List.length_singleton]
    omega

/-- A dispatch keeps the books. -/
theorem dispatch (balanced : schedule.Balanced options) {store : Store} {window fuel worker : Nat} {pool : Pool} :
    (dispatchFrom store window fuel worker schedule pool).1.Balanced options := by
  obtain ⟨-, assigned, reserved, -⟩ := @dispatchFrom_kept store window fuel worker schedule pool
  exact balanced.congr (map_dispatchFrom fun _ => rfl) assigned reserved

/-- Retired entries leave the books. -/
theorem retire (balanced : schedule.Balanced options) {frontier : Nat} {replies : List Reply}
    (retired : Engine.retire frontier schedule.entries schedule.assignedBytes schedule.reservedBytes =
      .ok (replies, next)) : next.Balanced options := by
  obtain ⟨done, rest, split, -, -, -, -, -, rfl⟩ := retire_eq_ok retired
  obtain ⟨assigned, reserved, count, bytes, execution⟩ := balanced
  rw [split, List.map_append, List.sum_append] at assigned reserved
  rw [split, List.length_append] at count
  refine ⟨?_, ?_, ?_, ?_, ?_⟩ <;> simp only <;> omega

end Schedule.Balanced

section Records

variable [Crc32c] [Sha256]

/-- A registration keeps the books. -/
theorem Round.Moves.balanced {view : Storage.View} {round round' : Round} (moves : Round.Moves view options round round')
    (balanced : round.schedule.Balanced options) : round'.schedule.Balanced options := by
  induction moves with
  | refl => exact balanced
  | tail _ move ih =>
      cases move with
      | assign isHead room assigned => exact ih.assign room assigned
      | refuse => exact ih
      | receive => exact ih
      | putBack => exact ih

/-- A completion keeps the books. -/
theorem Schedule.Balanced.complete {store store' : Store} {checkpoint checkpoint' : Storage.View}
    {completed : List Completion} {replies : List Reply} {interval : Nat}
    {placement : Except Storage.Error Placement} (balanced : schedule.Balanced options)
    (finished : Engine.complete store checkpoint schedule completed interval placement =
      .ok (store', checkpoint', next, replies)) : next.Balanced options := by
  obtain ⟨middle, settled, isSettled, outcome⟩ := complete_eq_ok finished
  obtain ⟨-, assigned, reserved, -⟩ := settleAll_kept isSettled
  have between : settled.Balanced options :=
    balanced.congr (map_settleAll (fun _ _ _ _ => rfl) isSettled) assigned reserved
  rcases outcome with ⟨-, -, -, rfl, -⟩ | ⟨last, -, -, retired⟩
  · exact between
  · exact between.retire retired

namespace Coordinator

variable {coordinator coordinator' : Coordinator}

/-- The books are balanced until the coordinator stops, and no worker is lost. -/
structure Provisioned (options : EngineOptions) (coordinator : Coordinator) : Prop where
  balanced : coordinator.finished = false → coordinator.schedule.Balanced options
  workers : coordinator.pool.busy.length = options.workers

omit [Crc32c] [Sha256] in
theorem provisioned_start (store : Store) (rotateNext : Bool) : (start options store rotateNext).Provisioned options :=
  ⟨fun _ => .empty _, List.length_replicate⟩

omit [Crc32c] [Sha256] in
theorem length_released (completed : List Completion) (pool : Pool) :
    (completed.foldl Pool.release pool).busy.length = pool.busy.length := by
  induction completed generalizing pool with
  | nil => rfl
  | cons completion completed ih => exact (ih (pool.release completion)).trans (List.length_set ..)

/-- Every step keeps the books and the workers. -/
theorem Step.provisioned (step : Step options coordinator coordinator') (answered : coordinator.Answered)
    (provisioned : coordinator.Provisioned options) : coordinator'.Provisioned options := by
  obtain ⟨balanced, workers⟩ := provisioned
  cases step with
  | submit command fits opened => exact ⟨balanced, workers⟩
  | close opened => exact ⟨balanced, workers⟩
  | drop => exact ⟨balanced, workers⟩
  | work held returned => exact ⟨balanced, workers⟩
  | complete placement live some' healthy completed =>
      exact ⟨fun _ => (balanced live.2).complete completed, (length_released _ _).trans workers⟩
  | dispatch live healthy dispatched =>
      have between := @Schedule.Balanced.dispatch _ _ (balanced live.2) coordinator.store options.executionWindow
        coordinator.pool.busy.length 0 coordinator.pool
      have kept := @dispatchFrom_kept coordinator.store options.executionWindow coordinator.pool.busy.length 0
        coordinator.schedule coordinator.pool
      rw [← Engine.dispatch, dispatched] at between kept
      obtain ⟨-, -, -, -, -, lengths⟩ := kept
      exact ⟨fun _ => between, lengths.trans workers⟩
  | register live isHead isPrepared room turns gathered appended =>
      have moves := Round.gather_moves (answered.alone (Option.isSome_of_eq_some isHead)) rfl gathered
      exact ⟨fun _ => moves.balanced (balanced live.2), workers⟩
  | unregistered live isHead isPrepared room turns gathered =>
      have moves := Round.gather_moves (answered.alone (Option.isSome_of_eq_some isHead)) rfl gathered
      exact ⟨fun _ => moves.balanced (balanced live.2), workers⟩
  | receive live vacant taken accepted => exact ⟨balanced, workers⟩
  | reject live vacant taken refused => exact ⟨balanced, workers⟩
  | shut live vacant taken => exact ⟨balanced, workers⟩
  | commit placement live isHead barrier empty drained committed =>
      exact ⟨fun _ => (balanced live.2).congr rfl rfl rfl, workers⟩
  | uncommitted placement live isHead barrier empty drained refused => exact ⟨balanced, workers⟩
  | checkpoint placement live empty viewed published => exact ⟨balanced, workers⟩
  | publish live valid database durable digest anchor anchored segments history same kept => exact ⟨balanced, workers⟩
  | maintain live empty drained collected kept valid database durable digest anchor anchored segments history =>
      exact ⟨balanced, workers⟩
  | rotate live => exact ⟨balanced, workers⟩
  | fail live => exact ⟨balanced, workers⟩
  | finish live drained published => exact ⟨fun running => (by cases running), workers⟩
  | stop running failed => exact ⟨fun running => (by cases running), workers⟩

theorem Steps.provisioned {origin : Coordinator} (steps : Steps options origin coordinator)
    (answered : origin.Answered) (provisioned : origin.Provisioned options) :
    coordinator.Provisioned options := by
  induction steps with
  | refl => exact provisioned
  | tail steps step ih => exact step.provisioned (Steps.answered steps answered) ih

end Coordinator

end Records

end BlopDb.Engine
