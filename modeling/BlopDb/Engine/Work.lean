/-
# The work of a request

A request is received, becomes the head, is assigned, is handed to a worker, is reported
and is installed.  Each of these uses up some of its work, and nothing else adds any, so
a run moves requests at most seven times for each that entered.
-/

import BlopDb.Engine.Capacity
import BlopDb.Engine.SchedulerRuns

namespace BlopDb.Engine

open BlopDb.Lib

/-- The entries that have not been handed to a worker. -/
def waiting (entries : List Entry) : Nat := entries.countP (·.prepared.isSome)

namespace Round

/-- What a registration still has to do. -/
def work (round : Round) : Nat :=
  7 * round.receiver.length + 6 * round.barrier.toList.length + 5 * round.head.toList.length +
    3 * waiting round.schedule.entries + round.schedule.entries.length

variable [Crc32c] [Sha256] {view : Storage.View} {options : EngineOptions} {round next : Round}

theorem Move.work_lt (move : Move view options round next) : next.work < round.work := by
  cases move with
  | assign isHead room assigned =>
      obtain ⟨-, -, rfl⟩ := assign_eq_ok.mp assigned
      simp only [work, waiting, isHead, newEntry, List.countP_append, List.countP_singleton, Option.isSome_some,
        if_true, Option.toList_some, Option.toList_none, List.length_cons, List.length_nil, List.length_append]
      omega
  | refuse vacant working isFirst =>
      simp only [work, isFirst, List.length_cons]
      omega
  | receive vacant opened isFirst isLast accepted =>
      simp only [work, vacant, isFirst, List.length_cons, Option.toList_some, Option.toList_none, List.length_nil]
      omega
  | putBack vacant opened isFirst =>
      simp only [work, opened, isFirst, List.length_cons, Option.toList_some, Option.toList_none, List.length_nil]
      omega

theorem Moves.work_le (moves : Moves view options round next) : next.work ≤ round.work := by
  induction moves with
  | refl => exact le_rfl
  | tail _ move ih => exact move.work_lt.le.trans ih

/-- A registration with room assigns its head first. -/
theorem gather_work_lt {quiet : List Bool} {head : Head} {prepared : Prepared} (isHead : round.head = some head)
    (isPrepared : head.prepared = some prepared) (room : hasRoom options round.schedule prepared = .ok true)
    (turns : quiet ≠ []) (opened : round.barrier = none) (working : round.failure = none)
    (gathered : gather view options quiet round = .ok next) : next.work < round.work := by
  obtain ⟨flag, quiet, rfl⟩ := List.exists_cons_of_ne_nil turns
  obtain ⟨command, _, ticket⟩ := head
  cases isPrepared
  obtain ⟨⟨turned, more⟩, isTurn, gathered⟩ := bind_eq_ok.mp gathered
  unfold turn at isTurn
  rw [isHead] at isTurn
  simp only [admitHead, room, ok_bind, if_true] at isTurn
  obtain ⟨schedule, assigned, same⟩ := bind_eq_ok.mp isTurn
  cases same
  change gather view options quiet _ = .ok next at gathered
  have first : Round.work _ < round.work := @Move.work_lt _ _ view options _ _ (.assign isHead room assigned)
  refine (Moves.work_le (gather_moves ?_ ?_ gathered)).trans_lt first
  · exact opened
  · exact working

end Round

/-! ## Dispatch and completion -/

section Pools

variable {store store' : Store} {schedule schedule' : Schedule}

theorem waiting_takeReady {frontier durable window : Nat} {entries after : List Entry}
    {prepared : Vm.PreparedTransaction} (taken : takeReady frontier durable window entries = some (prepared, after)) :
    waiting after + 1 = waiting entries := by
  induction entries generalizing after with
  | nil => cases taken
  | cons entry entries ih =>
      unfold takeReady at taken
      split at taken
      · rename_i isPrepared isReady
        cases taken
        simp [waiting, isPrepared]
      · obtain ⟨⟨prepared', rest⟩, found, same⟩ := Option.map_eq_some_iff.mp taken
        cases same
        have later := ih found
        simp only [waiting, List.countP_cons] at later ⊢
        omega

/-- A dispatch moves entries to workers. -/
theorem dispatchFrom_work {window fuel worker : Nat} {pool : Pool} :
    let result := dispatchFrom store window fuel worker schedule pool
    waiting result.1.entries + result.2.1.running.length = waiting schedule.entries + pool.running.length ∧
      (result.2.2 = true → pool.running.length < result.2.1.running.length) ∧
        pool.running.length ≤ result.2.1.running.length := by
  induction fuel generalizing worker schedule pool with
  | zero => exact ⟨rfl, nofun, le_rfl⟩
  | succ fuel ih =>
      unfold dispatchFrom
      split
      · split
        · exact ⟨rfl, nofun, le_rfl⟩
        · rename_i prepared entries taken
          obtain ⟨moved, -, most⟩ := @ih { schedule with entries := entries } (worker + 1) { pool with
            busy := pool.busy.set worker true
            running := pool.running ++ [(worker, ⟨prepared, store.view⟩)] }
          have less := waiting_takeReady taken
          simp only [List.length_append, List.length_singleton] at moved most
          exact ⟨moved.trans (by omega), fun _ => most, Nat.le_of_succ_le most⟩
      · exact ih

/-- A settlement hands nothing out, and retired entries wait no longer. -/
theorem waiting_complete [Crc32c] [Sha256] {checkpoint checkpoint' : Storage.View} {completed : List Completion}
    {replies : List Reply} {interval : Nat} {placement : Except Storage.Error Placement}
    (finished : complete store checkpoint schedule completed interval placement =
      .ok (store', checkpoint', schedule', replies)) :
    waiting schedule'.entries ≤ waiting schedule.entries ∧ schedule'.entries.length ≤ schedule.entries.length := by
  obtain ⟨middle, settled, isSettled, outcome⟩ := complete_eq_ok finished
  have same : waiting settled.entries = waiting schedule.entries := by
    have held := @map_settleAll Bool (·.prepared.isSome) (fun _ _ _ _ => rfl) _ _ _ _ _ isSettled
    have counted := congrArg (List.countP id) held
    rw [List.countP_map, List.countP_map] at counted
    exact counted
  have length : settled.entries.length = schedule.entries.length := by
    have held := @map_settleAll Nat (·.sequence) (fun _ _ _ _ => rfl) _ _ _ _ _ isSettled
    simpa only [List.length_map] using congrArg List.length held
  rcases outcome with ⟨-, -, -, rfl, -⟩ | ⟨last, -, -, retired⟩
  · exact ⟨same.le, length.le⟩
  · obtain ⟨done, rest, split, -, -, -, -, -, rfl⟩ := retire_eq_ok retired
    rw [← same, ← length, split, waiting, waiting, List.countP_append, List.length_append]
    exact ⟨Nat.le_add_left _ _, Nat.le_add_left _ _⟩

theorem running_released (completed : List Completion) (pool : Pool) :
    (completed.foldl Pool.release pool).running = pool.running := by
  induction completed generalizing pool with
  | nil => rfl
  | cons completion completed ih => exact ih (pool.release completion)

end Pools

/-! ## Coordinators -/

namespace Coordinator

/-- What a coordinator and its workers still have to do. -/
def work (coordinator : Coordinator) : Nat :=
  7 * coordinator.receiver.length + 6 * coordinator.pending.toList.length + 5 * coordinator.head.toList.length +
    3 * waiting coordinator.schedule.entries + coordinator.schedule.entries.length +
    2 * coordinator.pool.running.length + coordinator.pool.completed.length

/-- No request moved. -/
structure Still (coordinator next : Coordinator) : Prop where
  receiver : next.receiver = coordinator.receiver
  pending : next.pending = coordinator.pending
  head : next.head = coordinator.head
  entries : next.schedule.entries = coordinator.schedule.entries
  pool : next.pool = coordinator.pool

/-- A request entered, and nothing else happened. -/
def Entered (coordinator next : Coordinator) : Prop :=
  ∃ request, next.receiver = coordinator.receiver ++ [request] ∧ next.pending = coordinator.pending ∧
    next.head = coordinator.head ∧ next.schedule = coordinator.schedule ∧ next.pool = coordinator.pool

variable {coordinator next : Coordinator}

theorem Still.work_eq (still : Still coordinator next) : next.work = coordinator.work := by
  rw [work, work, still.receiver, still.pending, still.head, still.entries, still.pool]

theorem Entered.work_eq (entered : Entered coordinator next) : next.work = coordinator.work + 7 := by
  obtain ⟨request, receiver, pending, head, schedule, pool⟩ := entered
  rw [work, work, receiver, pending, head, schedule, pool, List.length_append, List.length_singleton]
  omega

theorem work_taken {request : Request} {pending : Option Request} {receiver : List Request}
    (taken : coordinator.Takes request pending receiver) :
    7 * receiver.length + 6 * pending.toList.length + 6 ≤
      7 * coordinator.receiver.length + 6 * coordinator.pending.toList.length := by
  cases taken with
  | pending isPending =>
      rw [isPending]
      exact le_rfl
  | received none' isFirst =>
      rw [none', isFirst, List.length_cons]
      simp only [Option.toList_none, List.length_nil]
      omega

variable [Crc32c] [Sha256] {options : EngineOptions}

/-- A registration moves requests. -/
theorem gathered_work_lt (answered : coordinator.Answered) {head : Head} {prepared : Prepared} {quiet : List Bool}
    {round : Round} (isHead : coordinator.head = some head) (isPrepared : head.prepared = some prepared)
    (room : hasRoom options coordinator.schedule prepared = .ok true)
    (turns : quiet.length = min coordinator.receiver.length 63 + 1)
    (gathered : Round.gather coordinator.store.view options quiet ⟨coordinator.schedule, coordinator.head,
      coordinator.receiver, coordinator.pending, [], [], none⟩ = .ok round) :
    7 * round.receiver.length + 6 * round.barrier.toList.length + 5 * round.head.toList.length +
        3 * waiting round.schedule.entries + round.schedule.entries.length + 2 * coordinator.pool.running.length +
        coordinator.pool.completed.length < coordinator.work := by
  have some' : quiet ≠ [] := List.ne_nil_of_length_pos (by omega)
  have less := Round.gather_work_lt isHead isPrepared room some'
    (answered.alone (Option.isSome_of_eq_some isHead)) rfl gathered
  simp only [Round.work] at less
  simp only [work]
  omega

/-- A step adds a request, moves some, or leaves all where they are. -/
theorem Step.spends (step : Step options coordinator next) (answered : coordinator.Answered) :
    Entered coordinator next ∨ Still coordinator next ∨ next.work < coordinator.work := by
  cases step with
  | submit command fits opened => exact .inl ⟨_, rfl, rfl, rfl, rfl, rfl⟩
  | close opened => exact .inl ⟨_, rfl, rfl, rfl, rfl, rfl⟩
  | drop => exact .inr (.inl ⟨rfl, rfl, rfl, rfl, rfl⟩)
  | work held returned =>
      refine .inr (.inr ?_)
      simp only [Coordinator.work, held, List.length_append, List.length_cons, List.length_nil]
      omega
  | complete placement live some' healthy completed =>
      refine .inr (.inr ?_)
      have less := waiting_complete completed
      have some'' := List.length_pos_iff.mpr some'
      simp only [Coordinator.work, running_released, List.length_nil]
      omega
  | dispatch live healthy dispatched =>
      refine .inr (.inr ?_)
      obtain ⟨moved, more, -⟩ := @dispatchFrom_work coordinator.store coordinator.schedule options.executionWindow
        coordinator.pool.busy.length 0 coordinator.pool
      obtain ⟨-, -, -, kept, -⟩ := @dispatchFrom_kept coordinator.store options.executionWindow
        coordinator.pool.busy.length 0 coordinator.schedule coordinator.pool
      have same := congrArg List.length (@map_dispatchFrom Nat (·.sequence) (fun _ => rfl) coordinator.store
        options.executionWindow coordinator.pool.busy.length 0 coordinator.schedule coordinator.pool)
      rw [← Engine.dispatch, dispatched] at moved more kept same
      have more := more rfl
      simp only [List.length_map] at moved more kept same
      simp only [Coordinator.work, kept]
      omega
  | register live isHead isPrepared room turns gathered appended =>
      exact .inr (.inr (gathered_work_lt answered isHead isPrepared room turns gathered))
  | unregistered live isHead isPrepared room turns gathered =>
      exact .inr (.inr (gathered_work_lt answered isHead isPrepared room turns gathered))
  | receive live vacant taken accepted =>
      refine .inr (.inr ?_)
      have less := work_taken taken
      simp only [Coordinator.work, vacant, Option.toList_some, Option.toList_none, List.length_cons, List.length_nil]
      omega
  | reject live vacant taken refused =>
      refine .inr (.inr ?_)
      have less := work_taken taken
      simp only [Coordinator.work]
      omega
  | shut live vacant taken =>
      refine .inr (.inr ?_)
      have less := work_taken taken
      simp only [Coordinator.work]
      omega
  | commit placement live isHead barrier empty drained committed =>
      refine .inr (.inr ?_)
      simp only [Coordinator.work, isHead, Option.toList_some, Option.toList_none, List.length_cons, List.length_nil]
      omega
  | uncommitted placement live isHead barrier empty drained refused =>
      refine .inr (.inr ?_)
      simp only [Coordinator.work, isHead, Option.toList_some, Option.toList_none, List.length_cons, List.length_nil]
      omega
  | checkpoint placement live empty viewed published => exact .inr (.inl ⟨rfl, rfl, rfl, rfl, rfl⟩)
  | publish live valid database durable digest anchor anchored segments history same kept =>
      exact .inr (.inl ⟨rfl, rfl, rfl, rfl, rfl⟩)
  | maintain live empty drained collected kept valid database durable digest anchor anchored segments history =>
      exact .inr (.inl ⟨rfl, rfl, rfl, rfl, rfl⟩)
  | rotate live => exact .inr (.inl ⟨rfl, rfl, rfl, rfl, rfl⟩)
  | fail live => exact .inr (.inl ⟨rfl, rfl, rfl, rfl, rfl⟩)
  | finish live drained published => exact .inr (.inl ⟨rfl, rfl, rfl, rfl, rfl⟩)
  | stop running failed =>
      by_cases still : coordinator.receiver = [] ∧ coordinator.pending = none ∧ coordinator.head = none ∧
          coordinator.schedule.entries = []
      · obtain ⟨receiver, pending, head, entries⟩ := still
        exact .inr (.inl ⟨receiver.symm, pending.symm, head.symm, entries.symm, rfl⟩)
      · refine .inr (.inr ?_)
        simp only [Coordinator.work, waiting, List.countP_nil, List.length_nil, Option.toList_none]
        by_contra most
        refine still ⟨List.length_eq_zero_iff.mp (by omega), ?_, ?_, List.length_eq_zero_iff.mp (by omega)⟩
        · cases isPending : coordinator.pending with
          | none => rfl
          | some request =>
              rw [isPending, Option.toList_some, List.length_singleton] at most
              omega
        · cases isHead : coordinator.head with
          | none => rfl
          | some head =>
              rw [isHead, Option.toList_some, List.length_singleton] at most
              omega

/-! ## Runs -/

/-- A run, with the requests that entered and the steps that moved some. -/
inductive Counted (options : EngineOptions) (origin : Coordinator) : Coordinator → Nat → Nat → Prop
  | start : Counted options origin origin 0 0
  | enter {coordinator next : Coordinator} {requests moves : Nat} (run : Counted options origin coordinator requests moves)
      (step : Step options coordinator next) (entered : Entered coordinator next) :
      Counted options origin next (requests + 1) moves
  | rest {coordinator next : Coordinator} {requests moves : Nat} (run : Counted options origin coordinator requests moves)
      (step : Step options coordinator next) (still : Still coordinator next) :
      Counted options origin next requests moves
  | move {coordinator next : Coordinator} {requests moves : Nat} (run : Counted options origin coordinator requests moves)
      (step : Step options coordinator next) (moved : ¬ (Entered coordinator next ∨ Still coordinator next)) :
      Counted options origin next requests (moves + 1)

theorem Counted.steps {origin : Coordinator} {requests moves : Nat}
    (run : Counted options origin coordinator requests moves) : Steps options origin coordinator := by
  induction run with
  | start => exact .refl
  | enter _ step _ ih => exact ih.tail step
  | rest _ step _ ih => exact ih.tail step
  | move _ step _ ih => exact ih.tail step

/-- The steps of every run are counted. -/
theorem Steps.counted {origin : Coordinator} (steps : Steps options origin coordinator) :
    ∃ requests moves, Counted options origin coordinator requests moves := by
  induction steps with
  | refl => exact ⟨0, 0, .start⟩
  | @tail before after _ step ih =>
      obtain ⟨requests, moves, run⟩ := ih
      by_cases outside : Entered before after ∨ Still before after
      · rcases outside with entered | still
        · exact ⟨_, _, run.enter step entered⟩
        · exact ⟨_, _, run.rest step still⟩
      · exact ⟨_, _, run.move step outside⟩

/-- A run moves requests at most seven times for each that entered. -/
theorem runs_bounded {store : Store} {rotateNext : Bool} {requests moves : Nat}
    (run : Counted options (start options store rotateNext) next requests moves) :
    moves + next.work ≤ 7 * requests := by
  induction run with
  | start => exact le_rfl
  | enter run step entered ih =>
      rw [entered.work_eq]
      omega
  | rest run step still ih =>
      rw [still.work_eq]
      exact ih
  | move run step moved ih =>
      rcases step.spends (Steps.answered run.steps (answered_start store rotateNext)) with entered | still | less
      · exact absurd (.inl entered) moved
      · exact absurd (.inr still) moved
      · omega

end Coordinator

/-! ## A sample run -/

namespace Sample

open Coordinator (Counted start)

theorem runs_bounded_closed : ∃ next requests moves, Counted options (start options fresh false) next requests moves ∧
    moves + next.work ≤ 7 * requests := by
  obtain ⟨next, run, -⟩ := closed_run
  obtain ⟨requests, moves, counted⟩ := run.counted
  exact ⟨next, requests, moves, counted, Coordinator.runs_bounded counted⟩

end Sample

end BlopDb.Engine
