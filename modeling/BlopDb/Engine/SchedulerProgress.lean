/-
# Progress of a coordinator

The first durable transaction above the frontier waits for nothing, so while one is
unresolved a worker holds one, a report waits or a dispatch hands one out, and a head
that does not fit waits for entries that leave.  A coordinator therefore goes on until
it owes no reply.  A request costs it and its workers seven steps at most.
-/

import BlopDb.Engine.Capacity
import BlopDb.Engine.SchedulerRuns

namespace BlopDb.Engine

open BlopDb.Lib
open Storage (LimitPolicy View)
open Vm (Command Outcome)

/-! ## Dispatch -/

section Dispatch

variable {frontier durable window : Nat} {entries : List Entry}

/-- A dispatch finds a ready entry. -/
theorem takeReady_total (ready : ∃ entry ∈ entries, entry.ready frontier durable window = true) :
    ∃ result, takeReady frontier durable window entries = some result := by
  induction entries with
  | nil =>
      obtain ⟨entry, member, -⟩ := ready
      cases member
  | cons entry entries ih =>
      unfold takeReady
      split
      · exact ⟨_, rfl⟩
      · rename_i unready
        have later : ∃ entry ∈ entries, entry.ready frontier durable window = true := by
          obtain ⟨other, member, isReady⟩ := ready
          rcases List.mem_cons.mp member with rfl | later
          · have held := isReady
            rw [Entry.ready, Bool.and_assoc, Bool.and_eq_true] at held
            obtain ⟨prepared, isPrepared⟩ := Option.isSome_iff_exists.mp held.1
            exact absurd isReady (unready prepared isPrepared)
          · exact ⟨other, later, isReady⟩
        obtain ⟨result, found⟩ := ih later
        rw [found]
        exact ⟨_, rfl⟩

/-- An idle worker is given a ready entry. -/
theorem dispatchFrom_total {store : Store} {fuel worker idle : Nat} {schedule : Schedule} {pool : Pool}
    (above : worker ≤ idle) (below : idle < worker + fuel) (isIdle : pool.busy[idle]? = some false)
    (ready : ∃ result, takeReady schedule.frontier store.manifest.durableSequence window schedule.entries = some result) :
    (dispatchFrom store window fuel worker schedule pool).2.2 = true := by
  induction fuel generalizing worker with
  | zero => omega
  | succ fuel ih =>
      unfold dispatchFrom
      split_ifs with now
      · obtain ⟨⟨prepared, rest⟩, found⟩ := ready
        rw [found]
      · refine ih ?_ (by omega)
        rcases Nat.lt_or_eq_of_le above with more | rfl
        · exact more
        · exact absurd isIdle now

end Dispatch

/-- A valid choice of settings. -/
theorem EngineOptions.validate_eq_ok {options : EngineOptions} (valid : options.validate = .ok ()) :
    1 ≤ options.workers ∧ options.executionWindow ≠ 0 ∧ options.assignedBacklogCount ≠ 0 := by
  have accepted := refuse_eq_ok.mp valid
  omega

section Records

variable [Crc32c] [Sha256]

namespace Coordinator

variable {initialPolicy : LimitPolicy} {options : EngineOptions} {course : Course} {store : Store} {rotateNext : Bool}
variable {coordinator next : Coordinator} {trace : Trace}

/-- The first entry can be handed out when nothing is in flight. -/
theorem Working.ready (working : coordinator.Working initialPolicy options trace)
    (exact : trace.course.Exact initialPolicy) (window : options.executionWindow ≠ 0)
    (grounded : coordinator.pool.running = []) (reported : coordinator.pool.completed = []) {entry : Entry}
    {rest : List Entry} (isFirst : coordinator.schedule.entries = entry :: rest) :
    entry.ready coordinator.schedule.frontier coordinator.store.manifest.durableSequence options.executionWindow = true := by
  have unresolved : entry.outcome = none := working.advanced entry (by rw [isFirst]; rfl)
  have counted := working.lined.counted
  have numbered := working.lined.numbered [] entry rest isFirst
  have durable := exact.sound.journaled
  rw [isFirst, List.length_cons] at counted
  rw [List.length_nil, Nat.add_zero] at numbered
  obtain ⟨prepared, outcome, -, progress⟩ := working.lined.assigned [] entry rest isFirst
  have isPrepared : entry.prepared ≠ none := by
    intro absent
    have flies := (working.flying.inFlight entry (by rw [isFirst]; exact List.mem_cons_self)).mpr ⟨absent, unresolved⟩
    rw [Pool.flights, grounded, reported] at flies
    cases flies
  have free : entry.dependencies = [] := by
    cases progress with
    | unresolved none' taken writes dependencies => exact dependencies
    | resolved some' =>
        rw [unresolved] at some'
        cases some'
  rw [Entry.ready, free, inWindow, ← working.store, working.frontier]
  simp only [Option.isSome_iff_ne_none.mpr isPrepared, List.isEmpty_nil, Bool.true_and, decide_eq_true_eq]
  omega

/-- While a transaction is unresolved, one is held, one is reported or one can be handed
out. -/
theorem Working.dispatches (working : coordinator.Working initialPolicy options trace)
    (exact : trace.course.Exact initialPolicy) (provisioned : coordinator.Provisioned options)
    (valid : options.validate = .ok ()) (grounded : coordinator.pool.running = [])
    (reported : coordinator.pool.completed = []) (waits : coordinator.schedule.entries ≠ []) :
    ∃ schedule pool, Engine.dispatch coordinator.store coordinator.schedule coordinator.pool options.executionWindow =
      (schedule, pool, true) := by
  obtain ⟨workers, window, -⟩ := EngineOptions.validate_eq_ok valid
  obtain ⟨entry, rest, isFirst⟩ := List.exists_cons_of_ne_nil waits
  have ready := working.ready exact window grounded reported isFirst
  have some' : 0 < coordinator.pool.busy.length := by
    rw [provisioned.workers]
    exact workers
  have isIdle : coordinator.pool.busy[0]? = some false := by
    rw [List.getElem?_eq_getElem some', Option.some_inj, Bool.eq_false_iff]
    intro isBusy
    have held := (working.flying.busy 0).mp (by rw [List.getElem?_eq_getElem some', isBusy])
    rw [Pool.crew, grounded, reported] at held
    cases held
  refine ⟨_, _, Prod.ext rfl (Prod.ext rfl ?_)⟩
  exact dispatchFrom_total le_rfl (by omega) isIdle
    (takeReady_total ⟨entry, by rw [isFirst]; exact List.mem_cons_self, ready⟩)

/-! ## Progress -/

/-- What a coordinator or a worker can go on with. -/
inductive Enabled (options : EngineOptions) (coordinator : Coordinator) : Prop
  | work {worker : Nat} {job : Job} {outcome : Outcome} (held : (worker, job) ∈ coordinator.pool.running)
      (ran : Vm.interpretPrepared job.view job.prepared = some (.ok outcome)) : Enabled options coordinator
  | complete (some' : coordinator.pool.completed ≠ []) : Enabled options coordinator
  | dispatch {schedule : Schedule} {pool : Pool} (dispatched : Engine.dispatch coordinator.store coordinator.schedule
      coordinator.pool options.executionWindow = (schedule, pool, true)) : Enabled options coordinator
  | register {head : Head} {prepared : Prepared} (isHead : coordinator.head = some head)
      (isPrepared : head.prepared = some prepared)
      (room : hasRoom options coordinator.schedule prepared = .ok true) : Enabled options coordinator
  | barrier {head : Head} (isHead : coordinator.head = some head) (barrier : head.prepared = none)
      (empty : coordinator.schedule.entries = []) : Enabled options coordinator
  | take {request : Request} {pending : Option Request} {receiver : List Request} (vacant : coordinator.head = none)
      (taken : coordinator.Takes request pending receiver) : Enabled options coordinator

omit [Crc32c] in
/-- A coordinator without entries goes on until it owes nothing. -/
theorem Working.goes_on (working : coordinator.Working initialPolicy options trace)
    (balanced : coordinator.schedule.Balanced options) (count : options.assignedBacklogCount ≠ 0)
    (empty : coordinator.schedule.entries = []) : coordinator.Enabled options ∨ coordinator.owed = [] := by
  cases isHead : coordinator.head with
  | some head =>
      refine .inl ?_
      have ready := working.head head isHead
      cases ready with
      | prepared isSubmitted completes sequenced fits =>
          exact .register isHead rfl (balanced.room_of_empty empty count fits)
      | barrier isSubmitted alone represented => exact .barrier isHead rfl empty
  | none =>
      cases isPending : coordinator.pending with
      | some request => exact .inl (.take isHead (.pending isPending))
      | none =>
          cases isReceiver : coordinator.receiver with
          | cons request receiver => exact .inl (.take isHead (.received isPending isReceiver))
          | nil =>
              refine .inr ?_
              simp [owed, ticketsOf, empty, isHead, isPending, isReceiver]

/-- The schedule holds the durable records above the frontier, each waiting for the
unresolved earlier ones that may write what it reads, within the limits. -/
structure Scheduling (options : EngineOptions) (coordinator : Coordinator) : Prop where
  counted : coordinator.schedule.frontier + coordinator.schedule.entries.length =
    coordinator.store.manifest.durableSequence
  numbered : ∀ before entry after, coordinator.schedule.entries = before ++ entry :: after →
    entry.sequence = coordinator.schedule.frontier + before.length + 1
  dependencies : ∀ before entry after, coordinator.schedule.entries = before ++ entry :: after →
    entry.outcome = none → ∃ manifest, (∀ prepared ∈ entry.prepared, prepared.manifest = manifest) ∧
      entry.writes = manifest.writes ∧ entry.dependencies = waitsFor before manifest
  balanced : coordinator.schedule.Balanced options
  /-- A prepared head fits the empty schedule. -/
  fits : ∀ head ∈ coordinator.head, ∀ prepared ∈ head.prepared, prepared.Fits options

end Coordinator

end Records

/-! ## A sample run -/

namespace Sample

open Coordinator (Steps start)

/-- A command is submitted. -/
theorem submitted_run : ∃ next, Steps options (start options fresh false) next ∧ next.Live ∧ next.replies = [] ∧
    next.submissions.length = 1 :=
  ⟨_, .single (.submit (.limits policy) trivial rfl), ⟨rfl, rfl⟩, rfl, rfl⟩

end Sample

end BlopDb.Engine
