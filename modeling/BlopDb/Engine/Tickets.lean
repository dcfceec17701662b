/-
# Every submission is answered once

A ticket is in a queue, at the head, in the schedule or among the replies, and it is in
one of these places only.  A coordinator that has stopped keeps no ticket, so each of
its submissions has exactly one reply.
-/

import BlopDb.Engine.Completion
import BlopDb.Engine.Registration

namespace BlopDb.Engine

open BlopDb.Lib
open Storage (View)
open Vm (Command Outcome)

/-- The ticket of a queued command. -/
def Request.ticket : Request → Option Nat
  | .execute _ ticket => some ticket
  | .close => none

/-- The tickets of a head, of scheduled entries and of queued requests. -/
def ticketsOf (head : Option Head) (entries : List Entry) (requests : List Request) : List Nat :=
  head.toList.map (·.ticket) ++ (entries.map (·.ticket) ++ requests.filterMap Request.ticket)

section Counts

variable (ticket : Nat) (head : Head) (entries entries' : List Entry) (requests requests' : List Request)

theorem count_ticketsOf_none : (ticketsOf none entries requests).count ticket =
    (entries.map (·.ticket)).count ticket + (requests.filterMap Request.ticket).count ticket := by
  simp [ticketsOf]

theorem count_ticketsOf_some : (ticketsOf (some head) entries requests).count ticket =
    [head.ticket].count ticket + (ticketsOf none entries requests).count ticket := by
  simp only [ticketsOf, Option.toList_some, Option.toList_none, List.count_append, List.map_cons, List.map_nil,
    List.count_nil, Nat.zero_add]

theorem count_requests_execute (command : Command) (ticket' : Nat) :
    ((Request.execute command ticket' :: requests).filterMap Request.ticket).count ticket =
      [ticket'].count ticket + (requests.filterMap Request.ticket).count ticket := by
  change (ticket' :: requests.filterMap Request.ticket).count ticket = _
  rw [← List.singleton_append, List.count_append]

end Counts

/-! ## Registration -/

section Rounds

variable [Crc32c] [Sha256] {view : View} {options : EngineOptions} {round next : Round}

/-- The tickets that a round still owes a reply. -/
def Round.owed (round : Round) : List Nat :=
  ticketsOf round.head round.schedule.entries (round.barrier.toList ++ round.receiver)

/-- A move keeps the tickets. -/
theorem Round.Move.tickets (move : Move view options round next) :
    (next.replies.map Prod.fst ++ next.owed).Perm (round.replies.map Prod.fst ++ round.owed) := by
  rw [List.perm_iff_count]
  intro ticket
  cases move with
  | assign isHead room assigned =>
      obtain ⟨-, -, rfl⟩ := assign_eq_ok.mp assigned
      simp only [Round.owed, isHead, List.count_append, count_ticketsOf_some, count_ticketsOf_none, List.map_append,
        newEntry, List.map_cons, List.map_nil]
      omega
  | refuse vacant working isFirst =>
      simp only [Round.owed, vacant, isFirst, List.count_append, count_ticketsOf_none, List.map_append, List.map_cons,
        List.map_nil, List.filterMap_append, count_requests_execute]
      omega
  | receive vacant opened isFirst isLast accepted =>
      simp only [Round.owed, vacant, isFirst, List.count_append, count_ticketsOf_some, count_ticketsOf_none,
        List.filterMap_append, count_requests_execute]
      omega
  | putBack vacant opened isFirst =>
      simp only [Round.owed, vacant, opened, isFirst, List.count_append, count_ticketsOf_none, Option.toList_some,
        Option.toList_none, List.nil_append, List.singleton_append]

/-- While a request waits, there is no head. -/
theorem Round.Move.alone (move : Move view options round next)
    (alone : round.head.isSome → round.barrier = none) : next.head.isSome → next.barrier = none := by
  cases move with
  | assign => exact nofun
  | refuse => exact alone
  | receive vacant opened => exact fun _ => opened
  | putBack vacant => simp [vacant]

theorem Round.Moves.tickets (moves : Moves view options round next) :
    (next.replies.map Prod.fst ++ next.owed).Perm (round.replies.map Prod.fst ++ round.owed) := by
  induction moves with
  | refl => exact List.Perm.refl _
  | tail _ move ih => exact move.tickets.trans ih

theorem Round.Moves.alone (moves : Moves view options round next)
    (alone : round.head.isSome → round.barrier = none) : next.head.isSome → next.barrier = none := by
  induction moves with
  | refl => exact alone
  | tail _ move ih => exact move.alone ih

/-- While a registration has not failed, it refused requests before sequencing. -/
theorem Round.Move.refused (move : Move view options round next)
    (refused : round.failure = none → ∀ reply ∈ round.replies, ∀ failure,
      reply.2 = .error failure → failure.fatal = false) :
    next.failure = none → ∀ reply ∈ next.replies, ∀ failure, reply.2 = .error failure → failure.fatal = false := by
  cases move with
  | assign => exact refused
  | receive => exact refused
  | putBack => exact refused
  | refuse vacant working isFirst =>
      intro works reply member failure isFailure
      rcases List.mem_append.mp member with old | new
      · exact refused working reply old failure isFailure
      · obtain rfl := List.mem_singleton.mp new
        cases isFailure
        by_contra fatal
        rw [if_pos (Bool.eq_true_of_not_eq_false fatal)] at works
        cases works

theorem Round.Moves.refused (moves : Moves view options round next)
    (refused : round.failure = none → ∀ reply ∈ round.replies, ∀ failure,
      reply.2 = .error failure → failure.fatal = false) :
    next.failure = none → ∀ reply ∈ next.replies, ∀ failure, reply.2 = .error failure → failure.fatal = false := by
  induction moves with
  | refl => exact refused
  | tail _ move ih => exact move.refused ih

end Rounds

/-! ## Completion -/

/-- The entries that leave are replied to, in order. -/
theorem tickets_complete [Crc32c] [Sha256] {store store' : Store} {checkpoint checkpoint' : View}
    {schedule schedule' : Schedule} {completed : List Completion} {replies : List Reply} {interval : Nat}
    {placement : Except Storage.Error Placement}
    (finished : complete store checkpoint schedule completed interval placement =
      .ok (store', checkpoint', schedule', replies)) :
    replies.map Prod.fst ++ schedule'.entries.map (·.ticket) = schedule.entries.map (·.ticket) := by
  obtain ⟨middle, settled, isSettled, ⟨-, -, -, rfl, rfl⟩ | ⟨last, -, -, retired⟩⟩ := complete_eq_ok finished
  · exact map_settleAll (fun _ _ _ _ => rfl) isSettled
  · obtain ⟨done, rest, split, inside, -, rfl, -, -, rfl⟩ := retire_eq_ok retired
    rw [tickets_receipt fun entry member => (inside entry member).2, ← map_settleAll (fun _ _ _ _ => rfl) isSettled,
      split, List.map_append]

/-- A completion refuses nothing. -/
theorem receipts_complete [Crc32c] [Sha256] {store store' : Store} {checkpoint checkpoint' : View}
    {schedule schedule' : Schedule} {completed : List Completion} {replies : List Reply} {interval : Nat}
    {placement : Except Storage.Error Placement}
    (finished : complete store checkpoint schedule completed interval placement =
      .ok (store', checkpoint', schedule', replies)) : ∀ reply ∈ replies, ∃ receipt, reply.2 = .ok receipt := by
  intro reply member
  obtain ⟨middle, settled, isSettled, ⟨-, -, -, -, rfl⟩ | ⟨last, -, -, retired⟩⟩ := complete_eq_ok finished
  · cases member
  · obtain ⟨done, rest, -, -, -, rfl, -, -, -⟩ := retire_eq_ok retired
    obtain ⟨entry, -, isReceipt⟩ := List.mem_filterMap.mp member
    obtain ⟨outcome, -, rfl⟩ := Option.map_eq_some_iff.mp isReceipt
    exact ⟨_, rfl⟩

theorem tickets_refusals (requests : List Request) :
    (refusals requests).map Prod.fst = requests.filterMap Request.ticket := by
  induction requests with
  | nil => rfl
  | cons request requests ih =>
      cases request with
      | execute command ticket =>
          rw [refusals, List.map_cons, ih]
          rfl
      | close =>
          rw [refusals, ih]
          rfl

/-! ## Coordinators -/

namespace Coordinator

variable {options : EngineOptions} {coordinator next : Coordinator}

/-- The tickets that a coordinator still owes a reply. -/
def owed (coordinator : Coordinator) : List Nat :=
  ticketsOf coordinator.head coordinator.schedule.entries (coordinator.pending.toList ++ coordinator.receiver)

/-- Every ticket is owed or answered. -/
structure Answered (coordinator : Coordinator) : Prop where
  accounted : (coordinator.replies.map Prod.fst ++ coordinator.owed).Perm
    (List.range coordinator.submissions.length)
  /-- While a request waits, there is no head. -/
  alone : coordinator.head.isSome → coordinator.pending = none
  /-- A coordinator that has stopped is closed and owes nothing. -/
  stopped : coordinator.finished = true → coordinator.closed = true ∧ coordinator.owed = []
  /-- Before a failure every refusal happened before sequencing. -/
  refused : coordinator.failed = false → ∀ reply ∈ coordinator.replies, ∀ failure,
    reply.2 = .error failure → failure.fatal = false

theorem tickets_taken {request : Request} {pending : Option Request} {receiver : List Request}
    (taken : coordinator.Takes request pending receiver) :
    (coordinator.pending.toList ++ coordinator.receiver).filterMap Request.ticket =
      request.ticket.toList ++ (pending.toList ++ receiver).filterMap Request.ticket := by
  cases taken with
  | pending isPending =>
      rw [isPending]
      cases request <;> rfl
  | received none' isFirst =>
      rw [none', isFirst]
      cases request <;> rfl

theorem pending_taken {request : Request} {pending : Option Request} {receiver : List Request}
    (taken : coordinator.Takes request pending receiver) : pending = none := by
  cases taken <;> rfl

variable [Crc32c] [Sha256]

/-- What a registration leaves is accounted for. -/
theorem gathered_tickets {head : Head} {quiet : List Bool} {round : Round} (answered : coordinator.Answered)
    (isHead : coordinator.head = some head)
    (gathered : Round.gather coordinator.store.view options quiet ⟨coordinator.schedule, coordinator.head,
      coordinator.receiver, coordinator.pending, [], [], none⟩ = .ok round) :
    ((coordinator.replies ++ round.replies).map Prod.fst ++ round.owed).Perm
        (List.range coordinator.submissions.length) ∧
      (round.head.isSome → round.barrier = none) ∧
      (round.failure = none → ∀ reply ∈ round.replies, ∀ failure,
        reply.2 = .error failure → failure.fatal = false) := by
  have opened := answered.alone (by rw [isHead]; rfl)
  have moves := Round.gather_moves opened rfl gathered
  refine ⟨?_, moves.alone fun _ => opened, moves.refused nofun⟩
  rw [List.map_append, List.append_assoc]
  exact (List.Perm.append_left _ moves.tickets).trans answered.accounted

/-- Every step answers a ticket once at most. -/
theorem Step.answered (step : Step options coordinator next) (answered : coordinator.Answered) : next.Answered := by
  obtain ⟨accounted, alone, stopped, refused⟩ := answered
  have counted := List.perm_iff_count.mp accounted
  cases step with
  | submit command fits opened =>
      refine ⟨List.perm_iff_count.mpr fun ticket => ?_, alone, fun ended => ?_, refused⟩
      · have before := counted ticket
        simp only [owed, ticketsOf, List.count_append, List.filterMap_append, List.length_append, List.length_singleton,
          List.range_succ, List.filterMap_cons, List.filterMap_nil, Request.ticket] at before ⊢
        omega
      · exact absurd (stopped ended).1 (by simp [opened])
  | close opened =>
      refine ⟨List.perm_iff_count.mpr fun ticket => ?_, alone, fun ended => ?_, refused⟩
      · have before := counted ticket
        simp only [owed, ticketsOf, List.count_append, List.filterMap_append, List.filterMap_cons, List.filterMap_nil,
          Request.ticket, List.count_nil] at before ⊢
        omega
      · exact absurd (stopped ended).1 (by simp [opened])
  | drop => exact ⟨accounted, alone, fun ended => ⟨rfl, (stopped ended).2⟩, refused⟩
  | work held returned => exact ⟨accounted, alone, stopped, refused⟩
  | complete placement live some' healthy completed =>
      have tickets := tickets_complete completed
      refine ⟨List.perm_iff_count.mpr fun ticket => ?_, alone, fun ended => ?_, fun working reply member => ?_⟩
      · have before := counted ticket
        rw [owed, ticketsOf, ← tickets] at before
        simp only [owed, ticketsOf, List.count_append, List.map_append] at before ⊢
        omega
      · exact absurd ended (by simp [live.2])
      · rcases List.mem_append.mp member with old | new
        · exact refused working reply old
        · intro failure isFailure
          obtain ⟨receipt, isReceipt⟩ := receipts_complete completed reply new
          rw [isReceipt] at isFailure
          cases isFailure
  | dispatch live healthy dispatched =>
      refine ⟨?_, alone, fun ended => absurd ended (by simp [live.2]), refused⟩
      have same := congrArg (fun result => result.1.entries.map (·.ticket)) dispatched
      rw [Engine.dispatch, map_dispatchFrom fun _ => rfl] at same
      simp only [owed, ticketsOf] at accounted ⊢
      rwa [← same]
  | register live isHead isPrepared room turns gathered appended =>
      obtain ⟨perm, alone', early⟩ := gathered_tickets ⟨accounted, alone, stopped, refused⟩ isHead gathered
      refine ⟨perm, alone', fun ended => absurd ended (by simp [live.2]), fun working reply member => ?_⟩
      rcases List.mem_append.mp member with old | new
      · exact refused working reply old
      · refine early ?_ reply new
        unfold registerGroup at appended
        split at appended
        · cases appended
        · assumption
  | unregistered live isHead isPrepared room turns gathered =>
      obtain ⟨perm, alone', -⟩ := gathered_tickets ⟨accounted, alone, stopped, refused⟩ isHead gathered
      exact ⟨perm, alone', fun ended => absurd ended (by simp [live.2]), nofun⟩
  | receive live vacant taken accepted =>
      refine ⟨List.perm_iff_count.mpr fun ticket => ?_, fun _ => pending_taken taken,
        fun ended => absurd ended (by simp [live.2]), refused⟩
      have before := counted ticket
      simp only [owed, vacant, List.count_append, count_ticketsOf_none, count_ticketsOf_some, tickets_taken taken,
        Request.ticket, Option.toList_some] at before ⊢
      omega
  | reject live vacant taken refused' =>
      refine ⟨List.perm_iff_count.mpr fun ticket => ?_, fun _ => pending_taken taken,
        fun ended => absurd ended (by simp [live.2]), fun working reply member failure isFailure => ?_⟩
      · have before := counted ticket
        simp only [owed, vacant, List.count_append, List.map_append, List.map_cons, List.map_nil, count_ticketsOf_none,
          tickets_taken taken, Request.ticket, Option.toList_some] at before ⊢
        omega
      · rcases List.mem_append.mp member with old | new
        · exact refused live.1 reply old failure isFailure
        · obtain rfl := List.mem_singleton.mp new
          cases isFailure
          exact working
  | shut live vacant taken =>
      refine ⟨List.perm_iff_count.mpr fun ticket => ?_, fun _ => pending_taken taken,
        fun ended => absurd ended (by simp [live.2]), refused⟩
      have before := counted ticket
      simp only [owed, vacant, List.count_append, count_ticketsOf_none, tickets_taken taken,
        Request.ticket, Option.toList_none, List.count_nil] at before ⊢
      omega
  | commit placement live isHead barrier empty drained committed =>
      refine ⟨List.perm_iff_count.mpr fun ticket => ?_, nofun, fun ended => absurd ended (by simp [live.2]), ?_⟩
      · have before := counted ticket
        simp only [owed, isHead, List.count_append, List.map_append, List.map_cons, List.map_nil, count_ticketsOf_none,
          count_ticketsOf_some] at before ⊢
        omega
      · intro working reply member failure isFailure
        rcases List.mem_append.mp member with old | new
        · exact refused working reply old failure isFailure
        · obtain rfl := List.mem_singleton.mp new
          cases isFailure
  | uncommitted placement live isHead barrier empty drained refused' =>
      refine ⟨List.perm_iff_count.mpr fun ticket => ?_, nofun, fun ended => absurd ended (by simp [live.2]), ?_⟩
      · have before := counted ticket
        simp only [owed, isHead, List.count_append, List.map_append, List.map_cons, List.map_nil, count_ticketsOf_none,
          count_ticketsOf_some] at before ⊢
        omega
      · intro working reply member failure isFailure
        rcases List.mem_append.mp member with old | new
        · exact refused live.1 reply old failure isFailure
        · obtain rfl := List.mem_singleton.mp new
          cases isFailure
          exact working
  | checkpoint placement live empty viewed published => exact ⟨accounted, alone, stopped, refused⟩
  | publish live valid database durable digest anchor anchored segments history same kept =>
      exact ⟨accounted, alone, stopped, refused⟩
  | maintain live empty drained collected kept valid database durable digest anchor anchored segments history =>
      exact ⟨accounted, alone, stopped, refused⟩
  | rotate live => exact ⟨accounted, alone, stopped, refused⟩
  | fail live => exact ⟨accounted, alone, stopped, nofun⟩
  | finish live drained published =>
      obtain ⟨closed, noRequest, noPending, noHead, noEntries⟩ := drained
      refine ⟨accounted, alone, fun _ => ⟨closed, ?_⟩, refused⟩
      simp [owed, ticketsOf, noRequest, noPending, noHead, noEntries]
  | stop running failed =>
      refine ⟨List.perm_iff_count.mpr fun ticket => ?_, nofun, fun _ => ⟨rfl, rfl⟩, nofun⟩
      have before := counted ticket
      simp only [owed, closing, ticketsOf, List.map_append, List.map_map, tickets_refusals, List.count_append,
        Option.toList_none, List.map_nil, List.append_nil, List.filterMap_nil, Function.comp_def] at before ⊢
      omega

omit [Crc32c] [Sha256] in
theorem answered_start (store : Store) (rotateNext : Bool) : (start options store rotateNext).Answered :=
  ⟨List.Perm.refl _, nofun, nofun, nofun⟩

theorem Steps.answered {origin : Coordinator} (steps : Steps options origin next) (answered : origin.Answered) :
    next.Answered := by
  induction steps with
  | refl => exact answered
  | tail _ step ih => exact step.answered ih

end Coordinator

end BlopDb.Engine
