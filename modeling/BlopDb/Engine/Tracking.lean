/-
# What a registration appends

Beside a coordinator stand the serial course of its journal and the ticket that owns
each record.  Every move of a registration keeps them in step: an assigned transaction
becomes the next record of the journal, with the outcome that the serial history gives
it.
-/

import BlopDb.Engine.Flights
import BlopDb.Engine.Tickets

namespace BlopDb.Engine

open BlopDb.Lib
open Storage (LimitPolicy View maxU64 sha256)
open Storage.Wal (Record)
open Vm (Command Outcome SameMetadata)

/-! ## Owners -/

/-- The serial course of a journal, the records before the first submission, and the
tickets of those after it. -/
structure Trace where
  course : Course
  base : Nat
  owners : List Nat

/-- Every record after the base holds the command of its ticket. -/
structure Owned (submissions : List Command) (base : Nat) (log : List Record) (owners : List Nat) : Prop where
  counted : base + owners.length = log.length
  commands : ∀ position ticket, owners[position]? = some ticket →
    ∃ record submitted command, log[base + position]? = some record ∧ submissions[ticket]? = some submitted ∧
      recordCommand record = .ok command ∧ Completes submitted command

namespace Owned

variable {submissions : List Command} {base ticket : Nat} {log : List Record} {owners : List Nat}

/-- One more record. -/
theorem snoc (owned : Owned submissions base log owners) {record : Record} {submitted command : Command}
    (isSubmitted : submissions[ticket]? = some submitted) (decoded : recordCommand record = .ok command)
    (completes : Completes submitted command) : Owned submissions base (log ++ [record]) (owners ++ [ticket]) := by
  have counted := owned.counted
  refine ⟨by simp only [List.length_append, List.length_singleton]; omega, fun position other found => ?_⟩
  by_cases old : position < owners.length
  · rw [List.getElem?_append_left old] at found
    obtain ⟨record', submitted', command', inLog, rest⟩ := owned.commands position other found
    exact ⟨record', submitted', command', by rw [List.getElem?_append_left (by omega), inLog], rest⟩
  · obtain rfl : position = owners.length := by
      have inside := (List.getElem?_eq_some_iff.mp found).1
      rw [List.length_append, List.length_singleton] at inside
      omega
    rw [List.getElem?_append_right le_rfl, Nat.sub_self] at found
    cases found
    refine ⟨record, submitted, command, ?_, isSubmitted, decoded, completes⟩
    rw [counted, List.getElem?_append_right le_rfl, Nat.sub_self]
    rfl

/-- Later submissions change nothing. -/
theorem mono (owned : Owned submissions base log owners) (more : List Command) :
    Owned (submissions ++ more) base log owners := by
  refine ⟨owned.counted, fun position ticket found => ?_⟩
  obtain ⟨record, submitted, command, inLog, isSubmitted, rest⟩ := owned.commands position ticket found
  refine ⟨record, submitted, command, inLog, ?_, rest⟩
  rw [List.getElem?_append_left (List.getElem?_eq_some_iff.mp isSubmitted).1, isSubmitted]

end Owned

/-- Records are owned, and requests are queued, in the order of submission. -/
structure InOrder (owners : List Nat) (head : Option Head) (requests : List Request) (count : Nat) : Prop where
  increasing : (owners ++ ticketsOf head [] requests).Pairwise (· < ·)
  bounded : ∀ ticket ∈ owners ++ ticketsOf head [] requests, ticket < count

namespace InOrder

variable {owners owners' : List Nat} {head head' : Option Head} {requests requests' : List Request} {count : Nat}

/-- Requests may leave, and owners may come from the front of the queue. -/
theorem sublist (inOrder : InOrder owners head requests count)
    (fewer : (owners' ++ ticketsOf head' [] requests').Sublist (owners ++ ticketsOf head [] requests)) :
    InOrder owners' head' requests' count :=
  ⟨inOrder.increasing.sublist fewer, fun ticket member => inOrder.bounded ticket (fewer.subset member)⟩

theorem moved (inOrder : InOrder owners head requests count)
    (same : owners' ++ ticketsOf head' [] requests' = owners ++ ticketsOf head [] requests) :
    InOrder owners' head' requests' count :=
  inOrder.sublist (same ▸ List.Sublist.refl _)

/-- A new submission comes last. -/
theorem submit (inOrder : InOrder owners head requests count) (command : Command) :
    InOrder owners head (requests ++ [.execute command count]) (count + 1) := by
  have split : owners ++ ticketsOf head [] (requests ++ [.execute command count]) =
      (owners ++ ticketsOf head [] requests) ++ [count] := by
    simp only [ticketsOf, List.filterMap_append, List.append_assoc]
    rfl
  constructor
  · rw [split, List.pairwise_append]
    refine ⟨inOrder.increasing, List.pairwise_singleton _ _, fun ticket member last isLast => ?_⟩
    rw [List.mem_singleton.mp isLast]
    exact inOrder.bounded ticket member
  · intro ticket member
    rw [split] at member
    rcases List.mem_append.mp member with old | new
    · exact Nat.lt_succ_of_lt (inOrder.bounded ticket old)
    · rw [List.mem_singleton.mp new]
      exact Nat.lt_succ_self count

end InOrder

/-- A queued command is the one of its ticket. -/
def Request.Queued (submissions : List Command) : Request → Prop
  | .execute command ticket => submissions[ticket]? = some command ∧ Record.Representable command
  | .close => True

theorem Request.Queued.mono {submissions : List Command} {request : Request} (queued : request.Queued submissions)
    (more : List Command) : request.Queued (submissions ++ more) := by
  cases request with
  | close => trivial
  | execute command ticket =>
      exact ⟨by rw [List.getElem?_append_left (List.getElem?_eq_some_iff.mp queued.1).1, queued.1], queued.2⟩

/-! ## Heads -/

section Heads

variable [Sha256]

/-- The head of the queue is the next record of the log, or a command that runs alone. -/
inductive Head.Ready (submissions : List Command) (log : List Record) (final : View) (options : EngineOptions) :
    Head → Prop
  | prepared {submitted command : Command} {prepared : Prepared} {ticket : Nat}
      (isSubmitted : submissions[ticket]? = some submitted) (completes : Completes submitted command)
      (sequenced : Sequenced log final command prepared) (fits : prepared.Fits options) :
      Ready submissions log final options ⟨command, some prepared, ticket⟩
  | barrier {command : Command} {ticket : Nat} (isSubmitted : submissions[ticket]? = some command)
      (alone : command.kind ≠ 1) (represented : Record.Representable command) :
      Ready submissions log final options ⟨command, none, ticket⟩

theorem Head.Ready.mono {submissions : List Command} {log : List Record} {final : View} {options : EngineOptions}
    {head : Head} (ready : head.Ready submissions log final options) (more : List Command) :
    head.Ready (submissions ++ more) log final options := by
  have kept {ticket : Nat} {command : Command} (isSubmitted : submissions[ticket]? = some command) :
      (submissions ++ more)[ticket]? = some command := by
    rw [List.getElem?_append_left (List.getElem?_eq_some_iff.mp isSubmitted).1, isSubmitted]
  cases ready with
  | prepared isSubmitted completes sequenced fits => exact .prepared (kept isSubmitted) completes sequenced fits
  | barrier isSubmitted alone represented => exact .barrier (kept isSubmitted) alone represented

end Heads

/-! ## Registration -/

section Rounds

variable [Sha256]

/-- The records of a round in the log. -/
def Round.logged (round : Round) : List Record :=
  round.records.map fun record => ⟨record.1, sha256 record.2, record.2⟩

variable {initialPolicy : LimitPolicy} {options : EngineOptions} {submissions : List Command} {trace : Trace}
variable {pool : Pool} {round next : Round}

/-- A round with the outcomes, the final trees and the owners of the records that it gathered. -/
structure Round.Gathered (initialPolicy : LimitPolicy) (options : EngineOptions) (submissions : List Command)
    (trace : Trace) (pool : Pool) (round : Round) (more : List Outcome) (final : View) (tickets : List Nat) : Prop where
  lined : Lined initialPolicy (trace.course.source.journal ++ round.logged) (trace.course.outcomes ++ more) final
    trace.course.source.frontier trace.course.source.ahead round.schedule.entries
  flying : Flying (trace.course.outcomes ++ more) round.schedule.entries pool
  owned : Owned submissions trace.base (trace.course.source.journal ++ round.logged) (trace.owners ++ tickets)
  /-- The scheduled records belong to the tickets of their entries. -/
  ordered : (trace.owners ++ tickets).drop (trace.course.source.frontier - trace.base) =
    round.schedule.entries.map (·.ticket)
  metadata : SameMetadata trace.course.source.store.view final
  head : ∀ head ∈ round.head, head.prepared.isSome ∧
    head.Ready submissions (trace.course.source.journal ++ round.logged) final options
  queued : ∀ request ∈ round.barrier.toList ++ round.receiver, request.Queued submissions
  frontier : round.schedule.frontier = trace.course.source.frontier
  advanced : ∀ entry ∈ round.schedule.entries.head?, entry.outcome = none
  fifo : InOrder (trace.owners ++ tickets) round.head (round.barrier.toList ++ round.receiver) submissions.length

namespace Round

variable [Crc32c]

/-- A registration sends refusals only. -/
theorem Moves.refusals {view : View} (moves : Moves view options round next)
    (refused : ∀ reply ∈ round.replies, ∃ failure, reply.2 = .error failure) :
    ∀ reply ∈ next.replies, ∃ failure, reply.2 = .error failure := by
  induction moves with
  | refl => exact refused
  | tail _ move ih =>
      cases move with
      | assign => exact ih
      | receive => exact ih
      | putBack => exact ih
      | refuse =>
          intro reply member
          rcases List.mem_append.mp member with old | new
          · exact ih reply old
          · obtain rfl := List.mem_singleton.mp new
            exact ⟨_, rfl⟩

/-- A move of a registration keeps the records in step. -/
theorem Move.gathered (move : Move trace.course.source.store.view options round next)
    (exact : trace.course.Exact initialPolicy) (past : trace.base ≤ trace.course.source.frontier)
    {more : List Outcome} {final : View} {tickets : List Nat}
    (gathered : Gathered initialPolicy options submissions trace pool round more final tickets) :
    ∃ more final tickets, Gathered initialPolicy options submissions trace pool next more final tickets := by
  obtain ⟨lined, flying, owned, ordered, metadata, isReady, queued, frontier, advanced, fifo⟩ := gathered
  have counted := lined.counted
  cases move with
  | @assign command prepared ticket schedule isHead room assigned =>
      obtain ⟨-, -, rfl⟩ := assign_eq_ok.mp assigned
      obtain ⟨-, ready⟩ := isReady _ isHead
      cases ready with
      | @prepared submitted _ _ _ isSubmitted completes sequenced fits =>
      have small := sequenced.small
      have fresh : trace.course.source.ahead ((trace.course.source.journal ++ round.logged).length + 1) = none := by
        rw [Option.eq_none_iff_forall_ne_some]
        intro installed present
        obtain ⟨-, logged, -⟩ := exact.sound.pending present
        have bounded := exact.sound.logged_le logged
        have journaled := exact.sound.journaled
        rw [List.length_append] at bounded
        omega
      obtain ⟨outcome, after, lined', same⟩ := lined.assigned_next sequenced fresh ticket
      have isLogged : trace.course.source.journal ++ (round.logged ++ [prepared.logged]) =
          (trace.course.source.journal ++ round.logged) ++ [prepared.logged] := (List.append_assoc _ _ _).symm
      have nextLogged : Round.logged { round with
          schedule := { round.schedule with
            entries := round.schedule.entries ++ [newEntry round.schedule.entries ticket prepared]
            assignedBytes := round.schedule.assignedBytes + prepared.bytes.length
            reservedBytes := round.schedule.reservedBytes + prepared.reservation }
          head := none
          records := round.records ++ [(prepared.transaction.sequence, prepared.bytes)] } =
            round.logged ++ [prepared.logged] := by
        rw [Round.logged, List.map_append]
        rfl
      refine ⟨more ++ [outcome], after, tickets ++ [ticket], ?_, ?_, ?_, ?_, ?_, nofun, queued, frontier, ?_, ?_⟩
      · rw [nextLogged, isLogged, ← List.append_assoc]
        exact lined'
      · rw [← List.append_assoc]
        refine flying.assign _ (Option.some_ne_none _) fun other member => ?_
        obtain ⟨before, after', split⟩ := List.append_of_mem member
        have numbered := lined.numbered _ _ _ split
        have numbered' := sequenced.numbered
        have length := congrArg List.length split
        rw [List.length_append, List.length_cons] at length
        change other.sequence ≠ prepared.transaction.sequence
        omega
      · rw [nextLogged, isLogged, ← List.append_assoc]
        exact owned.snoc isSubmitted sequenced.decoded completes
      · rw [← List.append_assoc, List.drop_append_of_le_length, ordered, List.map_append]
        · rfl
        · have length := congrArg List.length ordered
          have := owned.counted
          rw [List.length_drop, List.length_map] at length
          omega
      · exact ⟨metadata.catalogue.trans same.catalogue, metadata.policy.trans same.policy⟩
      · intro entry isFirst
        rw [List.head?_append] at isFirst
        cases isEmpty : round.schedule.entries.head? with
        | none =>
            rw [isEmpty] at isFirst
            cases isFirst
            rfl
        | some _ =>
            rw [isEmpty] at isFirst
            cases isFirst
            exact advanced _ isEmpty
      · apply fifo.moved
        simp only [isHead, ticketsOf, Option.toList_some, Option.toList_none, List.map_cons, List.map_nil,
          List.nil_append, List.append_assoc, List.cons_append]
  | refuse vacant working isFirst =>
      refine ⟨more, final, tickets, lined, flying, owned, ordered, metadata, isReady, fun request member => ?_,
        frontier, advanced, fifo.sublist (List.Sublist.append_left ?_ _)⟩
      · apply queued
        rw [isFirst]
        rcases List.mem_append.mp member with old | new
        · exact List.mem_append_left _ old
        · exact List.mem_append_right _ (List.mem_cons_of_mem _ new)
      · rw [isFirst]
        exact List.Sublist.append_left ((List.Sublist.append_left (List.sublist_cons_self _ _) _).filterMap _) _
  | @receive transaction claims manifest ticket receiver previous command prepared vacant opened isFirst isLast
      accepted =>
      obtain ⟨isSubmitted, represented⟩ := queued (.execute (.transaction transaction claims manifest) ticket)
        (List.mem_append_right _ (by rw [isFirst]; exact List.mem_cons_self))
      obtain ⟨before, split⟩ := List.getLast?_eq_some_iff.mp isLast
      have numbered := lined.numbered _ _ _ split
      have length := congrArg List.length split
      rw [List.length_append, List.length_singleton] at length
      rw [show previous.sequence = (trace.course.source.journal ++ round.logged).length by omega] at accepted
      obtain ⟨completes, sequenced, fits⟩ := prepareRecord_eq_ok metadata represented accepted
      refine ⟨more, final, tickets, lined, flying, owned, ordered, metadata, ?_, fun request member => ?_, frontier,
        advanced, ?_⟩
      · rintro head ⟨⟩
        exact ⟨rfl, .prepared isSubmitted completes sequenced fits⟩
      · apply queued
        rw [isFirst]
        rcases List.mem_append.mp member with old | new
        · exact List.mem_append_left _ old
        · exact List.mem_append_right _ (List.mem_cons_of_mem _ new)
      · rw [vacant, opened, isFirst] at fifo
        rw [opened]
        exact fifo.moved rfl
  | putBack vacant opened isFirst =>
      refine ⟨more, final, tickets, lined, flying, owned, ordered, metadata, isReady, fun request member => ?_,
        frontier, advanced, ?_⟩
      · apply queued
        rw [isFirst, opened]
        exact member
      · rw [opened, isFirst] at fifo
        exact fifo

theorem Moves.gathered (moves : Moves trace.course.source.store.view options round next)
    (exact : trace.course.Exact initialPolicy) (past : trace.base ≤ trace.course.source.frontier)
    (more : List Outcome) (final : View) (tickets : List Nat)
    (gathered : Gathered initialPolicy options submissions trace pool round more final tickets) :
    ∃ more final tickets, Gathered initialPolicy options submissions trace pool next more final tickets := by
  induction moves with
  | refl => exact ⟨more, final, tickets, gathered⟩
  | tail _ move ih =>
      obtain ⟨more, final, tickets, gathered⟩ := ih
      exact move.gathered exact past gathered

end Round

end Rounds

end BlopDb.Engine
