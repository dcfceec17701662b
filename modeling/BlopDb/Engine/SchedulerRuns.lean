/-
# Runs of a coordinator

From an open store on, every run of a coordinator is serializable: the log is a serial
history of the accepted commands in the order of their submission, and every receipt
carries the outcome that this history gives its record.  A run is also a run of the
engine on its store, so whatever holds of the engine's stores holds here.
-/

import BlopDb.Engine.Polling
import BlopDb.Engine.SchedulerSound

namespace BlopDb.Engine

open BlopDb.Lib
open Storage (LimitPolicy View maxU64 sha256)
open Storage.Wal (Record readLog)
open Vm (Command Outcome)

section Runs

variable [Crc32c] [Sha256] {initialPolicy : LimitPolicy}

/-! ## Open stores -/

/-- Steps keep a source reachable. -/
theorem Running.reaches {source next : Source} (running : Running initialPolicy source)
    (steps : Relation.ReflTransGen Step source next) : Running initialPolicy next := by
  induction steps with
  | refl => exact running
  | tail _ step ih => exact ih.step step

/-- A store on the serial course of its log, published up to the last record. -/
structure Course.Opens (initialPolicy : LimitPolicy) (course : Course) (store : Store) : Prop where
  exact : course.Exact initialPolicy
  stored : course.source.store = store
  drained : course.source.frontier = store.manifest.durableSequence
  published : store.manifest.checkpointSequence = store.manifest.durableSequence

/-- A new database is open. -/
theorem opens_genesis {manifest : Storage.Manifest} (valid : Storage.Metadata.validateManifest manifest = .ok ())
    (empty : manifest.segments = []) (new : manifest.durableSequence = 0)
    (published : manifest.checkpointSequence = 0) :
    Course.Opens initialPolicy ⟨.genesis initialPolicy manifest, [], Vm.genesisView initialPolicy⟩
      (Source.genesis initialPolicy manifest).store := by
  have running : Running initialPolicy (.genesis initialPolicy manifest) := .genesis valid empty new
  exact ⟨⟨running.sound, running.rows, .genesis, rfl⟩, rfl, new.symm, published.trans new.symm⟩

namespace Coordinator

variable {options : EngineOptions} {course : Course} {store : Store} {rotateNext : Bool}
variable {coordinator next : Coordinator} {trace : Trace}

omit [Crc32c] in
/-- Idle workers hold nothing. -/
theorem flying_idle (outcomes : List Outcome) (workers : Nat) :
    Flying outcomes [] ⟨List.replicate workers false, [], [], false⟩ := by
  refine ⟨List.nodup_nil, nofun, nofun, nofun, nofun, fun _ => nofun, List.nodup_nil, fun worker => ⟨fun busy => ?_, nofun⟩⟩
  obtain ⟨inside, isBusy⟩ := List.getElem?_eq_some_iff.mp busy
  rw [List.getElem_replicate] at isBusy
  cases isBusy

/-- A coordinator starts on the serial course of its store. -/
theorem tracked_start (opens : course.Opens initialPolicy store) :
    (start options store rotateNext).Tracked initialPolicy options ⟨course, course.source.frontier, []⟩ := by
  obtain ⟨exact, rfl, drained, published⟩ := opens
  have journaled := exact.sound.journaled
  have whole : course.source.frontier = course.source.journal.length := by omega
  refine ⟨exact, ⟨whole, nofun⟩, nofun, ⟨rfl, nofun⟩, nofun, ⟨List.Pairwise.nil, nofun⟩, fun _ => ?_⟩
  refine ⟨rfl, published.trans drained.symm, ?_, flying_idle _ _, List.drop_nil, nofun, (published.trans drained.symm).le,
    ⟨course.source.serial, exact.sound.drained drained, ?_⟩, nofun⟩
  · rw [whole]
    exact lined_nil exact.serial
  · rw [published, ← drained]
    exact exact.presents_serial

/-- Every run keeps the coordinator on the serial course. -/
theorem Steps.tracked (steps : Steps options coordinator next) (answered : coordinator.Answered)
    (tracked : coordinator.Tracked initialPolicy options trace) :
    ∃ trace', trace.Extends trace' ∧ next.Tracked initialPolicy options trace' := by
  induction steps with
  | refl => exact ⟨trace, .refl trace, tracked⟩
  | tail steps step ih =>
      obtain ⟨middle, extends', tracked'⟩ := ih
      obtain ⟨trace', extends'', tracked''⟩ := step.tracked (Steps.answered steps answered) tracked'
      exact ⟨trace', extends'.trans extends'', tracked''⟩

/-! ## Replies -/

/-- Every submission is answered once at most, and once the coordinator has stopped,
exactly once.  Before a failure nothing is refused after it was sequenced. -/
theorem runs_answer {store : Store} {rotateNext : Bool} (steps : Steps options (start options store rotateNext) next) :
    (next.replies.map Prod.fst).Nodup ∧ (∀ ticket ∈ next.replies.map Prod.fst, ticket < next.submissions.length) ∧
      (next.finished = true → (next.replies.map Prod.fst).Perm (List.range next.submissions.length)) ∧
      (next.failed = false → ∀ reply ∈ next.replies, ∀ failure,
        reply.2 = .error failure → failure.fatal = false) := by
  obtain ⟨accounted, -, stopped, refused⟩ := steps.answered (answered_start store rotateNext)
  refine ⟨?_, fun ticket member => ?_, fun ended => ?_, refused⟩
  · exact ((accounted.nodup_iff.mpr List.nodup_range).of_append_left)
  · exact List.mem_range.mp (accounted.mem_iff.mp (List.mem_append_left _ member))
  · rw [(stopped ended).2, List.append_nil] at accounted
    exact accounted

/-! ## Serializable runs -/

/-- A log is a serial history of the accepted commands of a coordinator. -/
structure Serialized (initialPolicy : LimitPolicy) (before : List Record) (coordinator : Coordinator)
    (log : List Record) (outcomes : List Outcome) (final : View) (owners : List Nat) : Prop where
  extends' : before <+: log
  serial : Serial initialPolicy log outcomes final
  /-- Each new record holds the command of its ticket. -/
  owned : Owned coordinator.submissions before.length log owners
  /-- Records are in the order of submission. -/
  ordered : owners.Pairwise (· < ·)
  /-- Receipts are in the order of the log and carry its outcomes. -/
  receipts : ∀ position ticket receipt, (receiptsOf coordinator.replies)[position]? = some (ticket, receipt) →
    receipt.sequence = before.length + position + 1 ∧ owners[position]? = some ticket ∧
      outcomes[before.length + position]? = some receipt.outcome
  /-- A refused command has no record. -/
  refused : ∀ ticket failure, (ticket, .error failure) ∈ coordinator.replies →
    (∀ sequence, failure ≠ .uncertain sequence) → ticket ∉ owners
  /-- The log on disk is this one, down to its floor. -/
  stored : coordinator.failed = false → readLog coordinator.store.files coordinator.store.manifest.databaseId
    coordinator.store.manifest.segments = .ok (log.drop (coordinator.store.manifest.logFloor - 1))

omit [Crc32c] [Sha256] in
/-- A ticket has one reply. -/
theorem Answered.unique (answered : coordinator.Answered) {ticket : Nat} {reply reply' : Except Failure Receipt}
    (member : (ticket, reply) ∈ coordinator.replies) (member' : (ticket, reply') ∈ coordinator.replies) :
    reply = reply' := by
  have nodup := (answered.accounted.nodup_iff.mpr List.nodup_range).of_append_left
  exact congrArg Prod.snd (List.inj_on_of_nodup_map nodup member member' rfl)

omit [Crc32c] [Sha256] in
/-- A ticket in the schedule has no reply. -/
theorem Answered.unreplied (answered : coordinator.Answered) {ticket : Nat} {reply : Except Failure Receipt}
    (member : (ticket, reply) ∈ coordinator.replies) :
    ticket ∉ coordinator.schedule.entries.map (·.ticket) := by
  intro waits
  have nodup := answered.accounted.nodup_iff.mpr List.nodup_range
  refine (List.nodup_append.mp nodup).2.2 ticket (List.mem_map_of_mem member) ticket ?_ rfl
  exact List.mem_append_right _ (List.mem_append_left _ waits)

theorem Tracked.serialized (tracked : coordinator.Tracked initialPolicy options trace) (answered : coordinator.Answered)
    {before : List Record} (isBefore : before <+: trace.course.source.journal) (base : trace.base = before.length) :
    Serialized initialPolicy before coordinator trace.course.source.journal trace.course.outcomes trace.course.final
      trace.owners where
  extends' := isBefore
  serial := tracked.exact.serial
  owned := base ▸ tracked.owned
  ordered := (List.pairwise_append.mp tracked.fifo.increasing).1
  receipts := base ▸ tracked.received.exact
  refused := by
    intro ticket failure refused known member
    rcases tracked.kept ticket member with ⟨receipt, isReceipt⟩ | waits | ⟨sequence, unknown⟩
    · cases answered.unique refused isReceipt
    · exact answered.unreplied refused waits
    · cases answered.unique refused unknown
      exact known sequence rfl
  stored := by
    intro works
    rw [← (tracked.working works).store]
    exact tracked.exact.sound.content

end Coordinator

end Runs

namespace Sample

open Storage.Wal.Sample (created)
open Coordinator (Steps start)

/-- One worker and room for one command. -/
def options : EngineOptions := ⟨1, 1, 1, 1, 1024, 1, 1024, 1024, 1024⟩

/-- The store of a new database. -/
def fresh : Store := (Source.genesis policy created).store

/-- The next generation of the page file, with the same roots. -/
def placement : Placement := ⟨created.generation + 2, created.roots, created.pageCount⟩

/-- The limits are accepted as they are. -/
def accepted : Except (Fault Failure) (Command × Option Prepared) → Bool
  | .ok (.limits claims, none) => decide (claims = policy)
  | _ => false

theorem of_accepted {result : Except (Fault Failure) (Command × Option Prepared)} (accepts : accepted result = true) :
    result = .ok (.limits policy, none) := by
  unfold accepted at accepts
  split at accepts
  · rw [of_decide_eq_true accepts]
  · cases accepts

theorem fresh_prepared : prepare fresh.view options fresh.manifest.durableSequence fresh.manifest.durableDigest
    (.limits policy) = .ok (.limits policy, none) :=
  of_accepted (by decide +kernel)

theorem fresh_committed : (match commit fresh false (.limits policy) (.ok placement) with
    | .ok (store, receipt) => decide (store.manifest.checkpointSequence = receipt.sequence)
    | .error _ => false) = true := by
  decide +kernel

/-- One command is submitted and committed, and the coordinator closes. -/
theorem closed_run : ∃ next, Steps options (start options fresh false) next ∧ next.finished = true ∧
    next.failed = false ∧ next.submissions.length = 1 := by
  have committed := fresh_committed
  split at committed
  · rename_i store receipt isCommitted
    have submitted : Steps options (start options fresh false) _ := .single (.submit (.limits policy) trivial rfl)
    have received := submitted.tail (.receive ⟨rfl, rfl⟩ rfl (.received rfl rfl) fresh_prepared)
    have drained := received.tail (.commit (.ok placement) ⟨rfl, rfl⟩ rfl rfl rfl rfl isCommitted)
    have closed := drained.tail .drop
    exact ⟨_, closed.tail (.finish ⟨rfl, rfl⟩ ⟨rfl, rfl, rfl, rfl, rfl⟩ (of_decide_eq_true committed)), rfl, rfl, rfl⟩
  · cases committed

theorem runs_answer_closed : ∃ next, Steps options (start options fresh false) next ∧
    (next.replies.map Prod.fst).Perm (List.range 1) := by
  obtain ⟨next, run, finished, -, submitted⟩ := closed_run
  obtain ⟨-, -, answered, -⟩ := Coordinator.runs_answer run
  exact ⟨next, run, submitted ▸ answered finished⟩

end Sample

end BlopDb.Engine
