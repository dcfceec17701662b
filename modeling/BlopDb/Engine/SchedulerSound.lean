/-
# The invariant of a coordinator

Whatever its workers do and whenever they report, a coordinator stays on the serial
course of its journal: the live roots hold the visible records and some installed ones,
each entry is a record of the journal on its way, and the receipts so far carry the
serial outcomes in the order of the log.
-/

import BlopDb.Engine.Settlement
import BlopDb.Engine.Tickets
import BlopDb.Engine.Tracking

namespace BlopDb.Engine

open BlopDb.Lib
open Storage (LimitPolicy View maxU64 sha256)
open Storage.Wal (Record appendWal)
open Vm (Command Outcome)

/-! ## Receipts in the order of the log -/

/-- The receipts so far are those of the visible records, in order. -/
structure Received (trace : Trace) (replies : List Reply) : Prop where
  counted : trace.base + (receiptsOf replies).length = trace.course.source.frontier
  exact : ∀ position ticket receipt, (receiptsOf replies)[position]? = some (ticket, receipt) →
    receipt.sequence = trace.base + position + 1 ∧ trace.owners[position]? = some ticket ∧
      trace.course.outcomes[trace.base + position]? = some receipt.outcome

section Stages

variable [Crc32c] [Sha256]

/-- A later stage of a trace. -/
structure Trace.Extends (before after : Trace) : Prop where
  base : after.base = before.base
  journal : before.course.source.journal <+: after.course.source.journal
  outcomes : before.course.outcomes <+: after.course.outcomes
  owners : before.owners <+: after.owners
  steps : Relation.ReflTransGen Step before.course.source after.course.source

theorem Trace.Extends.refl (trace : Trace) : trace.Extends trace :=
  ⟨rfl, List.prefix_rfl, List.prefix_rfl, List.prefix_rfl, .refl⟩

theorem Trace.Extends.trans {first second third : Trace} (extends' : first.Extends second)
    (extends'' : second.Extends third) : first.Extends third :=
  ⟨extends''.base.trans extends'.base, extends'.journal.trans extends''.journal,
    extends'.outcomes.trans extends''.outcomes, extends'.owners.trans extends''.owners,
    extends'.steps.trans extends''.steps⟩

end Stages

theorem getElem?_of_prefix {α : Type} {before after : List α} {position : Nat} {value : α} (isPrefix : before <+: after)
    (found : before[position]? = some value) : after[position]? = some value := by
  obtain ⟨more, rfl⟩ := isPrefix
  rw [List.getElem?_append_left (List.getElem?_eq_some_iff.mp found).1, found]

namespace Received

variable [Crc32c] [Sha256] {trace trace' : Trace} {replies : List Reply}

/-- Receipts that the frontier releases. -/
theorem append (received : Received trace replies) (extends' : trace.Extends trace') (more : List Reply)
    (counted : trace'.course.source.frontier = trace.course.source.frontier + (receiptsOf more).length)
    (new : ∀ position ticket receipt, (receiptsOf more)[position]? = some (ticket, receipt) →
      receipt.sequence = trace.course.source.frontier + position + 1 ∧
        trace'.owners[trace.course.source.frontier - trace.base + position]? = some ticket ∧
        trace'.course.outcomes[trace.course.source.frontier + position]? = some receipt.outcome) :
    Received trace' (replies ++ more) := by
  have before := received.counted
  have isBase := extends'.base
  refine ⟨by rw [receiptsOf_append, List.length_append]; omega, fun position ticket receipt found => ?_⟩
  rw [receiptsOf_append] at found
  by_cases old : position < (receiptsOf replies).length
  · rw [List.getElem?_append_left old] at found
    obtain ⟨numbered, owner, has⟩ := received.exact position ticket receipt found
    rw [isBase]
    exact ⟨numbered, getElem?_of_prefix extends'.owners owner, getElem?_of_prefix extends'.outcomes has⟩
  · rw [List.getElem?_append_right (not_lt.mp old)] at found
    obtain ⟨numbered, owner, has⟩ := new _ ticket receipt found
    rw [show trace.course.source.frontier - trace.base + (position - (receiptsOf replies).length) = position by omega]
      at owner
    rw [show trace.course.source.frontier + (position - (receiptsOf replies).length) = trace.base + position by omega]
      at has
    exact ⟨by omega, owner, by rw [isBase]; exact has⟩

/-- Refusals are no receipts. -/
theorem refused (received : Received trace replies) (extends' : trace.Extends trace') (more : List Reply)
    (counted : trace'.course.source.frontier = trace.course.source.frontier)
    (none' : ∀ reply ∈ more, ∃ failure, reply.2 = .error failure) : Received trace' (replies ++ more) := by
  have empty := receiptsOf_refused none'
  refine received.append extends' more (by rw [empty]; exact counted) ?_
  rw [empty]
  nofun

theorem refuse (received : Received trace replies) (ticket : Nat) (failure : Failure) :
    Received trace (replies ++ [(ticket, .error failure)]) := by
  refine received.refused (.refl trace) [_] rfl fun reply member => ?_
  obtain rfl := List.mem_singleton.mp member
  exact ⟨failure, rfl⟩

end Received

/-! ## Coordinators -/

/-- The owner of a record has its receipt, waits for it, or is told that the outcome is
unknown. -/
def Kept (owners : List Nat) (entries : List Entry) (replies : List Reply) : Prop :=
  ∀ ticket ∈ owners, (∃ receipt, (ticket, .ok receipt) ∈ replies) ∨ ticket ∈ entries.map (·.ticket) ∨
    ∃ sequence, (ticket, .error (.uncertain sequence)) ∈ replies

/-- Replies are not taken back. -/
theorem Kept.mono {owners : List Nat} {entries entries' : List Entry} {replies : List Reply}
    (kept : Kept owners entries replies) (more : List Reply)
    (waits : ∀ ticket ∈ owners, ticket ∈ entries.map (·.ticket) → ticket ∈ entries'.map (·.ticket) ∨
      ∃ sequence, (ticket, .error (.uncertain sequence)) ∈ more) : Kept owners entries' (replies ++ more) := by
  intro ticket member
  rcases kept ticket member with ⟨receipt, isReceipt⟩ | inEntries | ⟨sequence, unknown⟩
  · exact .inl ⟨receipt, List.mem_append_left _ isReceipt⟩
  · rcases waits ticket member inEntries with still | ⟨sequence, told⟩
    · exact .inr (.inl still)
    · exact .inr (.inr ⟨sequence, List.mem_append_right _ told⟩)
  · exact .inr (.inr ⟨sequence, List.mem_append_left _ unknown⟩)

section Coordinators

variable [Crc32c] [Sha256]

namespace Coordinator

/-- What holds while a coordinator works. -/
structure Working (initialPolicy : LimitPolicy) (options : EngineOptions) (coordinator : Coordinator) (trace : Trace) :
    Prop where
  store : trace.course.source.store = coordinator.store
  frontier : coordinator.schedule.frontier = trace.course.source.frontier
  lined : Lined initialPolicy trace.course.source.journal trace.course.outcomes trace.course.final
    trace.course.source.frontier trace.course.source.ahead coordinator.schedule.entries
  flying : Flying trace.course.outcomes coordinator.schedule.entries coordinator.pool
  /-- The records above the frontier belong to the tickets of their entries. -/
  ordered : trace.owners.drop (trace.course.source.frontier - trace.base) =
    coordinator.schedule.entries.map (·.ticket)
  head : ∀ head ∈ coordinator.head,
    head.Ready coordinator.submissions trace.course.source.journal trace.course.final options
  published : coordinator.store.manifest.checkpointSequence ≤ trace.course.source.frontier
  saved : trace.course.Saved initialPolicy coordinator.checkpoint
  advanced : ∀ entry ∈ coordinator.schedule.entries.head?, entry.outcome = none

/-- The invariant of a coordinator. -/
structure Tracked (initialPolicy : LimitPolicy) (options : EngineOptions) (coordinator : Coordinator) (trace : Trace) :
    Prop where
  exact : trace.course.Exact initialPolicy
  owned : Owned coordinator.submissions trace.base trace.course.source.journal trace.owners
  queued : ∀ request ∈ coordinator.pending.toList ++ coordinator.receiver, request.Queued coordinator.submissions
  received : Received trace coordinator.replies
  kept : Kept trace.owners coordinator.schedule.entries coordinator.replies
  fifo : InOrder trace.owners coordinator.head (coordinator.pending.toList ++ coordinator.receiver)
    coordinator.submissions.length
  working : coordinator.failed = false → coordinator.Working initialPolicy options trace

variable {initialPolicy : LimitPolicy} {options : EngineOptions} {coordinator next : Coordinator} {trace : Trace}

omit [Crc32c] [Sha256] in
/-- While a coordinator works, owners have their receipts or wait for them. -/
theorem kept_of_ordered {replies : List Reply} {entries : List Entry} (received : Received trace replies)
    (ordered : trace.owners.drop (trace.course.source.frontier - trace.base) = entries.map (·.ticket)) :
    Kept trace.owners entries replies := by
  intro ticket member
  obtain ⟨position, found⟩ := List.getElem?_of_mem member
  have counted := received.counted
  by_cases visible : position < (receiptsOf replies).length
  · left
    have isReceipt := List.getElem?_eq_getElem visible
    generalize (receiptsOf replies)[position] = pair at isReceipt
    obtain ⟨ticket', receipt⟩ := pair
    obtain ⟨-, owner, -⟩ := received.exact _ _ _ isReceipt
    rw [found] at owner
    cases owner
    exact ⟨receipt, mem_receiptsOf.mp (List.mem_of_getElem? isReceipt)⟩
  · right; left
    rw [← ordered, List.mem_iff_getElem?]
    refine ⟨position - (trace.course.source.frontier - trace.base), ?_⟩
    rw [List.getElem?_drop, show trace.course.source.frontier - trace.base +
      (position - (trace.course.source.frontier - trace.base)) = position by omega, found]

/-! ## Requests -/

omit [Crc32c] [Sha256] in
theorem queued_taken {request : Request} {pending : Option Request} {receiver : List Request} {commands : List Command}
    (taken : coordinator.Takes request pending receiver)
    (queued : ∀ request ∈ coordinator.pending.toList ++ coordinator.receiver, request.Queued commands) :
    request.Queued commands ∧ ∀ other ∈ pending.toList ++ receiver, other.Queued commands := by
  cases taken with
  | pending isPending =>
      rw [isPending] at queued
      exact ⟨queued request (by simp), fun other member => queued other (List.mem_append_right _ member)⟩
  | received none' isFirst =>
      rw [none', isFirst] at queued
      exact ⟨queued request (by simp), fun other member => queued other (List.mem_cons_of_mem _ member)⟩

omit [Crc32c] [Sha256] in
/-- A taken request leaves the others in their order. -/
theorem fewer_taken {request : Request} {pending : Option Request} {receiver : List Request} {owners : List Nat}
    (taken : coordinator.Takes request pending receiver) :
    (owners ++ ticketsOf coordinator.head [] (pending.toList ++ receiver)).Sublist
      (owners ++ ticketsOf coordinator.head [] (coordinator.pending.toList ++ coordinator.receiver)) := by
  simp only [ticketsOf, tickets_taken taken]
  refine List.Sublist.append_left (List.Sublist.append_left (List.Sublist.append_left ?_ _) _) _
  exact List.sublist_append_right _ _

/-- A command enters the queue. -/
theorem Tracked.submit (tracked : coordinator.Tracked initialPolicy options trace) {command : Command}
    (fits : Record.Representable command) :
    Tracked initialPolicy options { coordinator with
      receiver := coordinator.receiver ++ [.execute command coordinator.submissions.length]
      submissions := coordinator.submissions ++ [command] } trace := by
  refine { tracked with
    owned := tracked.owned.mono _, queued := fun request member => ?_, fifo := ?_, working := fun works => ?_ }
  · simp only [← List.append_assoc] at member
    rcases List.mem_append.mp member with old | new
    · exact (tracked.queued request old).mono _
    · obtain rfl := List.mem_singleton.mp new
      refine ⟨?_, fits⟩
      rw [List.getElem?_append_right le_rfl, Nat.sub_self]
      rfl
  · simp only [← List.append_assoc, List.length_append, List.length_singleton]
    exact tracked.fifo.submit command
  · have working := tracked.working works
    exact { working with head := fun head isHead => (working.head head isHead).mono _ }

/-- A worker reports. -/
theorem Tracked.work (tracked : coordinator.Tracked initialPolicy options trace) {before after : List (Nat × Job)}
    {worker : Nat} {job : Job} {outcome : Option Outcome}
    (held : coordinator.pool.running = before ++ (worker, job) :: after)
    (returned : Returns coordinator.pool.poisoned job outcome) :
    Tracked initialPolicy options { coordinator with pool := { coordinator.pool with
      running := before ++ after
      completed := coordinator.pool.completed ++ [⟨worker, job.prepared.sequence, outcome⟩]
      poisoned := coordinator.pool.poisoned || outcome.isNone } } trace := by
  refine { tracked with working := fun works => ?_ }
  have working := tracked.working works
  exact { working with flying := working.flying.work held returned }

/-- Ready entries are handed to idle workers. -/
theorem Tracked.dispatch (tracked : coordinator.Tracked initialPolicy options trace) (live : coordinator.Live)
    {schedule : Schedule} {pool : Pool} {progress : Bool}
    (dispatched : Engine.dispatch coordinator.store coordinator.schedule coordinator.pool options.executionWindow =
      (schedule, pool, progress)) :
    Tracked initialPolicy options { coordinator with schedule := schedule, pool := pool } trace := by
  have working := tracked.working live.1
  have isSchedule : (dispatchFrom coordinator.store options.executionWindow coordinator.pool.busy.length 0
      coordinator.schedule coordinator.pool).1 = schedule := congrArg Prod.fst dispatched
  have isPool : (dispatchFrom coordinator.store options.executionWindow coordinator.pool.busy.length 0
      coordinator.schedule coordinator.pool).2.1 = pool := congrArg (·.2.1) dispatched
  obtain ⟨lined, flying⟩ := @dispatchFrom_exact _ _ _ _ tracked.exact options.executionWindow
    coordinator.pool.busy.length 0 coordinator.schedule coordinator.pool working.lined working.flying
  obtain ⟨frontier, -⟩ := @dispatchFrom_kept coordinator.store options.executionWindow coordinator.pool.busy.length 0
    coordinator.schedule coordinator.pool
  have tickets := @map_dispatchFrom _ (·.ticket) (fun _ => rfl) coordinator.store options.executionWindow
    coordinator.pool.busy.length 0 coordinator.schedule coordinator.pool
  have outcomes := @map_dispatchFrom _ (·.outcome) (fun _ => rfl) coordinator.store options.executionWindow
    coordinator.pool.busy.length 0 coordinator.schedule coordinator.pool
  rw [working.store, isSchedule] at lined
  rw [working.store, isSchedule, isPool] at flying
  rw [isSchedule] at frontier tickets outcomes
  have ordered := working.ordered.trans tickets.symm
  refine { tracked with kept := kept_of_ordered tracked.received ordered, working := fun _ => ?_ }
  refine { working with
    frontier := frontier.trans working.frontier
    lined := lined, flying := flying, ordered := ordered, advanced := fun entry isFirst => ?_ }
  have first := congrArg List.head? outcomes
  rw [List.head?_map, List.head?_map, isFirst] at first
  obtain ⟨old, isOld, same⟩ := Option.map_eq_some_iff.mp first.symm
  exact same.symm.trans (working.advanced old isOld)

/-- A prepared request becomes the head. -/
theorem Tracked.receive (tracked : coordinator.Tracked initialPolicy options trace) (live : coordinator.Live)
    (vacant : coordinator.head = none)
    {command command' : Command} {ticket : Nat} {pending : Option Request} {receiver : List Request}
    {prepared : Option Prepared} (taken : coordinator.Takes (.execute command ticket) pending receiver)
    (accepted : prepare coordinator.store.view options coordinator.store.manifest.durableSequence
      coordinator.store.manifest.durableDigest command = .ok (command', prepared)) :
    Tracked initialPolicy options { coordinator with
      head := some ⟨command', prepared, ticket⟩, pending := pending, receiver := receiver } trace := by
  have working := tracked.working live.1
  obtain ⟨⟨isSubmitted, represented⟩, queued⟩ := queued_taken taken tracked.queued
  have fifo : InOrder trace.owners (some ⟨command', prepared, ticket⟩) (pending.toList ++ receiver)
      coordinator.submissions.length := by
    apply tracked.fifo.moved
    simp only [ticketsOf, vacant, tickets_taken taken]
    rfl
  refine { tracked with queued := queued, fifo := fifo, working := fun _ => { working with head := ?_ } }
  rintro head ⟨⟩
  cases command with
  | transaction transaction claims manifest =>
      obtain ⟨⟨command'', ready⟩, recorded, same⟩ := bind_eq_ok.mp accepted
      cases same
      have metadata := tracked.exact.sameMetadata fun position record above found => working.lined.kinds above found
      rw [← working.store, ← tracked.exact.sound.journaled] at recorded
      obtain ⟨completes, sequenced, fits⟩ := prepareRecord_eq_ok metadata represented recorded
      exact .prepared isSubmitted completes sequenced fits
  | catalogue operation =>
      obtain ⟨_, -, accepted⟩ := bind_eq_ok.mp accepted
      obtain ⟨_, -, same⟩ := bind_eq_ok.mp accepted
      cases same
      exact .barrier isSubmitted (by simp [Command.kind]) represented
  | limits policy =>
      obtain ⟨_, -, accepted⟩ := bind_eq_ok.mp accepted
      obtain ⟨_, -, same⟩ := bind_eq_ok.mp accepted
      cases same
      exact .barrier isSubmitted (by simp [Command.kind]) represented

/-! ## Registration -/

/-- A registration begins with nothing gathered. -/
theorem Tracked.gathered (tracked : coordinator.Tracked initialPolicy options trace) (answered : coordinator.Answered)
    (live : coordinator.Live) {head : Head} {prepared : Prepared} (isHead : coordinator.head = some head)
    (isPrepared : head.prepared = some prepared) {quiet : List Bool} {round : Round}
    (gathered : Round.gather coordinator.store.view options quiet ⟨coordinator.schedule, coordinator.head,
      coordinator.receiver, coordinator.pending, [], [], none⟩ = .ok round) :
    (∀ reply ∈ round.replies, ∃ failure, reply.2 = .error failure) ∧ ∃ more final tickets,
      Round.Gathered initialPolicy options coordinator.submissions trace coordinator.pool round more final tickets := by
  have working := tracked.working live.1
  have past : trace.base ≤ trace.course.source.frontier := tracked.received.counted ▸ Nat.le_add_right _ _
  have metadata := tracked.exact.sameMetadata fun position record above found => working.lined.kinds above found
  have moves := Round.gather_moves (answered.alone (by rw [isHead]; rfl)) rfl gathered
  rw [← working.store] at moves
  refine ⟨moves.refusals nofun, moves.gathered tracked.exact past [] trace.course.final [] ?_⟩
  have noRecord : trace.course.source.journal ++ Round.logged ⟨coordinator.schedule, coordinator.head,
      coordinator.receiver, coordinator.pending, [], [], none⟩ = trace.course.source.journal := List.append_nil _
  refine ⟨?_, ?_, ?_, ?_, metadata, fun other isOther => ?_, tracked.queued, working.frontier, working.advanced,
    tracked.fifo.moved ?_⟩
  · rw [noRecord, List.append_nil]
    exact working.lined
  · rw [List.append_nil]
    exact working.flying
  · rw [noRecord, List.append_nil]
    exact tracked.owned
  · rw [List.append_nil]
    exact working.ordered
  · rw [noRecord]
    refine ⟨?_, working.head other isOther⟩
    cases isHead.symm.trans isOther
    rw [isPrepared]
    rfl
  · rw [List.append_nil]

theorem registerGroup_eq_ok {store : Store} {rotateNext : Bool} {round : Round} {log : Storage.Wal.Log}
    (appended : registerGroup store rotateNext round = .ok log) :
    ∃ digest, appendWal ⟨store.files, store.manifest, rotateNext, false⟩ round.records = (log, .ok digest) := by
  unfold registerGroup at appended
  split at appended
  · cases appended
  · split at appended
    · rename_i log' digest isLog
      cases appended
      exact ⟨digest, isLog⟩
    · cases appended

/-- A group becomes durable. -/
theorem Tracked.register (tracked : coordinator.Tracked initialPolicy options trace) (answered : coordinator.Answered)
    (live : coordinator.Live) {head : Head} {prepared : Prepared} (isHead : coordinator.head = some head)
    (isPrepared : head.prepared = some prepared) {quiet : List Bool} {round : Round} {log : Storage.Wal.Log}
    (gathered : Round.gather coordinator.store.view options quiet ⟨coordinator.schedule, coordinator.head,
      coordinator.receiver, coordinator.pending, [], [], none⟩ = .ok round)
    (appended : registerGroup coordinator.store coordinator.rotateNext round = .ok log) :
    ∃ trace', trace.Extends trace' ∧ Tracked initialPolicy options { coordinator with
        store := { coordinator.store with files := log.files, manifest := log.manifest }
        rotateNext := log.rotateNext
        schedule := round.schedule
        head := round.head
        pending := round.barrier
        receiver := round.receiver
        replies := coordinator.replies ++ round.replies } trace' := by
  have working := tracked.working live.1
  obtain ⟨refused, more, final, tickets, together⟩ := tracked.gathered answered live isHead isPrepared gathered
  obtain ⟨digest, appended⟩ := registerGroup_eq_ok appended
  obtain ⟨append, list, plans, -, -, isManifest⟩ := appendWal_ok appended
  obtain ⟨-, -, -, -, history, checkpoint, -, -⟩ := plans_next plans
  rw [← isManifest] at history checkpoint
  rw [← working.store] at appended
  have exact' := tracked.exact.append appended together.lined.serial
  have extends' : trace.Extends ⟨⟨{ trace.course.source with
      store := { trace.course.source.store with files := log.files, manifest := log.manifest }
      journal := trace.course.source.journal ++ round.logged }, trace.course.outcomes ++ more, final⟩, trace.base,
      trace.owners ++ tickets⟩ :=
    ⟨rfl, List.prefix_append _ _, List.prefix_append _ _, List.prefix_append _ _, .single (Engine.Step.append appended)⟩
  have received := tracked.received.refused extends' _ rfl refused
  refine ⟨_, extends', exact', together.owned, together.queued, received,
    kept_of_ordered received together.ordered, together.fifo, fun _ => ?_⟩
  refine ⟨by rw [← working.store], together.frontier, together.lined, together.flying, together.ordered,
    fun head isHead => (together.head head isHead).2, ?_, ?_, together.advanced⟩
  · exact checkpoint.le.trans working.published
  · obtain ⟨view, same, presents⟩ := working.saved
    have inside : coordinator.store.manifest.checkpointSequence ≤ trace.course.source.journal.length :=
      working.published.trans tracked.exact.frontier_le
    refine ⟨view, same, ?_⟩
    rw [← working.store] at checkpoint history inside
    simp only [checkpoint, history]
    rw [Course.records, tracked.exact.take_records_append inside]
    exact presents

/-- A group was gathered and could not be made durable. -/
theorem Tracked.unregistered (tracked : coordinator.Tracked initialPolicy options trace) (answered : coordinator.Answered)
    (live : coordinator.Live) {head : Head} {prepared : Prepared} (isHead : coordinator.head = some head)
    (isPrepared : head.prepared = some prepared) {quiet : List Bool} {round : Round}
    (gathered : Round.gather coordinator.store.view options quiet ⟨coordinator.schedule, coordinator.head,
      coordinator.receiver, coordinator.pending, [], [], none⟩ = .ok round) :
    Tracked initialPolicy options { coordinator with
      schedule := round.schedule
      head := round.head
      pending := round.barrier
      receiver := round.receiver
      replies := coordinator.replies ++ round.replies
      failed := true } trace := by
  have working := tracked.working live.1
  obtain ⟨refused, more, final, tickets, together⟩ := tracked.gathered answered live isHead isPrepared gathered
  refine ⟨tracked.exact, tracked.owned, together.queued, tracked.received.refused (.refl trace) _ rfl refused,
    tracked.kept.mono _ fun ticket _ waits => .inl ?_, together.fifo.sublist ?_, nofun⟩
  · rw [← working.ordered] at waits
    rw [← together.ordered, List.drop_append]
    exact List.mem_append_left _ waits
  · exact (List.sublist_append_left _ _).append_right _

/-! ## Completion -/

/-- The reports are installed, and the frontier passes what they resolved. -/
theorem Tracked.complete (tracked : coordinator.Tracked initialPolicy options trace) (live : coordinator.Live)
    {store : Store} {checkpoint : View} {schedule : Schedule} {replies : List Reply}
    {placement : Except Storage.Error Placement}
    (completed : Engine.complete coordinator.store coordinator.checkpoint coordinator.schedule
      coordinator.pool.completed options.checkpointInterval placement = .ok (store, checkpoint, schedule, replies)) :
    ∃ trace', trace.Extends trace' ∧ Tracked initialPolicy options { coordinator with
        store := store
        checkpoint := checkpoint
        schedule := schedule
        pool := { coordinator.pool.completed.foldl Pool.release coordinator.pool with completed := [] }
        replies := coordinator.replies ++ replies } trace' := by
  have working := tracked.working live.1
  obtain ⟨middle, settled, isSettled, finished⟩ := complete_eq_ok completed
  have tickets := @map_settleAll _ (·.ticket) (fun _ _ _ _ => rfl) _ _ _ _ _ isSettled
  rw [← working.store] at isSettled
  obtain ⟨source, exact', installs, rfl, lined, flying, kept⟩ :=
    settleAll_exact tracked.exact working.lined working.flying isSettled
  have ordered := working.ordered.trans tickets.symm
  have saved : Course.Saved initialPolicy { trace.course with source := source } coordinator.checkpoint := by
    obtain ⟨view, same, presents⟩ := working.saved
    refine ⟨view, same, ?_⟩
    simp only [Course.records, installs.journal, installs.manifest]
    exact presents
  rw [← installs.frontier] at ordered
  have isFrontier : settled.frontier = source.frontier := kept.trans (working.frontier.trans installs.frontier.symm)
  obtain ⟨rest, split, resolved, first⟩ :=
    resolvedPrefix_split { trace.course with source := source } (isFrontier ▸ lined)
  rcases finished with ⟨empty, rfl, rfl, rfl, rfl⟩ | ⟨last, isLast, published, retired⟩
  · -- The next record above the frontier is still unresolved.
    have extends' : trace.Extends { trace with course := { trace.course with source := source } } :=
      ⟨rfl, by rw [installs.journal], List.prefix_rfl, List.prefix_rfl, installs.steps⟩
    have received := tracked.received.refused extends' [] installs.frontier (List.forall_mem_nil _)
    refine ⟨_, extends', exact', ?_, tracked.queued, received, kept_of_ordered received ordered, tracked.fifo,
      fun _ => ?_⟩
    · simp only [installs.journal]
      exact tracked.owned
    · refine ⟨rfl, isFrontier, lined, flying, ordered, ?_, ?_, saved, ?_⟩
      · simp only [installs.journal]
        exact working.head
      · simp only [installs.frontier, installs.manifest, working.store]
        exact working.published
      · rw [empty, List.nil_append] at split
        rw [split]
        exact first
  · generalize resolvedPrefix settled = done at split resolved isLast
    have lined := split ▸ lined
    have flying := split ▸ flying
    -- The last resolved entry is the new frontier.
    have isNext : last.sequence = source.frontier + done.length := by
      obtain ⟨before, rfl⟩ := List.getLast?_eq_some_iff.mp isLast
      have numbered := lined.numbered before last rest (by rw [List.append_assoc]; rfl)
      rw [List.length_append, List.length_singleton]
      omega
    have bound : source.store.manifest.checkpointSequence ≤ source.frontier := by
      rw [installs.manifest, installs.frontier, working.store]
      exact working.published
    obtain ⟨source', exact', passes, lined'⟩ :=
      pass_exact { trace.course with source := source } exact' bound lined resolved
    have passed : source'.frontier = source.frontier + done.length := passes.frontier
    have isStore : source'.store = source.store := passes.store
    have isJournal : source'.journal = trace.course.source.journal := passes.journal.trans installs.journal
    have saved' : Course.Saved initialPolicy { trace.course with source := source' } coordinator.checkpoint := by
      obtain ⟨view, same, presents⟩ := saved
      refine ⟨view, same, ?_⟩
      simp only [Course.records, isJournal, isStore, installs.journal] at presents ⊢
      exact presents
    rw [isNext, ← passed, ← isStore] at published
    obtain ⟨steps, exact', saved', bound'⟩ := checkpointFrontier_exact { trace.course with source := source' }
      exact' (by change source'.store.manifest.checkpointSequence ≤ source'.frontier; rw [isStore]; omega) saved'
      published
    obtain ⟨done', rest', split', inside, above, rfl, -, -, rfl⟩ := retire_eq_ok retired
    obtain ⟨isDone, isRest⟩ := retired_eq { trace.course with source := source } (split.symm ▸ lined) split
      split' (fun entry member => isNext ▸ (inside entry member).1) (fun entry member => isNext ▸ above entry member)
    subst isDone isRest
    obtain ⟨counted, receipts⟩ := receiptsOf_entries resolved
    have extends' : trace.Extends { trace with course := { trace.course with
        source := { source' with store := store } } } :=
      ⟨rfl, by rw [isJournal], List.prefix_rfl, List.prefix_rfl, installs.steps.trans (passes.steps.trans steps)⟩
    have past := tracked.received.counted
    have received := tracked.received.append extends' (done'.filterMap Entry.receipt)
      (by rw [counted, ← installs.frontier]; exact passed) fun position ticket receipt found => by
        obtain ⟨entry, isEntry, rfl, numbered, isOutcome⟩ := receipts position ticket receipt found
        have isEntry : (done' ++ rest')[position]? = some entry := by
          rw [List.getElem?_append_left (List.getElem?_eq_some_iff.mp isEntry).1, isEntry]
        obtain ⟨isSequence, has⟩ := lined.outcome_at isEntry
        rw [installs.frontier] at isSequence has
        refine ⟨numbered.trans isSequence, ?_, has receipt.outcome isOutcome⟩
        rw [← List.getElem?_drop, ← installs.frontier, ordered, split, List.getElem?_map, isEntry]
        rfl
    have ordered' : trace.owners.drop (source'.frontier - trace.base) = rest'.map (·.ticket) := by
      rw [passed, show source.frontier + done'.length - trace.base = source.frontier - trace.base + done'.length by
        rw [installs.frontier]; omega, ← List.drop_drop, ordered, split, List.map_append, List.drop_left' (by simp)]
    refine ⟨_, extends', exact', ?_, tracked.queued, received, kept_of_ordered received ordered', tracked.fifo,
      fun _ => ?_⟩
    · simp only [isJournal]
      exact tracked.owned
    · refine ⟨rfl, isNext.trans passed.symm, lined', flying.retire fun entry member => ?_, ordered', ?_, bound', saved',
        first⟩
      · exact Option.isSome_iff_ne_none.mp (resolved entry member)
      · simp only [isJournal]
        exact working.head

/-! ## Barriers -/

omit [Crc32c] in
/-- A barrier is recorded as it was submitted. -/
theorem prepare_alone {view : View} {sequence : Nat} {command prepared : Command} (alone : command.kind ≠ 1)
    (valid : Record.prepare view sequence command = .ok prepared) :
    prepared = command ∧ Completes command command := by
  obtain ⟨⟨⟩, -, valid⟩ := bind_eq_ok.mp valid
  cases command with
  | transaction transaction claims manifest => exact absurd rfl alone
  | catalogue operation =>
      obtain ⟨⟨⟩, -, same⟩ := bind_eq_ok.mp valid
      cases same
      exact ⟨rfl, .catalogue operation⟩
  | limits policy =>
      cases valid
      exact ⟨rfl, .limits policy⟩

omit [Crc32c] in
theorem lined_nil {log : List Record} {outcomes : List Outcome} {final : View} {ahead : Nat → Option Installed}
    (serial : Serial initialPolicy log outcomes final) : Lined initialPolicy log outcomes final log.length ahead [] := by
  refine ⟨serial, rfl, fun before entry after split => ?_, fun before entry after split => ?_⟩
  · simp at split
  · simp at split

/-- What the live roots of a drained source compute is the next serial outcome. -/
theorem serial_of_drained {course : Course} (exact : course.Exact initialPolicy) {record : Record}
    {command prepared : Command} {outcome : Outcome}
    (drained : course.source.frontier = course.source.store.manifest.durableSequence)
    (small : course.source.journal.length + 1 < maxU64) (numbered : record.sequence = course.source.journal.length + 1)
    (decoded : recordCommand record = .ok command)
    (valid : Record.prepare course.source.store.view record.sequence command = .ok prepared)
    (computed : command.outcome course.source.store.view record.sequence = some (.ok outcome)) :
    ∃ after, Serial initialPolicy (course.source.journal ++ [record]) (course.outcomes ++ [outcome]) after := by
  have journaled := exact.sound.journaled
  have length := exact.serial.length_history
  have metadata := exact.sameMetadata fun position record' above found => by
    have := (List.getElem?_eq_some_iff.mp found).1
    omega
  obtain ⟨outcome', after, executed, serial⟩ := exact.serial.extend small numbered decoded
    ((Record.prepare_congr metadata _ command).symm.trans valid)
  obtain ⟨-, -, computed', -⟩ := execute_eq_ok.mp executed
  -- The live roots, the serial trees and the trees of the history present the same records.
  have live := (exact.sound.drained drained).symm.outcome exact.sound.uncorrupted (show record.sequence ≤ maxU64 by omega)
    command
  have visible := exact.presents_serial
  rw [List.take_of_length_le (by rw [Course.records]; omega)] at visible
  have ordered := visible.outcome_congr exact.presents command
  rw [Course.records, length, ← numbered] at ordered
  rw [computed, ordered, computed'] at live
  cases live
  exact ⟨after, serial⟩

/-- A committed barrier is the next record of the serial course. -/
theorem commit_exact {course : Course} (exact : course.Exact initialPolicy) {rotateNext : Bool} {command : Command}
    {placement : Except Storage.Error Placement} {store : Store} {receipt : Receipt}
    (drained : course.source.frontier = course.source.store.manifest.durableSequence) (alone : command.kind ≠ 1)
    (represented : Record.Representable command)
    (committed : Engine.commit course.source.store rotateNext command placement = .ok (store, receipt)) :
    ∃ source record final, source.journal = course.source.journal ++ [record] ∧ source.store = store ∧
      source.frontier = course.source.frontier + 1 ∧ receipt.sequence = course.source.frontier + 1 ∧
      Relation.ReflTransGen Engine.Step course.source source ∧ recordCommand record = .ok command ∧ Completes command command ∧
      Course.Exact initialPolicy ⟨source, course.outcomes ++ [receipt.outcome], final⟩ ∧
      Course.Saved initialPolicy ⟨source, course.outcomes ++ [receipt.outcome], final⟩ store.view ∧
      store.manifest.checkpointSequence = course.source.frontier + 1 := by
  obtain ⟨prepared, kind, body, bytes, log, committed⟩ := commit_eq_ok committed
  have journaled := exact.sound.journaled
  have small := committed.small
  have numbered := committed.numbered
  obtain ⟨rfl, completes⟩ := prepare_alone alone committed.valid
  obtain ⟨kind', body', encoded, decoded, -⟩ := Record.prepare_written represented committed.valid
  cases committed.encoded.symm.trans encoded
  obtain ⟨isCommand, isKind⟩ := @recordCommand_of_envelope _ ⟨receipt.sequence, sha256 bytes, bytes⟩ _ _ _ _ _
    committed.framed decoded
  obtain ⟨-, -, computed, installed⟩ := execute_eq_ok.mp committed.executed
  obtain ⟨encoding, installs⟩ := Vm.Database.install_installs (by omega) installed
  obtain ⟨final, serial⟩ := serial_of_drained exact drained (by omega) (by simp only; omega) isCommand
    (by rw [numbered]; exact committed.valid) computed
  obtain ⟨digest, appended⟩ := committed.appended
  obtain ⟨append, list, plans, isList, -, isManifest⟩ := appendWal_ok appended
  obtain ⟨-, -, durable, -, -, checkpoint, -, -⟩ := plans_next plans
  rw [← isManifest, isList] at durable
  rw [← isManifest] at checkpoint
  have durable' := Engine.Step.append appended
  have exact' := exact.append appended (by rw [← numbered]; exact serial)
  have sameKind : prepared.kind = uintAt 1 bytes 24 := kind_of_recordCommand isCommand
  rw [← numbered] at exact' durable'
  have stored := @Engine.Step.install _ _ { course.source with
      store := { course.source.store with files := log.files, manifest := log.manifest }
      journal := course.source.journal ++ [⟨receipt.sequence, sha256 bytes, bytes⟩] } _ _ _ _ _ _
    (show course.source.frontier < receipt.sequence by omega)
    ⟨_, List.mem_append_right _ (List.mem_singleton.mpr rfl), rfl, rfl, sameKind.symm⟩ installs.encoded installed
  have isNext : receipt.sequence = course.source.frontier + 1 := by omega
  have found : (course.source.journal ++ [⟨receipt.sequence, sha256 bytes, bytes⟩])[course.source.frontier]? =
      some ⟨receipt.sequence, sha256 bytes, bytes⟩ := by
    rw [drained, ← journaled, List.getElem?_append_right le_rfl, Nat.sub_self]
    rfl
  have has : (course.outcomes ++ [receipt.outcome])[course.source.frontier]? = some receipt.outcome := by
    rw [drained, ← journaled, ← exact.serial.length_eq, List.getElem?_append_right le_rfl, Nat.sub_self]
    rfl
  obtain ⟨serial', passed, exact'⟩ := (exact'.of_step stored rfl rfl rfl).advance
    ⟨(sha256 bytes).1, prepared.kind, receipt.outcome, encoding⟩
    (show log.manifest.checkpointSequence ≤ course.source.frontier by rw [checkpoint, drained]; exact committed.drained.le)
    found (by rw [← isNext]; exact Function.update_self ..) rfl sameKind has
  have everything : course.source.frontier + 1 = log.manifest.durableSequence := by
    rw [durable, drained]
    rfl
  obtain ⟨step, exact', saved, at'⟩ := publishCheckpoint_exact exact' everything committed.published
  have steps := (((Relation.ReflTransGen.single durable').tail stored).tail passed).tail step
  refine ⟨_, _, final, rfl, ?_, rfl, isNext, steps, isCommand, completes, exact', saved, at'⟩
  exact committed.rest.symm

/-- A source without entries is drained. -/
theorem Working.drained (working : coordinator.Working initialPolicy options trace)
    (exact : trace.course.Exact initialPolicy) (empty : coordinator.schedule.entries = []) :
    trace.course.source.frontier = trace.course.source.store.manifest.durableSequence := by
  have counted := working.lined.counted
  rw [empty, List.length_nil] at counted
  rw [← exact.sound.journaled]
  exact counted

/-- A barrier runs on the drained store. -/
theorem Tracked.commit (tracked : coordinator.Tracked initialPolicy options trace) (live : coordinator.Live)
    {head : Head} {store : Store} {receipt : Receipt} {placement : Except Storage.Error Placement}
    (isHead : coordinator.head = some head) (barrier : head.prepared = none)
    (empty : coordinator.schedule.entries = [])
    (committed : Engine.commit coordinator.store coordinator.rotateNext head.command placement = .ok (store, receipt)) :
    ∃ trace', trace.Extends trace' ∧ Tracked initialPolicy options { coordinator with
        store := store
        rotateNext := false
        checkpoint := store.view
        schedule := { coordinator.schedule with frontier := receipt.sequence }
        head := none
        replies := coordinator.replies ++ [(head.ticket, .ok receipt)] } trace' := by
  have working := tracked.working live.1
  have ready := working.head head isHead
  cases ready with
  | prepared => simp at barrier
  | @barrier command ticket isSubmitted alone represented =>
  have drained := working.drained tracked.exact empty
  rw [← working.store] at committed
  obtain ⟨source, record, final, isJournal, rfl, isFrontier, numbered, steps, decoded, completes, exact', saved, at'⟩ :=
    commit_exact tracked.exact drained alone represented committed
  have extends' : trace.Extends ⟨⟨source, trace.course.outcomes ++ [receipt.outcome], final⟩, trace.base,
      trace.owners ++ [ticket]⟩ :=
    ⟨rfl, by rw [isJournal]; exact List.prefix_append _ _, List.prefix_append _ _, List.prefix_append _ _, steps⟩
  have counted := tracked.received.counted
  have journaled := tracked.exact.sound.journaled
  have owners : trace.base + trace.owners.length = trace.course.source.frontier := by
    rw [tracked.owned.counted, journaled, drained]
  have received := tracked.received.append extends' [(ticket, .ok receipt)] isFrontier
    fun position ticket' receipt' found => by
      cases position with
      | succ position => cases found
      | zero =>
          cases found
          refine ⟨numbered, ?_, ?_⟩
          · rw [List.getElem?_append_right (by omega), show trace.course.source.frontier - trace.base + 0 -
              trace.owners.length = 0 by omega]
            rfl
          · rw [drained, ← journaled, ← tracked.exact.serial.length_eq, Nat.add_zero,
              List.getElem?_append_right le_rfl, Nat.sub_self]
            rfl
  have everything : source.frontier = source.journal.length := by
    rw [isFrontier, isJournal, List.length_append, List.length_singleton, drained, journaled]
  have ordered : (trace.owners ++ [ticket]).drop (source.frontier - trace.base) =
      coordinator.schedule.entries.map (·.ticket) := by
    rw [empty, List.drop_eq_nil_of_le (by rw [List.length_append, List.length_singleton]; omega)]
    rfl
  have fifo : InOrder (trace.owners ++ [ticket]) none (coordinator.pending.toList ++ coordinator.receiver)
      coordinator.submissions.length := by
    apply tracked.fifo.moved
    simp only [ticketsOf, isHead, Option.toList_some, Option.toList_none, List.map_cons, List.map_nil, List.nil_append,
      List.append_assoc, List.cons_append]
  refine ⟨_, extends', exact', ?_, tracked.queued, received, kept_of_ordered received ordered, fifo, fun _ => ?_⟩
  · simp only [isJournal]
    exact tracked.owned.snoc isSubmitted decoded completes
  · refine ⟨rfl, numbered.trans isFrontier.symm, ?_, ?_, ordered, fun _ isHead => (by cases isHead), ?_, saved,
      working.advanced⟩
    · simp only [empty, everything]
      exact lined_nil exact'.serial
    · exact working.flying.mono _
    · exact (at'.trans isFrontier.symm).le

/-! ## Publications -/

/-- A change of the store that keeps the journal and the frontier. -/
theorem Tracked.stored (tracked : coordinator.Tracked initialPolicy options trace)
    (working : coordinator.Working initialPolicy options trace) {source : Source} {checkpoint : View}
    (step : Engine.Step trace.course.source source)
    (exact : Course.Exact initialPolicy { trace.course with source := source })
    (saved : Course.Saved initialPolicy { trace.course with source := source } checkpoint)
    (journal : source.journal = trace.course.source.journal) (frontier : source.frontier = trace.course.source.frontier)
    (ahead : source.ahead = trace.course.source.ahead)
    (published : source.store.manifest.checkpointSequence ≤ source.frontier) :
    ∃ trace', trace.Extends trace' ∧ Tracked initialPolicy options
      { coordinator with store := source.store, checkpoint := checkpoint } trace' := by
  have extends' : trace.Extends { trace with course := { trace.course with source := source } } :=
    ⟨rfl, by rw [journal], List.prefix_rfl, List.prefix_rfl, .single step⟩
  have received := tracked.received.refused extends' [] frontier nofun
  rw [List.append_nil] at received
  refine ⟨_, extends', exact, ?_, tracked.queued, received, tracked.kept, tracked.fifo, fun _ => ?_⟩
  · simp only [journal]
    exact tracked.owned
  · refine ⟨rfl, working.frontier.trans frontier.symm, ?_, working.flying, ?_, ?_, published, saved, working.advanced⟩
    · simp only [journal, frontier, ahead]
      exact working.lined
    · simp only [frontier]
      exact working.ordered
    · simp only [journal]
      exact working.head

/-- A drained store is published. -/
theorem Tracked.checkpoint (tracked : coordinator.Tracked initialPolicy options trace) (live : coordinator.Live)
    {checkpoint : View} {next : Storage.Manifest} {placement : Except Storage.Error Placement}
    (empty : coordinator.schedule.entries = [])
    (viewed : checkpoint = coordinator.store.view ∨ Storage.Pruning.prepareCheckpoint
      coordinator.store.manifest.checkpointSequence coordinator.store.view coordinator.schedule.frontier = .ok checkpoint)
    (published : Engine.publish coordinator.store checkpoint
      { coordinator.store.manifest with
        checkpointSequence := coordinator.store.manifest.durableSequence
        checkpointDigest := coordinator.store.manifest.durableDigest } placement = .ok next) :
    ∃ trace', trace.Extends trace' ∧ Tracked initialPolicy options { coordinator with
        store := { coordinator.store with manifest := next }, checkpoint := checkpoint } trace' := by
  have working := tracked.working live.1
  have drained := working.drained tracked.exact empty
  have sound := tracked.exact.sound
  rw [working.frontier, ← working.store] at viewed
  rw [← working.store] at published ⊢
  have same : SameTrees trace.course.source.serial checkpoint := by
    rcases viewed with rfl | pruned
    · exact sound.drained drained
    · exact sound.pruned pruned
  obtain ⟨step, exact', saved, at'⟩ := publish_exact tracked.exact trace.course.source.store.manifest.durableDigest
    placement same (by rw [drained]; exact published)
  exact tracked.stored working step exact' saved rfl rfl rfl at'.le

/-- Cursors or pages are published with the last checkpoint. -/
theorem Tracked.publish (tracked : coordinator.Tracked initialPolicy options trace) (live : coordinator.Live)
    {next : Storage.Manifest} {view checkpoint : View}
    (valid : Storage.Wal.validateLogs coordinator.store.files next = .ok ())
    (database : next.databaseId = coordinator.store.manifest.databaseId)
    (durable : next.durableSequence = coordinator.store.manifest.durableSequence)
    (anchor : next.checkpointSequence = coordinator.store.manifest.checkpointSequence)
    (segments : next.segments = coordinator.store.manifest.segments)
    (history : next.historyFloor = coordinator.store.manifest.historyFloor)
    (same : SameTrees coordinator.store.view view) (kept : SameTrees coordinator.checkpoint checkpoint) :
    ∃ trace', trace.Extends trace' ∧ Tracked initialPolicy options { coordinator with
        store := { coordinator.store with manifest := next, view := view }, checkpoint := checkpoint } trace' := by
  have working := tracked.working live.1
  have published := working.published
  rw [← working.store] at valid database durable anchor segments history same published ⊢
  have step := Engine.Step.publish valid database durable segments history same
  refine tracked.stored working step (tracked.exact.of_step step rfl rfl rfl) ?_ rfl rfl rfl (anchor.le.trans published)
  obtain ⟨saved, trees, presents⟩ := working.saved
  refine ⟨saved, trees.trans kept, ?_⟩
  simp only [anchor, history]
  exact presents

/-- A drained store is collected. -/
theorem Tracked.maintain (tracked : coordinator.Tracked initialPolicy options trace) (live : coordinator.Live)
    {view : View} {next : Storage.Manifest} {floor : Nat} {removed : Nat × Nat} {files : Storage.Wal.Files}
    {retired : List Storage.SegmentDescriptor} (empty : coordinator.schedule.entries = [])
    (published : coordinator.store.manifest.checkpointSequence = coordinator.schedule.frontier)
    (collected : Storage.Collect.collectView false coordinator.store.manifest.historyFloor
      coordinator.store.view floor coordinator.schedule.frontier = .ok (view, removed))
    (kept : ∀ segment ∈ next.segments,
      files.find? segment.segmentId = coordinator.store.files.find? segment.segmentId)
    (valid : Storage.Wal.validateLogs files next = .ok ())
    (database : next.databaseId = coordinator.store.manifest.databaseId)
    (durable : next.durableSequence = coordinator.store.manifest.durableSequence)
    (anchor : next.checkpointSequence = coordinator.store.manifest.checkpointSequence)
    (segments : coordinator.store.manifest.segments = retired ++ next.segments) (history : next.historyFloor = floor) :
    ∃ trace', trace.Extends trace' ∧ Tracked initialPolicy options { coordinator with
        store := { coordinator.store with manifest := next, files := files, view := view }
        checkpoint := view } trace' := by
  have working := tracked.working live.1
  have drained := working.drained tracked.exact empty
  rw [working.frontier] at published collected
  rw [← working.store] at published collected kept database durable anchor segments ⊢
  obtain ⟨serial, ordered, same⟩ := collectView_congr (tracked.exact.sound.drained drained) collected
  have step := Engine.Step.maintain drained collected ordered kept valid database durable segments history
  have exact' := tracked.exact.of_step step rfl rfl rfl
  refine tracked.stored working step exact' ⟨serial, same, ?_⟩ rfl rfl rfl (anchor.trans published).le
  simp only [anchor, published]
  exact exact'.presents_serial

/-! ## Steps -/

omit [Crc32c] [Sha256] in
/-- A coordinator that stops sends refusals only. -/
theorem refused_closing (coordinator : Coordinator) :
    ∀ reply ∈ closing coordinator, ∃ failure, reply.2 = .error failure := by
  have queued (requests : List Request) : ∀ reply ∈ refusals requests, ∃ failure, reply.2 = .error failure := by
    induction requests with
    | nil => nofun
    | cons request requests ih =>
        cases request with
        | close => exact ih
        | execute command ticket =>
            intro reply member
            rcases List.mem_cons.mp member with rfl | rest
            · exact ⟨_, rfl⟩
            · exact ih reply rest
  intro reply member
  rcases List.mem_append.mp member with first | rest
  · rcases List.mem_append.mp first with isHead | inEntries
    · obtain ⟨head, -, rfl⟩ := List.mem_map.mp isHead
      exact ⟨_, rfl⟩
    · obtain ⟨entry, -, rfl⟩ := List.mem_map.mp inEntries
      exact ⟨_, rfl⟩
  · exact queued _ reply rest

/-- Every step of a coordinator keeps it on the serial course. -/
theorem Step.tracked (step : Step options coordinator next) (answered : coordinator.Answered)
    (tracked : coordinator.Tracked initialPolicy options trace) :
    ∃ trace', trace.Extends trace' ∧ Tracked initialPolicy options next trace' := by
  have refl := Trace.Extends.refl trace
  cases step with
  | submit command fits opened => exact ⟨trace, refl, tracked.submit fits⟩
  | close opened =>
      refine ⟨trace, refl, { tracked with
        queued := fun request member => ?_, fifo := tracked.fifo.moved ?_, working := fun works => ?_ }⟩
      · simp only [← List.append_assoc] at member
        rcases List.mem_append.mp member with old | new
        · exact tracked.queued request old
        · obtain rfl := List.mem_singleton.mp new
          trivial
      · simp only [ticketsOf, List.filterMap_append, ← List.append_assoc]
        exact List.append_nil _
      · exact { tracked.working works with }
  | drop => exact ⟨trace, refl, { tracked with working := fun works => { tracked.working works with } }⟩
  | work held returned => exact ⟨trace, refl, tracked.work held returned⟩
  | complete placement live some' healthy completed => exact tracked.complete live completed
  | dispatch live healthy dispatched => exact ⟨trace, refl, tracked.dispatch live dispatched⟩
  | register live isHead isPrepared room turns gathered appended =>
      exact tracked.register answered live isHead isPrepared gathered appended
  | unregistered live isHead isPrepared room turns gathered =>
      exact ⟨trace, refl, tracked.unregistered answered live isHead isPrepared gathered⟩
  | receive live vacant taken accepted => exact ⟨trace, refl, tracked.receive live vacant taken accepted⟩
  | reject live vacant taken refused =>
      exact ⟨trace, refl, { tracked with
        queued := (queued_taken taken tracked.queued).2
        received := tracked.received.refuse _ _
        kept := tracked.kept.mono _ fun _ _ waits => .inl waits
        fifo := tracked.fifo.sublist (fewer_taken taken)
        working := fun _ => { tracked.working live.1 with } }⟩
  | shut live vacant taken =>
      exact ⟨trace, refl, { tracked with
        queued := (queued_taken taken tracked.queued).2
        fifo := tracked.fifo.sublist (fewer_taken taken)
        working := fun _ => { tracked.working live.1 with } }⟩
  | commit placement live isHead barrier empty drained committed => exact tracked.commit live isHead barrier empty committed
  | uncommitted placement live isHead barrier empty drained refused =>
      exact ⟨trace, refl, { tracked with
        received := tracked.received.refuse _ _
        kept := tracked.kept.mono _ fun _ _ waits => .inl waits
        fifo := tracked.fifo.sublist (List.Sublist.append_left (List.sublist_append_right _ _) _)
        working := fun _ => { tracked.working live.1 with head := fun _ isHead => by cases isHead } }⟩
  | checkpoint placement live empty viewed published => exact tracked.checkpoint live empty viewed published
  | publish live valid database durable digest anchor anchored segments history same kept =>
      exact tracked.publish live valid database durable anchor segments history same kept
  | maintain live empty drained collected kept valid database durable digest anchor anchored segments history =>
      exact tracked.maintain live empty drained collected kept valid database durable anchor segments history
  | rotate live => exact ⟨trace, refl, { tracked with working := fun works => { tracked.working works with } }⟩
  | fail live => exact ⟨trace, refl, { tracked with working := fun works => by cases works }⟩
  | finish live drained published =>
      exact ⟨trace, refl, { tracked with working := fun works => { tracked.working works with } }⟩
  | stop running failed =>
      have received := tracked.received.refused refl _ rfl (refused_closing coordinator)
      refine ⟨trace, refl, { tracked with
        queued := List.forall_mem_nil _
        received := received
        kept := tracked.kept.mono _ fun ticket _ waits => .inr ?_
        fifo := tracked.fifo.sublist (List.Sublist.append_left (List.nil_sublist _) _)
        working := fun works => by cases works }⟩
      obtain ⟨entry, member, rfl⟩ := List.mem_map.mp waits
      exact ⟨some entry.sequence, List.mem_append_left _ (List.mem_append_right _ (List.mem_map_of_mem member))⟩

end Coordinator

end Coordinators

end BlopDb.Engine
