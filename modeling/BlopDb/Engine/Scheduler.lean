/-
# Scheduling durable transactions

A coordinator owns the store.  It prepares the head of the submission queue, makes a
group of prepared transactions durable, hands those without unresolved dependencies
to its workers, installs what they return in any order, and lets the frontier pass
complete prefixes.  A receipt leaves when the frontier passes its record.  Catalogue
and policy records wait until the schedule is empty and run alone.
-/

import BlopDb.Engine.Admission
import BlopDb.Engine.RecordCodec
import BlopDb.Engine.Source
import BlopDb.Storage.LogValidation
import BlopDb.Storage.Pruning

namespace BlopDb.Engine

open BlopDb.Lib
open Storage (Digest Manifest TreeId View maxU64 sha256)
open Storage.Wal (Files Log appendWal)
open Vm (AccessManifest Command Outcome PreparedTransaction Scope)
open Vm.Database (install)

/-! ## The state of a coordinator -/

/-- A durable outcome in the visible prefix. -/
structure Receipt where
  sequence : Nat
  outcome : Outcome

/-- What a submitter receives, by the ticket of its submission. -/
abbrev Reply := Nat × Except Failure Receipt

/-- The prepared head of the queue.  A catalogue or policy command has no prepared part. -/
structure Head where
  command : Command
  prepared : Option Prepared
  ticket : Nat

/-- A durable transaction above the frontier. -/
structure Entry where
  sequence : Nat
  digest : Digest
  /-- What it may still write. -/
  writes : List Scope
  /-- The unresolved earlier records that may write what it reads. -/
  dependencies : List Nat
  prepared : Option PreparedTransaction
  outcome : Option Outcome
  ticket : Nat
  bytes : Nat
  reservation : Nat

/-- The durable transactions above the frontier, in order. -/
structure Schedule where
  frontier : Nat
  entries : List Entry
  assignedBytes : Nat
  reservedBytes : Nat

/-- A queued request. -/
inductive Request
  | execute (command : Command) (ticket : Nat)
  | close

/-- A transaction on its way through a worker. -/
structure Job where
  prepared : PreparedTransaction
  view : View

/-- What a worker reports; no outcome is a failure. -/
structure Completion where
  worker : Nat
  sequence : Nat
  outcome : Option Outcome

/-- The workers. -/
structure Pool where
  busy : List Bool
  /-- The jobs that workers hold. -/
  running : List (Nat × Job)
  completed : List Completion
  poisoned : Bool

/-! ## Registration -/

/-- Some write may touch some read. -/
def overlaps (writes : List Scope) (manifest : AccessManifest) : Bool :=
  manifest.reads.any fun read => writes.any fun write => Vm.overlap write read

/-- The entries that a transaction waits for.  Every unresolved possible writer
matters: a newer one can abort. -/
def waitsFor (entries : List Entry) (manifest : AccessManifest) : List Nat :=
  (entries.filter fun entry => entry.outcome.isNone && overlaps entry.writes manifest).map (·.sequence)

/-- Whether the schedule has room for a prepared transaction. -/
def hasRoom (options : EngineOptions) (schedule : Schedule) (prepared : Prepared) :
    Except (Fault Failure) Bool := do
  if schedule.entries.length = options.assignedBacklogCount then return false
  else do
    let bytes ← subChecked options.assignedBacklogBytes schedule.assignedBytes
    if prepared.bytes.length > bytes then return false
    else do
      let reservation ← subChecked options.executionBytes schedule.reservedBytes
      return decide (prepared.reservation ≤ reservation)

/-- Whether a failure stops the engine. -/
def Failure.fatal : Failure → Bool
  | .rejected _ | .operationalLimit _ _ _ => false
  | _ => true

/-- A registration in progress. -/
structure Round where
  schedule : Schedule
  head : Option Head
  receiver : List Request
  /-- A request that must wait for the schedule to drain. -/
  barrier : Option Request
  records : List (Nat × Bytes)
  replies : List Reply
  failure : Option Failure

section Records

variable [Crc32c] [Sha256]

/-- Assign a prepared transaction. -/
def Schedule.assign (schedule : Schedule) (ticket : Nat) (prepared : Prepared) :
    Except (Fault Failure) Schedule := do
  let transaction := prepared.transaction
  let assigned ← addChecked schedule.assignedBytes prepared.bytes.length
  let reserved ← addChecked schedule.reservedBytes prepared.reservation
  return { schedule with
    entries := schedule.entries ++ [{
      sequence := transaction.sequence
      digest := sha256 prepared.bytes
      writes := transaction.manifest.writes
      dependencies := waitsFor schedule.entries transaction.manifest
      prepared := some transaction
      outcome := none
      ticket := ticket
      bytes := prepared.bytes.length
      reservation := prepared.reservation }]
    assignedBytes := assigned
    reservedBytes := reserved }

/-- Assign the head, if there is room for it.  The flag says whether to go on. -/
def Round.admitHead (options : EngineOptions) (round : Round) (ticket : Nat) (prepared : Prepared) :
    Except (Fault Failure) (Round × Bool) := do
  if ← hasRoom options round.schedule prepared then do
    let schedule ← round.schedule.assign ticket prepared
    return ({ round with
      schedule := schedule
      head := none
      records := round.records ++ [(prepared.transaction.sequence, prepared.bytes)] }, true)
  else return (round, false)

/-- Receive and prepare a further transaction. -/
def Round.receive (view : View) (options : EngineOptions) (round : Round) :
    Except (Fault Failure) (Round × Bool) :=
  match round.receiver with
  | [] => .ok (round, false)
  | .execute (.transaction transaction claims manifest) ticket :: receiver =>
      match round.schedule.entries.getLast? with
      | none => .error .panic
      | some previous =>
          match prepareRecord view options previous.sequence previous.digest transaction claims manifest with
          | .error .panic => .error .panic
          | .error (.raised failure) =>
              .ok ({ round with
                receiver := receiver
                replies := round.replies ++ [(ticket, .error failure)]
                failure := if failure.fatal then some (.uncertain none) else none }, !failure.fatal)
          | .ok (command, prepared) =>
              Round.admitHead options
                { round with receiver := receiver, head := some ⟨command, some prepared, ticket⟩ }
                ticket prepared
  | request :: receiver => .ok ({ round with receiver := receiver, barrier := some request }, false)

/-- One turn of a registration.  A quiet turn found neither control requests nor
completions nor a failed worker. -/
def Round.turn (view : View) (options : EngineOptions) (quiet : Bool) (round : Round) :
    Except (Fault Failure) (Round × Bool) :=
  match round.head with
  | some ⟨_, some prepared, ticket⟩ => round.admitHead options ticket prepared
  | some ⟨_, none, _⟩ => .error .panic
  | none => if quiet then round.receive view options else .ok (round, false)

/-- Gather a group of transactions: one turn for each flag at most. -/
def Round.gather (view : View) (options : EngineOptions) :
    List Bool → Round → Except (Fault Failure) Round
  | [], round => .ok round
  | quiet :: rest, round => do
      let (round, more) ← round.turn view options quiet
      if more then gather view options rest round else return round

/-- What a registration leaves of the log, or why it failed. -/
def registerGroup (store : Store) (rotateNext : Bool) (round : Round) : Except Failure Log :=
  match round.failure with
  | some failure => .error failure
  | none =>
      match appendWal ⟨store.files, store.manifest, rotateNext, false⟩ round.records with
      | (log, .ok _) => .ok log
      | (_, .error _) => .error (.uncertain (round.records.head?.map (·.1)))

/-! ## Dispatch -/

/-- A durable record near enough above the frontier. -/
def inWindow (sequence frontier durable window : Nat) : Bool :=
  decide (sequence > frontier ∧ sequence ≤ durable ∧ sequence - frontier ≤ window)

/-- An entry can be handed to a worker. -/
def Entry.ready (entry : Entry) (frontier durable window : Nat) : Bool :=
  entry.prepared.isSome && entry.dependencies.isEmpty && inWindow entry.sequence frontier durable window

/-- Take the preparation out of the first ready entry. -/
def takeReady (frontier durable window : Nat) : List Entry → Option (PreparedTransaction × List Entry)
  | [] => none
  | entry :: rest =>
      match entry.prepared, entry.ready frontier durable window with
      | some prepared, true => some (prepared, { entry with prepared := none } :: rest)
      | _, _ => (takeReady frontier durable window rest).map fun (prepared, rest) => (prepared, entry :: rest)

/-- Hand ready entries to the workers from a number on; the flag says whether any was. -/
def dispatchFrom (store : Store) (window : Nat) : Nat → Nat → Schedule → Pool → Schedule × Pool × Bool
  | 0, _, schedule, pool => (schedule, pool, false)
  | fuel + 1, worker, schedule, pool =>
      if pool.busy[worker]? = some false then
        match takeReady schedule.frontier store.manifest.durableSequence window schedule.entries with
        | none => (schedule, pool, false)
        | some (prepared, entries) =>
            -- The root includes every installed predecessor; versions exclude later records.
            let pool := { pool with
              busy := pool.busy.set worker true
              running := pool.running ++ [(worker, ⟨prepared, store.view⟩)] }
            let (schedule, pool, _) :=
              dispatchFrom store window fuel (worker + 1) { schedule with entries := entries } pool
            (schedule, pool, true)
      else dispatchFrom store window fuel (worker + 1) schedule pool

/-- Hand ready entries to idle workers. -/
def dispatch (store : Store) (schedule : Schedule) (pool : Pool) (window : Nat) : Schedule × Pool × Bool :=
  dispatchFrom store window pool.busy.length 0 schedule pool

/-! ## Publication -/

/-- What the page file and the directory contribute to a publication. -/
structure Placement where
  generation : Nat
  roots : Storage.Roots
  pageCount : Nat

/-- The manifest that a publication selects. -/
def publish (store : Store) (checkpoint : View) (manifest : Manifest)
    (placement : Except Storage.Error Placement) : Except Storage.Error Manifest := do
  Storage.Wal.validateTransition store.manifest manifest
  refuse (checkpoint.roots .cursors ≠ store.view.roots .cursors)
    (.invalidInput "checkpoint has stale cursor metadata")
  let placement ← placement
  let next := { manifest with
    generation := placement.generation
    roots := placement.roots
    pageCount := placement.pageCount }
  (Storage.Metadata.validateManifest next).mapError .invalidInput
  Storage.Wal.validateLogs store.files next
  Storage.Wal.validateAnchors store.files store.manifest next
  return next

/-- Publish a checkpoint of everything durable. -/
def publishCheckpoint (store : Store) (placement : Except Storage.Error Placement) :
    Except Storage.Error Manifest :=
  publish store store.view
    { store.manifest with
      checkpointSequence := store.manifest.durableSequence
      checkpointDigest := store.manifest.durableDigest } placement

/-! ## Completion -/

/-- Set the outcome of an entry and clear it from the dependencies of the others.
Sequences of entries are distinct. -/
def resolveEntries (sequence : Nat) (outcome : Outcome) (entries : List Entry) : List Entry :=
  entries.map fun entry =>
    let entry := if entry.sequence = sequence then { entry with outcome := some outcome, writes := [] } else entry
    { entry with dependencies := entry.dependencies.filter (· ≠ sequence) }

/-- Install a reported outcome. -/
def settle (store : Store) (schedule : Schedule) (completion : Completion) :
    Except (Fault Vm.Error) (Store × Schedule) :=
  match completion.outcome with
  | none => .error (.raised (.storage .io))
  | some outcome =>
      match schedule.entries.find? fun entry => decide (entry.sequence = completion.sequence) with
      | none => .error .panic
      | some entry => do
          let view ← install false store.manifest.checkpointSequence store.view entry.sequence entry.digest.1 1
            outcome
          return ({ store with view := view },
            { schedule with entries := resolveEntries completion.sequence outcome schedule.entries })

/-- Install reported outcomes in the order of their reports. -/
def settleAll (store : Store) (schedule : Schedule) :
    List Completion → Except (Fault Vm.Error) (Store × Schedule)
  | [] => .ok (store, schedule)
  | completion :: rest => do
      let (store, schedule) ← settle store schedule completion
      settleAll store schedule rest

/-- The resolved entries directly above the frontier. -/
def resolvedPrefix (schedule : Schedule) : List Entry :=
  (schedule.entries.filter fun entry => decide (entry.sequence > schedule.frontier)).takeWhile (·.outcome.isSome)

/-- Publish a checkpoint at the frontier when enough records have become visible. -/
def checkpointFrontier (store : Store) (checkpoint : View) (frontier : Nat) (digest : Digest) (interval : Nat)
    (placement : Except Storage.Error Placement) : Except (Fault Vm.Error) (Store × View) := do
  let passed ← subChecked frontier store.manifest.checkpointSequence
  if passed ≥ interval then do
    let manifest := { store.manifest with checkpointSequence := frontier, checkpointDigest := digest }
    let checkpoint ← raise Vm.Error.storage <|
      if frontier = manifest.durableSequence then .ok store.view
      else Storage.Pruning.prepareCheckpoint store.manifest.checkpointSequence store.view frontier
    let manifest ← raise Vm.Error.storage (publish store checkpoint manifest placement)
    return ({ store with manifest := manifest }, checkpoint)
  else return (store, checkpoint)

/-- Retire the entries at or below the frontier and send their receipts. -/
def retire (frontier : Nat) : List Entry → Nat → Nat → Except (Fault Vm.Error) (List Reply × Schedule)
  | [], assigned, reserved => .ok ([], ⟨frontier, [], assigned, reserved⟩)
  | entry :: rest, assigned, reserved =>
      if entry.sequence ≤ frontier then
        match entry.outcome with
        | none => .error .panic
        | some outcome => do
            let assigned ← subChecked assigned entry.bytes
            let reserved ← subChecked reserved entry.reservation
            let (replies, schedule) ← retire frontier rest assigned reserved
            return ((entry.ticket, .ok ⟨entry.sequence, outcome⟩) :: replies, schedule)
      else .ok ([], ⟨frontier, entry :: rest, assigned, reserved⟩)

/-- Free the worker of a completion. -/
def Pool.release (pool : Pool) (completion : Completion) : Pool :=
  { pool with busy := pool.busy.set completion.worker false }

/-- Install all reported outcomes, advance the frontier, publish a checkpoint when it is
due and send the receipts of the visible prefix. -/
def complete (store : Store) (checkpoint : View) (schedule : Schedule) (completed : List Completion)
    (interval : Nat) (placement : Except Storage.Error Placement) :
    Except (Fault Vm.Error) (Store × View × Schedule × List Reply) := do
  let (store, schedule) ← settleAll store schedule completed
  match (resolvedPrefix schedule).getLast? with
  | none => return (store, checkpoint, schedule, [])
  | some last => do
      let (store, checkpoint) ←
        checkpointFrontier store checkpoint last.sequence last.digest interval placement
      let (replies, schedule) ←
        retire last.sequence schedule.entries schedule.assignedBytes schedule.reservedBytes
      return (store, checkpoint, schedule, replies)

/-! ## Barriers -/

/-- Failures after a record was handed to the log. -/
def uncertain {ε α : Type} (sequence : Nat) : Except (Fault ε) α → Except (Fault Failure) α :=
  relay fun _ => .uncertain (some sequence)

/-- Sequence and execute one command on a drained store. -/
def commit (store : Store) (rotateNext : Bool) (command : Command) (placement : Except Storage.Error Placement) :
    Except (Fault Failure) (Store × Receipt) := do
  raise id (refuse (store.manifest.checkpointSequence ≠ store.manifest.durableSequence) (.storage .needsRecovery))
  let sequence ← raise id (nextSequence store.manifest.durableSequence)
  let command ← relay rejection (Record.prepare store.view sequence command)
  let (kind, body) ← relay rejection (Record.encode command)
  let bytes ← raise rejection (envelope sequence store.manifest.durableDigest kind body)
  let log ← match appendWal ⟨store.files, store.manifest, rotateNext, false⟩ [(sequence, bytes)] with
    | (log, .ok _) => (.ok log : Except (Fault Failure) Log)
    | (_, .error _) => .error (.raised (.uncertain (some sequence)))
  let store := { store with files := log.files, manifest := log.manifest }
  let (outcome, view) ← uncertain sequence
    ((Record.execute store.manifest.checkpointSequence store.view sequence (sha256 bytes).1 command).getD
      (.error .panic))
  let store := { store with view := view }
  let manifest ← uncertain sequence (raise id (publishCheckpoint store placement))
  return ({ store with manifest := manifest }, ⟨sequence, outcome⟩)

/-! ## Steps -/

/-- A coordinator with its store, its queues and its workers. -/
structure Coordinator where
  store : Store
  /-- The next group starts a new segment. -/
  rotateNext : Bool
  /-- The trees of the last checkpoint. -/
  checkpoint : View
  schedule : Schedule
  head : Option Head
  pending : Option Request
  receiver : List Request
  closed : Bool
  pool : Pool
  /-- Every command submitted so far, by its ticket. -/
  submissions : List Command
  replies : List Reply
  failed : Bool
  finished : Bool

/-- The coordinator of an open store. -/
def Coordinator.start (options : EngineOptions) (store : Store) (rotateNext : Bool) : Coordinator where
  store := store
  rotateNext := rotateNext
  checkpoint := store.view
  schedule := ⟨store.manifest.checkpointSequence, [], 0, 0⟩
  head := none
  pending := none
  receiver := []
  closed := false
  pool := ⟨List.replicate options.workers false, [], [], false⟩
  submissions := []
  replies := []
  failed := false
  finished := false

/-- The replies that a coordinator owes to queued requests. -/
def refusals : List Request → List Reply
  | [] => []
  | .execute _ ticket :: rest => (ticket, .error .closed) :: refusals rest
  | .close :: rest => refusals rest

/-- The replies of a coordinator that stops. -/
def closing (coordinator : Coordinator) : List Reply :=
  (coordinator.head.toList.map fun head => (head.ticket, .error .closed)) ++
    (coordinator.schedule.entries.map fun entry => (entry.ticket, .error (.uncertain (some entry.sequence)))) ++
    refusals (coordinator.pending.toList ++ coordinator.receiver)

/-- What a worker may report for a job: it may fail at any time. -/
inductive Returns (poisoned : Bool) (job : Job) : Option Outcome → Prop
  | failed : Returns poisoned job none
  | outcome {outcome : Outcome} (healthy : poisoned = false)
      (ran : Vm.interpretPrepared job.view job.prepared = some (.ok outcome)) : Returns poisoned job (some outcome)

namespace Coordinator

/-- The coordinator still works. -/
def Live (coordinator : Coordinator) : Prop := coordinator.failed = false ∧ coordinator.finished = false

/-- Nothing is left to do. -/
def Drained (coordinator : Coordinator) : Prop :=
  coordinator.closed = true ∧ coordinator.receiver = [] ∧ coordinator.pending = none ∧
    coordinator.head = none ∧ coordinator.schedule.entries = []

/-- The next request with the queues behind it: one that was put back comes first. -/
inductive Takes (coordinator : Coordinator) : Request → Option Request → List Request → Prop
  | pending {request : Request} (isPending : coordinator.pending = some request) :
      Takes coordinator request none coordinator.receiver
  | received {request : Request} {receiver : List Request} (none' : coordinator.pending = none)
      (isFirst : coordinator.receiver = request :: receiver) : Takes coordinator request none receiver

/-- One step of a coordinator, of a worker or of a submitter. -/
inductive Step (options : EngineOptions) : Coordinator → Coordinator → Prop
  /-- A command enters the queue. -/
  | submit {coordinator : Coordinator} (command : Command) (fits : Record.Representable command)
      (opened : coordinator.closed = false) :
      Step options coordinator { coordinator with
        receiver := coordinator.receiver ++ [.execute command coordinator.submissions.length]
        submissions := coordinator.submissions ++ [command] }
  /-- A handle asks to close. -/
  | close {coordinator : Coordinator} (opened : coordinator.closed = false) :
      Step options coordinator { coordinator with receiver := coordinator.receiver ++ [.close] }
  /-- All handles are dropped. -/
  | drop {coordinator : Coordinator} : Step options coordinator { coordinator with closed := true }
  /-- A worker reports. -/
  | work {coordinator : Coordinator} {before after : List (Nat × Job)} {worker : Nat} {job : Job}
      {outcome : Option Outcome} (held : coordinator.pool.running = before ++ (worker, job) :: after)
      (returned : Returns coordinator.pool.poisoned job outcome) :
      Step options coordinator { coordinator with pool := { coordinator.pool with
        running := before ++ after
        completed := coordinator.pool.completed ++ [⟨worker, job.prepared.sequence, outcome⟩]
        poisoned := coordinator.pool.poisoned || outcome.isNone } }
  /-- The reports are installed. -/
  | complete {coordinator : Coordinator} {store : Store} {checkpoint : View} {schedule : Schedule}
      {replies : List Reply} (placement : Except Storage.Error Placement) (live : coordinator.Live)
      (some' : coordinator.pool.completed ≠ []) (healthy : coordinator.pool.poisoned = false)
      (completed : Engine.complete coordinator.store coordinator.checkpoint coordinator.schedule
        coordinator.pool.completed options.checkpointInterval placement =
          .ok (store, checkpoint, schedule, replies)) :
      Step options coordinator { coordinator with
        store := store
        checkpoint := checkpoint
        schedule := schedule
        pool := { coordinator.pool.completed.foldl Pool.release coordinator.pool with completed := [] }
        replies := coordinator.replies ++ replies }
  /-- Ready entries are handed to idle workers. -/
  | dispatch {coordinator : Coordinator} {schedule : Schedule} {pool : Pool} (live : coordinator.Live)
      (healthy : coordinator.pool.poisoned = false)
      (dispatched : Engine.dispatch coordinator.store coordinator.schedule coordinator.pool
        options.executionWindow = (schedule, pool, true)) :
      Step options coordinator { coordinator with schedule := schedule, pool := pool }
  /-- A group becomes durable. -/
  | register {coordinator : Coordinator} {head : Head} {prepared : Prepared} {quiet : List Bool} {round : Round}
      {log : Log} (live : coordinator.Live) (isHead : coordinator.head = some head)
      (isPrepared : head.prepared = some prepared)
      (room : hasRoom options coordinator.schedule prepared = .ok true)
      (turns : quiet.length = min coordinator.receiver.length 63 + 1)
      (gathered : Round.gather coordinator.store.view options quiet ⟨coordinator.schedule, coordinator.head,
        coordinator.receiver, coordinator.pending, [], [], none⟩ = .ok round)
      (appended : registerGroup coordinator.store coordinator.rotateNext round = .ok log) :
      Step options coordinator { coordinator with
        store := { coordinator.store with files := log.files, manifest := log.manifest }
        rotateNext := log.rotateNext
        schedule := round.schedule
        head := round.head
        pending := round.barrier
        receiver := round.receiver
        replies := coordinator.replies ++ round.replies }
  /-- A group was gathered and could not be made durable. -/
  | unregistered {coordinator : Coordinator} {head : Head} {prepared : Prepared} {quiet : List Bool} {round : Round}
      (live : coordinator.Live) (isHead : coordinator.head = some head)
      (isPrepared : head.prepared = some prepared)
      (room : hasRoom options coordinator.schedule prepared = .ok true)
      (turns : quiet.length = min coordinator.receiver.length 63 + 1)
      (gathered : Round.gather coordinator.store.view options quiet ⟨coordinator.schedule, coordinator.head,
        coordinator.receiver, coordinator.pending, [], [], none⟩ = .ok round) :
      Step options coordinator { coordinator with
        schedule := round.schedule
        head := round.head
        pending := round.barrier
        receiver := round.receiver
        replies := coordinator.replies ++ round.replies
        failed := true }
  /-- A request becomes the head. -/
  | receive {coordinator : Coordinator} {command command' : Command} {ticket : Nat} {pending : Option Request}
      {receiver : List Request} {prepared : Option Prepared} (live : coordinator.Live)
      (vacant : coordinator.head = none) (taken : coordinator.Takes (.execute command ticket) pending receiver)
      (accepted : prepare coordinator.store.view options coordinator.store.manifest.durableSequence
        coordinator.store.manifest.durableDigest command = .ok (command', prepared)) :
      Step options coordinator { coordinator with
        head := some ⟨command', prepared, ticket⟩, pending := pending, receiver := receiver }
  /-- A request is refused before sequencing. -/
  | reject {coordinator : Coordinator} {command : Command} {ticket : Nat} {pending : Option Request}
      {receiver : List Request} {failure : Failure} (live : coordinator.Live)
      (vacant : coordinator.head = none) (taken : coordinator.Takes (.execute command ticket) pending receiver)
      (refused : prepare coordinator.store.view options coordinator.store.manifest.durableSequence
        coordinator.store.manifest.durableDigest command = .error (.raised failure)) :
      Step options coordinator { coordinator with
        pending := pending
        receiver := receiver
        replies := coordinator.replies ++ [(ticket, .error failure)]
        failed := failure.fatal }
  /-- The queue is closed. -/
  | shut {coordinator : Coordinator} {pending : Option Request} {receiver : List Request}
      (live : coordinator.Live) (vacant : coordinator.head = none)
      (taken : coordinator.Takes .close pending receiver) :
      Step options coordinator { coordinator with pending := pending, receiver := receiver, closed := true }
  /-- A barrier runs on the drained store. -/
  | commit {coordinator : Coordinator} {head : Head} {store : Store} {receipt : Receipt}
      (placement : Except Storage.Error Placement) (live : coordinator.Live)
      (isHead : coordinator.head = some head) (barrier : head.prepared = none)
      (empty : coordinator.schedule.entries = [])
      (drained : coordinator.store.manifest.checkpointSequence = coordinator.schedule.frontier)
      (committed : Engine.commit coordinator.store coordinator.rotateNext head.command placement =
        .ok (store, receipt)) :
      Step options coordinator { coordinator with
        store := store
        rotateNext := false
        checkpoint := store.view
        schedule := { coordinator.schedule with frontier := receipt.sequence }
        head := none
        replies := coordinator.replies ++ [(head.ticket, .ok receipt)] }
  /-- A barrier is refused, or it may be durable and the engine stops. -/
  | uncommitted {coordinator : Coordinator} {head : Head} {failure : Failure}
      (placement : Except Storage.Error Placement) (live : coordinator.Live)
      (isHead : coordinator.head = some head) (barrier : head.prepared = none)
      (empty : coordinator.schedule.entries = [])
      (drained : coordinator.store.manifest.checkpointSequence = coordinator.schedule.frontier)
      (refused : Engine.commit coordinator.store coordinator.rotateNext head.command placement =
        .error (.raised failure)) :
      Step options coordinator { coordinator with
        head := none
        replies := coordinator.replies ++ [(head.ticket, .error failure)]
        failed := failure.fatal }
  /-- A drained store is published: before a barrier, before maintenance and at the end. -/
  | checkpoint {coordinator : Coordinator} {checkpoint : View} {manifest : Manifest}
      (placement : Except Storage.Error Placement) (live : coordinator.Live)
      (empty : coordinator.schedule.entries = [])
      (viewed : checkpoint = coordinator.store.view ∨ Storage.Pruning.prepareCheckpoint
        coordinator.store.manifest.checkpointSequence coordinator.store.view coordinator.schedule.frontier =
          .ok checkpoint)
      (published : Engine.publish coordinator.store checkpoint
        { coordinator.store.manifest with
          checkpointSequence := coordinator.store.manifest.durableSequence
          checkpointDigest := coordinator.store.manifest.durableDigest } placement = .ok manifest) :
      Step options coordinator { coordinator with
        store := { coordinator.store with manifest := manifest }, checkpoint := checkpoint }
  /-- Cursors or compacted pages are published with the last checkpoint. -/
  | publish {coordinator : Coordinator} {next : Manifest} {view checkpoint : View} (live : coordinator.Live)
      (valid : Storage.Wal.validateLogs coordinator.store.files next = .ok ())
      (database : next.databaseId = coordinator.store.manifest.databaseId)
      (durable : next.durableSequence = coordinator.store.manifest.durableSequence)
      (digest : next.durableDigest = coordinator.store.manifest.durableDigest)
      (anchor : next.checkpointSequence = coordinator.store.manifest.checkpointSequence)
      (anchored : next.checkpointDigest = coordinator.store.manifest.checkpointDigest)
      (segments : next.segments = coordinator.store.manifest.segments)
      (history : next.historyFloor = coordinator.store.manifest.historyFloor)
      (same : SameTrees coordinator.store.view view) (kept : SameTrees coordinator.checkpoint checkpoint) :
      Step options coordinator { coordinator with
        store := { coordinator.store with manifest := next, view := view }, checkpoint := checkpoint }
  /-- A drained and published store is collected, and old segments are retired. -/
  | maintain {coordinator : Coordinator} {view : View} {next : Manifest} {floor : Nat} {removed : Nat × Nat}
      {files : Files} {retired : List Storage.SegmentDescriptor} (live : coordinator.Live)
      (empty : coordinator.schedule.entries = [])
      (drained : coordinator.store.manifest.checkpointSequence = coordinator.schedule.frontier)
      (collected : Storage.Collect.collectView false coordinator.store.manifest.historyFloor
        coordinator.store.view floor coordinator.schedule.frontier = .ok (view, removed))
      (kept : ∀ segment ∈ next.segments,
        files.find? segment.segmentId = coordinator.store.files.find? segment.segmentId)
      (valid : Storage.Wal.validateLogs files next = .ok ())
      (database : next.databaseId = coordinator.store.manifest.databaseId)
      (durable : next.durableSequence = coordinator.store.manifest.durableSequence)
      (digest : next.durableDigest = coordinator.store.manifest.durableDigest)
      (anchor : next.checkpointSequence = coordinator.store.manifest.checkpointSequence)
      (anchored : next.checkpointDigest = coordinator.store.manifest.checkpointDigest)
      (segments : coordinator.store.manifest.segments = retired ++ next.segments)
      (history : next.historyFloor = floor) :
      Step options coordinator { coordinator with
        store := { coordinator.store with manifest := next, files := files, view := view }
        checkpoint := view }
  /-- The next group shall start a new segment. -/
  | rotate {coordinator : Coordinator} (live : coordinator.Live) :
      Step options coordinator { coordinator with rotateNext := true }
  /-- Anything but a worker fails. -/
  | fail {coordinator : Coordinator} (live : coordinator.Live) :
      Step options coordinator { coordinator with failed := true }
  /-- The coordinator stops after all work is done and published. -/
  | finish {coordinator : Coordinator} (live : coordinator.Live) (drained : coordinator.Drained)
      (published : coordinator.store.manifest.checkpointSequence = coordinator.schedule.frontier) :
      Step options coordinator { coordinator with finished := true }
  /-- A failed coordinator stops and answers what it still owes. -/
  | stop {coordinator : Coordinator} (running : coordinator.finished = false)
      (failed : coordinator.failed = true ∨ coordinator.pool.poisoned = true) :
      Step options coordinator { coordinator with
        head := none
        pending := none
        receiver := []
        closed := true
        schedule := { coordinator.schedule with entries := [] }
        replies := coordinator.replies ++ closing coordinator
        failed := true
        finished := true }

/-- The coordinators that runs from a coordinator reach. -/
def Steps (options : EngineOptions) : Coordinator → Coordinator → Prop :=
  Relation.ReflTransGen (Step options)

end Coordinator

end Records

end BlopDb.Engine
