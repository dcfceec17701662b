/-
# What a dispatch and a completion do

A dispatch takes preparations out of entries.  Reports are installed one by one, the frontier passes the resolved entries above it, a
checkpoint is published when it is due, and the entries that the frontier passed leave
with their receipts.
-/

import BlopDb.Engine.AdmissionSound
import BlopDb.Engine.Scheduler

namespace BlopDb.Engine

open BlopDb.Lib
open Storage (Digest Manifest View)
open Storage.Wal (validateLogs)
open Vm (Outcome)
open Vm.Database (install)

/-! ## Dispatch -/

section Fields

variable {α : Type} {field : Entry → α}

/-- What a preparation does not change is kept by a dispatch. -/
theorem map_takeReady (keeps : ∀ entry : Entry, field { entry with prepared := none } = field entry)
    {frontier durable window : Nat} {entries after : List Entry} {prepared : Vm.PreparedTransaction}
    (taken : takeReady frontier durable window entries = some (prepared, after)) :
    after.map field = entries.map field := by
  induction entries generalizing after with
  | nil => cases taken
  | cons entry entries ih =>
      unfold takeReady at taken
      split at taken
      · cases taken
        rw [List.map_cons, List.map_cons, keeps]
      · obtain ⟨⟨prepared', rest⟩, found, same⟩ := Option.map_eq_some_iff.mp taken
        cases same
        rw [List.map_cons, List.map_cons, ih found]

theorem map_dispatchFrom (keeps : ∀ entry : Entry, field { entry with prepared := none } = field entry) {store : Store}
    {window fuel worker : Nat} {schedule : Schedule} {pool : Pool} :
    (dispatchFrom store window fuel worker schedule pool).1.entries.map field = schedule.entries.map field := by
  induction fuel generalizing worker schedule pool with
  | zero => rfl
  | succ fuel ih =>
      unfold dispatchFrom
      split
      · split
        · rfl
        · rename_i prepared entries taken
          exact ih.trans (map_takeReady keeps taken)
      · exact ih

/-- A dispatch changes entries and flights only. -/
theorem dispatchFrom_kept {store : Store} {window fuel worker : Nat} {schedule : Schedule} {pool : Pool} :
    let result := dispatchFrom store window fuel worker schedule pool
    result.1.frontier = schedule.frontier ∧ result.1.assignedBytes = schedule.assignedBytes ∧
      result.1.reservedBytes = schedule.reservedBytes ∧ result.2.1.completed = pool.completed ∧
      result.2.1.poisoned = pool.poisoned ∧ result.2.1.busy.length = pool.busy.length := by
  induction fuel generalizing worker schedule pool with
  | zero => exact ⟨rfl, rfl, rfl, rfl, rfl, rfl⟩
  | succ fuel ih =>
      unfold dispatchFrom
      split
      · split
        · exact ⟨rfl, rfl, rfl, rfl, rfl, rfl⟩
        · obtain ⟨frontier, assigned, reserved, completed, poisoned, busy⟩ := ih
          exact ⟨frontier, assigned, reserved, completed, poisoned, busy.trans (List.length_set ..)⟩
      · exact ih

end Fields

/-! ## Receipts -/

/-- The receipt of a resolved entry. -/
def Entry.receipt (entry : Entry) : Option Reply :=
  entry.outcome.map fun outcome => (entry.ticket, .ok ⟨entry.sequence, outcome⟩)

theorem tickets_receipt {done : List Entry} (resolved : ∀ entry ∈ done, entry.outcome.isSome) :
    (done.filterMap Entry.receipt).map Prod.fst = done.map (·.ticket) := by
  induction done with
  | nil => rfl
  | cons entry done ih =>
      obtain ⟨outcome, isOutcome⟩ := Option.isSome_iff_exists.mp (resolved entry List.mem_cons_self)
      have isReceipt : entry.receipt = some (entry.ticket, .ok ⟨entry.sequence, outcome⟩) := by
        rw [Entry.receipt, isOutcome]
        rfl
      rw [List.filterMap_cons_some isReceipt, List.map_cons, List.map_cons,
        ih fun entry member => resolved entry (List.mem_cons_of_mem _ member)]

/-- The receipts among replies. -/
def receiptsOf : List Reply → List (Nat × Receipt)
  | [] => []
  | (ticket, .ok receipt) :: rest => (ticket, receipt) :: receiptsOf rest
  | (_, .error _) :: rest => receiptsOf rest

theorem receiptsOf_append (replies more : List Reply) :
    receiptsOf (replies ++ more) = receiptsOf replies ++ receiptsOf more := by
  induction replies with
  | nil => rfl
  | cons reply replies ih =>
      obtain ⟨ticket, failure | receipt⟩ := reply
      · simp only [List.cons_append, receiptsOf, ih]
      · simp only [List.cons_append, receiptsOf, ih]

theorem mem_receiptsOf {replies : List Reply} {ticket : Nat} {receipt : Receipt} :
    (ticket, receipt) ∈ receiptsOf replies ↔ (ticket, .ok receipt) ∈ replies := by
  induction replies with
  | nil => simp [receiptsOf]
  | cons reply replies ih =>
      obtain ⟨other, failure | receipt'⟩ := reply
      · simp [receiptsOf, ih]
      · simp [receiptsOf, ih]

/-- Replies without a receipt. -/
theorem receiptsOf_refused {replies : List Reply} (refused : ∀ reply ∈ replies, ∃ failure, reply.2 = .error failure) :
    receiptsOf replies = [] := by
  rw [List.eq_nil_iff_forall_not_mem]
  rintro ⟨ticket, receipt⟩ member
  obtain ⟨failure, isFailure⟩ := refused _ (mem_receiptsOf.mp member)
  cases isFailure

/-- The receipts of resolved entries, one for each. -/
theorem receiptsOf_entries {done : List Entry} (resolved : ∀ entry ∈ done, entry.outcome.isSome) :
    (receiptsOf (done.filterMap Entry.receipt)).length = done.length ∧
      ∀ (position ticket : Nat) (receipt : Receipt),
        (receiptsOf (done.filterMap Entry.receipt))[position]? = some (ticket, receipt) →
        ∃ entry, done[position]? = some entry ∧ entry.ticket = ticket ∧ receipt.sequence = entry.sequence ∧
          entry.outcome = some receipt.outcome := by
  induction done with
  | nil => exact ⟨rfl, nofun⟩
  | cons entry done ih =>
      obtain ⟨outcome, isOutcome⟩ := Option.isSome_iff_exists.mp (resolved entry List.mem_cons_self)
      obtain ⟨length, found⟩ := ih fun other member => resolved other (List.mem_cons_of_mem _ member)
      have isReceipt : entry.receipt = some (entry.ticket, .ok ⟨entry.sequence, outcome⟩) := by
        rw [Entry.receipt, isOutcome]
        rfl
      rw [List.filterMap_cons_some isReceipt, receiptsOf]
      refine ⟨by rw [List.length_cons, List.length_cons, length], fun position ticket receipt isSome => ?_⟩
      cases position with
      | zero =>
          cases isSome
          exact ⟨entry, rfl, rfl, rfl, isOutcome⟩
      | succ position => exact found position ticket receipt isSome

/-! ## Retirement -/

/-- The entries that retire are the resolved ones up to the frontier. -/
theorem retire_eq_ok {frontier assigned reserved : Nat} {entries : List Entry} {replies : List Reply}
    {schedule : Schedule} (retired : retire frontier entries assigned reserved = .ok (replies, schedule)) :
    ∃ done rest, entries = done ++ rest ∧ (∀ entry ∈ done, entry.sequence ≤ frontier ∧ entry.outcome.isSome) ∧
      (∀ entry ∈ rest.head?, frontier < entry.sequence) ∧ replies = done.filterMap Entry.receipt ∧
      (done.map (·.bytes)).sum ≤ assigned ∧ (done.map (·.reservation)).sum ≤ reserved ∧
      schedule = ⟨frontier, rest, assigned - (done.map (·.bytes)).sum, reserved - (done.map (·.reservation)).sum⟩ := by
  induction entries generalizing assigned reserved replies schedule with
  | nil =>
      cases retired
      exact ⟨[], [], rfl, nofun, nofun, rfl, Nat.zero_le _, Nat.zero_le _, rfl⟩
  | cons entry entries ih =>
      unfold retire at retired
      split_ifs at retired with passed
      · cases isOutcome : entry.outcome with
        | none =>
            rw [isOutcome] at retired
            cases retired
        | some outcome =>
            rw [isOutcome] at retired
            obtain ⟨assigned', room, retired⟩ := bind_eq_ok.mp retired
            obtain ⟨reserved', room', retired⟩ := bind_eq_ok.mp retired
            obtain ⟨⟨replies', schedule'⟩, later, same⟩ := bind_eq_ok.mp retired
            cases same
            obtain ⟨within, rfl⟩ := subChecked_eq_ok.mp room
            obtain ⟨within', rfl⟩ := subChecked_eq_ok.mp room'
            obtain ⟨done, rest, rfl, inside, above, rfl, bound, bound', rfl⟩ := ih later
            have isReceipt : entry.receipt = some (entry.ticket, .ok ⟨entry.sequence, outcome⟩) := by
              rw [Entry.receipt, isOutcome]
              rfl
            refine ⟨entry :: done, rest, rfl, ?_, above, (List.filterMap_cons_some isReceipt).symm, ?_, ?_, ?_⟩
            · intro other member
              rcases List.mem_cons.mp member with rfl | old
              · exact ⟨passed, by rw [isOutcome]; rfl⟩
              · exact inside other old
            · rw [List.map_cons, List.sum_cons]
              omega
            · rw [List.map_cons, List.sum_cons]
              omega
            · simp only [List.map_cons, List.sum_cons, Nat.sub_sub]
      · cases retired
        refine ⟨[], entry :: entries, rfl, nofun, ?_, rfl, Nat.zero_le _, Nat.zero_le _, rfl⟩
        rintro other ⟨⟩
        exact not_le.mp passed

/-! ## Settlement -/

/-- A settled report installed its outcome and resolved its entry. -/
theorem settle_eq_ok {store store' : Store} {schedule schedule' : Schedule} {completion : Completion}
    (settled : settle store schedule completion = .ok (store', schedule')) :
    ∃ outcome entry view, completion.outcome = some outcome ∧ entry ∈ schedule.entries ∧
      entry.sequence = completion.sequence ∧
      install false store.manifest.checkpointSequence store.view entry.sequence entry.digest.1 1 outcome = .ok view ∧
      store' = { store with view := view } ∧
      schedule' = { schedule with entries := resolveEntries completion.sequence outcome schedule.entries } := by
  unfold settle at settled
  split at settled
  · cases settled
  · rename_i outcome isOutcome
    split at settled
    · cases settled
    · rename_i entry found
      obtain ⟨view, installed, same⟩ := bind_eq_ok.mp settled
      cases same
      have same := List.find?_some found
      exact ⟨outcome, entry, view, isOutcome, List.mem_of_find?_eq_some found, of_decide_eq_true same, installed, rfl, rfl⟩

section Fields

variable {α : Type} {field : Entry → α}

/-- What a resolution does not change is kept by a settlement. -/
theorem map_settleAll
    (keeps : ∀ (entry : Entry) (writes : List Vm.Scope) (dependencies : List Nat) (outcome : Option Outcome),
      field { entry with writes := writes, dependencies := dependencies, outcome := outcome } = field entry)
    {store store' : Store} {schedule schedule' : Schedule} {completed : List Completion}
    (settled : settleAll store schedule completed = .ok (store', schedule')) :
    schedule'.entries.map field = schedule.entries.map field := by
  induction completed generalizing store schedule with
  | nil =>
      cases settled
      rfl
  | cons completion completed ih =>
      obtain ⟨⟨middle, between⟩, first, rest⟩ := bind_eq_ok.mp settled
      obtain ⟨outcome, entry, view, -, -, -, -, -, rfl⟩ := settle_eq_ok first
      refine (ih rest).trans ?_
      simp only [resolveEntries, List.map_map]
      apply List.map_congr_left
      intro entry _
      simp only [Function.comp_apply]
      split
      · exact keeps entry [] _ _
      · exact keeps entry entry.writes _ entry.outcome

/-- A settlement changes the roots and the entries only. -/
theorem settleAll_kept {store store' : Store} {schedule schedule' : Schedule} {completed : List Completion}
    (settled : settleAll store schedule completed = .ok (store', schedule')) :
    schedule'.frontier = schedule.frontier ∧ schedule'.assignedBytes = schedule.assignedBytes ∧
      schedule'.reservedBytes = schedule.reservedBytes ∧ store'.manifest = store.manifest := by
  induction completed generalizing store schedule with
  | nil =>
      cases settled
      exact ⟨rfl, rfl, rfl, rfl⟩
  | cons completion completed ih =>
      obtain ⟨⟨middle, between⟩, first, rest⟩ := bind_eq_ok.mp settled
      obtain ⟨outcome, entry, view, -, -, -, -, rfl, rfl⟩ := settle_eq_ok first
      have kept := ih rest
      exact kept

end Fields

/-! ## Publication -/

section Publication

variable [Crc32c] [Sha256] {store store' : Store} {checkpoint checkpoint' : View} {manifest next : Manifest}
variable {placement : Except Storage.Error Placement}

/-- A published manifest selects the log that was published. -/
theorem publish_eq_ok (published : publish store checkpoint manifest placement = .ok next) :
    ∃ place : Placement, Storage.Wal.validateTransition store.manifest manifest = .ok () ∧
      checkpoint.roots .cursors = store.view.roots .cursors ∧
      next = { manifest with generation := place.generation, roots := place.roots, pageCount := place.pageCount } ∧
      validateLogs store.files next = .ok () := by
  obtain ⟨⟨⟩, transition, published⟩ := bind_eq_ok.mp published
  obtain ⟨⟨⟩, current, published⟩ := bind_eq_ok.mp published
  obtain ⟨place, -, published⟩ := bind_eq_ok.mp published
  obtain ⟨⟨⟩, -, published⟩ := bind_eq_ok.mp published
  obtain ⟨⟨⟩, valid, published⟩ := bind_eq_ok.mp published
  obtain ⟨⟨⟩, -, published⟩ := bind_eq_ok.mp published
  cases published
  exact ⟨place, transition, not_not.mp (refuse_eq_ok.mp current), rfl, valid⟩

/-- The checkpoint at a frontier, when one is due. -/
theorem checkpointFrontier_eq_ok {frontier interval : Nat} {digest : Digest}
    (published : checkpointFrontier store checkpoint frontier digest interval placement =
      .ok (store', checkpoint')) :
    (store' = store ∧ checkpoint' = checkpoint) ∨ ∃ next,
      publish store checkpoint' { store.manifest with checkpointSequence := frontier, checkpointDigest := digest }
        placement = .ok next ∧
      (frontier = store.manifest.durableSequence ∧ checkpoint' = store.view ∨
        Storage.Pruning.prepareCheckpoint store.manifest.checkpointSequence store.view frontier = .ok checkpoint') ∧
      store' = { store with manifest := next } := by
  obtain ⟨passed, -, published⟩ := bind_eq_ok.mp published
  split_ifs at published with due
  · obtain ⟨checkpoint'', pruned, published⟩ := bind_eq_ok.mp published
    obtain ⟨next, isNext, same⟩ := bind_eq_ok.mp published
    cases same
    refine .inr ⟨next, raise_eq_ok.mp isNext, ?_, rfl⟩
    rw [raise_eq_ok] at pruned
    split_ifs at pruned with all
    · cases pruned
      exact .inl ⟨all, rfl⟩
    · exact .inr pruned
  · cases published
    exact .inl ⟨rfl, rfl⟩

/-- A completion settles the reports and retires what the frontier passed. -/
theorem complete_eq_ok {schedule schedule' : Schedule} {completed : List Completion} {replies : List Reply}
    {interval : Nat} (finished : complete store checkpoint schedule completed interval placement =
      .ok (store', checkpoint', schedule', replies)) :
    ∃ middle settled, settleAll store schedule completed = .ok (middle, settled) ∧
      ((resolvedPrefix settled = [] ∧ store' = middle ∧ checkpoint' = checkpoint ∧ schedule' = settled ∧ replies = []) ∨
        ∃ last, (resolvedPrefix settled).getLast? = some last ∧
          checkpointFrontier middle checkpoint last.sequence last.digest interval placement =
            .ok (store', checkpoint') ∧
          retire last.sequence settled.entries settled.assignedBytes settled.reservedBytes =
            .ok (replies, schedule')) := by
  obtain ⟨⟨middle, settled⟩, isSettled, finished⟩ := bind_eq_ok.mp finished
  refine ⟨middle, settled, isSettled, ?_⟩
  simp only at finished
  split at finished
  · rename_i none'
    cases finished
    exact .inl ⟨List.getLast?_eq_none_iff.mp none', rfl, rfl, rfl, rfl⟩
  · rename_i last isLast
    obtain ⟨⟨store'', checkpoint''⟩, published, finished⟩ := bind_eq_ok.mp finished
    obtain ⟨⟨replies', schedule''⟩, retired, same⟩ := bind_eq_ok.mp finished
    cases same
    exact .inr ⟨last, isLast, published, retired⟩

/-- What a committed barrier did, step by step. -/
structure Committed (store : Store) (rotateNext : Bool) (command : Vm.Command)
    (placement : Except Storage.Error Placement) (store' : Store) (receipt : Receipt) (prepared : Vm.Command)
    (kind : Nat) (body bytes : Bytes) (log : Storage.Wal.Log) : Prop where
  drained : store.manifest.checkpointSequence = store.manifest.durableSequence
  small : store.manifest.durableSequence + 1 < Storage.maxU64
  valid : Record.prepare store.view (store.manifest.durableSequence + 1) command = .ok prepared
  encoded : Record.encode prepared = .ok (kind, body)
  framed : envelope (store.manifest.durableSequence + 1) store.manifest.durableDigest kind body = .ok bytes
  appended : ∃ digest, Storage.Wal.appendWal ⟨store.files, store.manifest, rotateNext, false⟩
    [(store.manifest.durableSequence + 1, bytes)] = (log, .ok digest)
  numbered : receipt.sequence = store.manifest.durableSequence + 1
  executed : Record.execute log.manifest.checkpointSequence store.view receipt.sequence (Storage.sha256 bytes).1
    prepared = some (.ok (receipt.outcome, store'.view))
  published : publishCheckpoint { store with files := log.files, manifest := log.manifest, view := store'.view }
    placement = .ok store'.manifest
  rest : store' = { store with files := log.files, manifest := store'.manifest, view := store'.view }

theorem commit_eq_ok {rotateNext : Bool} {command : Vm.Command} {receipt : Receipt}
    (committed : commit store rotateNext command placement = .ok (store', receipt)) :
    ∃ prepared kind body bytes log,
      Committed store rotateNext command placement store' receipt prepared kind body bytes log := by
  obtain ⟨⟨⟩, drained, committed⟩ := bind_eq_ok.mp committed
  obtain ⟨sequence, next, committed⟩ := bind_eq_ok.mp committed
  obtain ⟨⟨⟩, small, isSequence⟩ := bind_eq_ok.mp (raise_eq_ok.mp next)
  cases isSequence
  obtain ⟨prepared, valid, committed⟩ := bind_eq_ok.mp committed
  obtain ⟨⟨kind, body⟩, encoded, committed⟩ := bind_eq_ok.mp committed
  obtain ⟨bytes, framed, committed⟩ := bind_eq_ok.mp committed
  simp only at committed
  split at committed
  · rename_i log digest appended
    obtain ⟨_, same, committed⟩ := bind_eq_ok.mp committed
    cases same
    obtain ⟨⟨outcome, view⟩, executed, committed⟩ := bind_eq_ok.mp committed
    obtain ⟨next, published, same⟩ := bind_eq_ok.mp committed
    cases same
    refine ⟨prepared, kind, body, bytes, log, ?_⟩
    exact
      { drained := not_not.mp (refuse_eq_ok.mp (raise_eq_ok.mp drained))
        small := not_le.mp (refuse_eq_ok.mp small)
        valid := relay_eq_ok.mp valid
        encoded := relay_eq_ok.mp encoded
        framed := raise_eq_ok.mp framed
        appended := ⟨digest, appended⟩
        numbered := rfl
        executed := by
          have found := relay_eq_ok.mp executed
          cases ran : Record.execute log.manifest.checkpointSequence store.view (store.manifest.durableSequence + 1)
              (Storage.sha256 bytes).1 prepared with
          | none =>
              simp only [ran, Option.getD_none] at found
              cases found
          | some result =>
              simp only [ran, Option.getD_some] at found
              rw [found]
        published := raise_eq_ok.mp (relay_eq_ok.mp published)
        rest := rfl }
  · obtain ⟨_, same, -⟩ := bind_eq_ok.mp committed
    cases same

end Publication

end BlopDb.Engine
