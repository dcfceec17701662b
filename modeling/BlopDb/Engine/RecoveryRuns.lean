/-
# Runs and recoveries

A run never loses the record of its checkpoint: a step keeps the checkpoint, or the log
retains the record of the next one.  A coordinator that ends between two steps therefore
leaves a disk from which recovery repeats its whole log, with every receipt it sent, and
the recovered store is open for the next run.
-/

import BlopDb.Engine.RecoverySound

namespace BlopDb.Engine

open BlopDb.Lib
open Storage (LimitPolicy Manifest)
open Storage.Wal (Anchored Record)

section Runs

variable [Crc32c] [Sha256] {initialPolicy : LimitPolicy}

/-! ## The record of the checkpoint -/

/-- The checkpoint is the old one, or the log may retain its record. -/
def KeepsCheckpoint (before after : Manifest) : Prop :=
  (after.checkpointSequence = before.checkpointSequence ∧ after.checkpointDigest = before.checkpointDigest) ∨
    after.logFloor ≤ after.checkpointSequence

/-- A publication does not change the digest of a checkpoint. -/
theorem publish_keepsCheckpoint {store : Store} {checkpoint : Storage.View} {manifest next : Manifest}
    {placement : Except Storage.Error Placement} (published : publish store checkpoint manifest placement = .ok next)
    (isFloor : manifest.logFloor = store.manifest.logFloor)
    (floor : store.manifest.logFloor ≤ store.manifest.checkpointSequence + 1) :
    KeepsCheckpoint store.manifest next := by
  obtain ⟨place, transition, -, rfl, -⟩ := publish_eq_ok published
  obtain ⟨⟨⟩, -, transition⟩ := bind_eq_ok.mp transition
  obtain ⟨⟨⟩, advances, -⟩ := bind_eq_ok.mp transition
  have advances := refuse_eq_ok.mp advances
  simp only [not_or, not_and, not_not, not_lt] at advances
  obtain ⟨forward, -, -, -, -, -, same, -⟩ := advances
  by_cases kept : manifest.checkpointSequence = store.manifest.checkpointSequence
  · exact .inl ⟨kept, same kept⟩
  · refine .inr (show manifest.logFloor ≤ manifest.checkpointSequence from ?_)
    omega

/-- An append leaves the checkpoint as it is. -/
theorem append_keepsCheckpoint {log log' : Storage.Wal.Log} {records : List (Nat × Lib.Bytes)} {digest : Storage.Digest}
    (appended : Storage.Wal.appendWal log records = (log', .ok digest)) :
    log'.manifest.logFloor = log.manifest.logFloor ∧
      log'.manifest.checkpointSequence = log.manifest.checkpointSequence ∧
      log'.manifest.checkpointDigest = log.manifest.checkpointDigest := by
  obtain ⟨append, list, plans, -, -, isNext⟩ := appendWal_ok appended
  obtain ⟨-, -, -, floor, -, checkpoint, same, -⟩ := plans_next plans
  rw [isNext]
  exact ⟨floor, checkpoint, same⟩

/-- The journal of a later source anchors its checkpoint. -/
theorem anchored_of_keeps {source next : Source} (sound : source.Sound initialPolicy) (sound' : next.Sound initialPolicy)
    (grows : source.journal <+: next.journal) (anchored : Anchored source.store.manifest source.journal)
    (keeps : KeepsCheckpoint source.store.manifest next.store.manifest) : Anchored next.store.manifest next.journal := by
  rcases keeps with ⟨isCheckpoint, isDigest⟩ | retained
  · intro record member atCheckpoint
    obtain ⟨position, found⟩ := List.getElem?_of_mem member
    have numbered := sound'.numbered found
    have bound := sound.valid.frontiers.checkpoint
    have journaled := sound.journaled
    have inside : position < source.journal.length := by omega
    have isRecord := getElem?_of_prefix grows (List.getElem?_eq_getElem inside)
    obtain rfl := Option.some.inj (isRecord.symm.trans found)
    rw [isDigest]
    exact anchored _ (List.getElem_mem inside) (atCheckpoint.trans isCheckpoint)
  · exact sound'.anchored_retained retained

namespace Coordinator

variable {options : EngineOptions} {course : Course} {store : Store} {rotateNext : Bool}
variable {coordinator next : Coordinator} {trace : Trace}

/-- Every step keeps the record of the checkpoint. -/
theorem Step.keepsCheckpoint (step : Step options coordinator next)
    (floor : coordinator.store.manifest.logFloor ≤ coordinator.store.manifest.checkpointSequence + 1) :
    KeepsCheckpoint coordinator.store.manifest next.store.manifest := by
  cases step with
  | complete placement live some' healthy completed =>
      obtain ⟨middle, settled, isSettled, outcome⟩ := complete_eq_ok completed
      obtain ⟨-, -, -, isManifest⟩ := settleAll_kept isSettled
      have kept : KeepsCheckpoint coordinator.store.manifest middle.manifest :=
        .inl ⟨by rw [isManifest], by rw [isManifest]⟩
      rcases outcome with ⟨-, rfl, -⟩ | ⟨last, -, published, -⟩
      · exact kept
      · rcases checkpointFrontier_eq_ok published with ⟨rfl, -⟩ | ⟨next, selected, -, rfl⟩
        · exact kept
        · rw [← isManifest] at floor ⊢
          exact publish_keepsCheckpoint selected rfl floor
  | register live isHead isPrepared room turns gathered appended =>
      obtain ⟨digest, appended⟩ := registerGroup_eq_ok appended
      exact .inl (append_keepsCheckpoint appended).2
  | commit placement live isHead barrier empty drained committed =>
      obtain ⟨prepared, kind, body, bytes, log, committed⟩ := commit_eq_ok committed
      obtain ⟨digest, appended⟩ := committed.appended
      obtain ⟨isFloor, isCheckpoint, isDigest⟩ := append_keepsCheckpoint appended
      have published := committed.published
      rcases publish_keepsCheckpoint published rfl (by rw [isFloor, isCheckpoint]; exact floor) with ⟨kept, same⟩ | retained
      · exact .inl ⟨kept.trans isCheckpoint, same.trans isDigest⟩
      · exact .inr retained
  | checkpoint placement live empty viewed published => exact publish_keepsCheckpoint published rfl floor
  | publish live valid database durable digest anchor anchored => exact .inl ⟨anchor, anchored⟩
  | maintain live empty drained collected kept valid database durable digest anchor anchored =>
      exact .inl ⟨anchor, anchored⟩
  | _ => exact .inl ⟨rfl, rfl⟩

/-- A coordinator that works has worked before. -/
theorem Step.works (step : Step options coordinator next) (works : next.failed = false) : coordinator.failed = false := by
  cases step with
  | submit | close | drop | work => exact works
  | stop => cases works
  | _ => exact (show coordinator.Live by assumption).1

/-- Every run keeps the record of the checkpoint. -/
theorem Steps.anchored (steps : Steps options coordinator next) (answered : coordinator.Answered)
    (tracked : coordinator.Tracked initialPolicy options trace)
    (anchored : coordinator.failed = false → Anchored coordinator.store.manifest trace.course.source.journal) :
    ∃ trace', trace.Extends trace' ∧ next.Tracked initialPolicy options trace' ∧
      (next.failed = false → Anchored next.store.manifest trace'.course.source.journal) := by
  induction steps with
  | refl => exact ⟨trace, .refl trace, tracked, anchored⟩
  | tail steps step ih =>
      obtain ⟨middle, extends', tracked', anchored'⟩ := ih
      obtain ⟨trace', extends'', tracked''⟩ := step.tracked (Steps.answered steps answered) tracked'
      refine ⟨trace', extends'.trans extends'', tracked'', fun works => ?_⟩
      have worked := step.works works
      have isStore := (tracked'.working worked).store
      have isStore' := (tracked''.working works).store
      have sound := tracked'.exact.sound
      have floor := sound.valid.frontiers.floor.2
      rw [isStore] at floor
      have keeps := step.keepsCheckpoint floor
      have anchored' := anchored' worked
      rw [← isStore] at keeps anchored'
      rw [← isStore'] at keeps ⊢
      exact anchored_of_keeps sound tracked''.exact.sound extends''.journal anchored' keeps

/-- What a coordinator leaves on disk is a checkpoint of its log. -/
theorem Steps.leaves (steps : Steps options (start options store rotateNext) next) (opens : course.Opens initialPolicy store)
    (anchored : Anchored store.manifest course.source.journal) (works : next.failed = false) :
    ∃ course' owners, Course.Leaves initialPolicy course' next.store next.checkpoint ∧
      Serialized initialPolicy course.source.journal next course'.source.journal course'.outcomes course'.final owners := by
  obtain ⟨trace, extends', tracked, anchored'⟩ :=
    Steps.anchored steps (answered_start store rotateNext) (tracked_start opens) fun _ => anchored
  have whole : course.source.frontier = course.source.journal.length := by
    rw [opens.drained, ← opens.stored, opens.exact.sound.journaled]
  have working := tracked.working works
  exact ⟨trace.course, trace.owners, ⟨tracked.exact, working.store, working.saved, anchored' works⟩,
    tracked.serialized (Steps.answered steps (answered_start store rotateNext)) extends'.journal
      (extends'.base.trans whole)⟩

/-! ## Recovery of a run -/

/-- The receipts and the store after lives of an engine: each runs, ends between two
steps and is recovered. -/
inductive Lives (initialPolicy : LimitPolicy) (options : EngineOptions) (store : Store) : List Receipt → Store → Prop
  | opened : Lives initialPolicy options store [] store
  | life {receipts : List Receipt} {middle recovered : Store} {rotateNext : Bool} {next : Coordinator}
      {placement : Except Storage.Error Placement} (before : Lives initialPolicy options store receipts middle)
      (steps : Steps options (start options middle rotateNext) next) (works : next.failed = false)
      (isRecovered : recover initialPolicy { next.store with view := next.checkpoint } next.checkpoint placement =
        .ok recovered) :
      Lives initialPolicy options store (receipts ++ (receiptsOf next.replies).map Prod.snd) recovered

omit [Crc32c] in
/-- A longer log has the outcomes of a shorter one. -/
theorem outcomes_prefix {log log' : List Record} {outcomes outcomes' : List Vm.Outcome} {view view' : Storage.View}
    (serial : Serial initialPolicy log outcomes view) (serial' : Serial initialPolicy log' outcomes' view')
    (grows : log <+: log') : outcomes <+: outcomes' := by
  obtain ⟨earlier, taken⟩ := serial'.take log.length
  rw [← List.prefix_iff_eq_take.mp grows] at taken
  rw [(serial.unique taken).1]
  exact List.take_prefix _ _

/-- Receipts that name records of a log, each a later one. -/
structure Acknowledged (receipts : List Receipt) (outcomes : List Vm.Outcome) : Prop where
  ordered : receipts.Pairwise (·.sequence < ·.sequence)
  resolved : ∀ receipt ∈ receipts, ∃ position, receipt.sequence = position + 1 ∧
    outcomes[position]? = some receipt.outcome

omit [Crc32c] [Sha256] in
/-- The receipts of a run follow those of the runs before. -/
theorem Acknowledged.append {receipts more : List Receipt} {outcomes outcomes' : List Vm.Outcome}
    (acknowledged : Acknowledged receipts outcomes) (grows : outcomes <+: outcomes')
    (numbered : ∀ position receipt, more[position]? = some receipt →
      receipt.sequence = outcomes.length + position + 1 ∧ outcomes'[outcomes.length + position]? = some receipt.outcome) :
    Acknowledged (receipts ++ more) outcomes' := by
  obtain ⟨ordered, resolved⟩ := acknowledged
  refine ⟨List.pairwise_append.mpr ⟨ordered, ?_, ?_⟩, ?_⟩
  · rw [List.pairwise_iff_getElem]
    intro position position' inside inside' less
    have first := (numbered position _ (List.getElem?_eq_getElem inside)).1
    have second := (numbered position' _ (List.getElem?_eq_getElem inside')).1
    omega
  · intro receipt old receipt' new
    obtain ⟨position, isSequence, has⟩ := resolved receipt old
    obtain ⟨position', found⟩ := List.getElem?_of_mem new
    have inside := (List.getElem?_eq_some_iff.mp has).1
    have later := (numbered position' receipt' found).1
    omega
  · intro receipt member
    rcases List.mem_append.mp member with old | new
    · obtain ⟨position, isSequence, has⟩ := resolved receipt old
      exact ⟨position, isSequence, getElem?_of_prefix grows has⟩
    · obtain ⟨position, found⟩ := List.getElem?_of_mem new
      obtain ⟨isSequence, has⟩ := numbered position receipt found
      exact ⟨_, isSequence, has⟩

end Coordinator

end Runs

namespace Sample

open Storage.Wal.Sample (created)
open Coordinator (Steps start)

end Sample

end BlopDb.Engine
