/-
# Dispatching, settling and passing entries

A dispatched transaction runs on live roots that give it its serial outcome.  Each
settled report is one installation on the serial course, each resolved entry above
the frontier one advance of it.  The entries that leave are exactly the resolved prefix,
and their receipts carry the serial outcomes in the order of the log.
-/

import BlopDb.Engine.Completion
import BlopDb.Engine.Flights
import BlopDb.Engine.Logical

namespace BlopDb.Engine

open BlopDb.Lib
open Storage (Digest LimitPolicy Manifest View maxU64)
open Vm (Outcome)

variable [Crc32c] [Sha256] {initialPolicy : LimitPolicy} {course : Course} {entries : List Entry}

/-! ## Settlement -/

/-- What a change of a source leaves alone while records are installed. -/
structure Source.Installs (source next : Source) : Prop where
  steps : Relation.ReflTransGen Step source next
  journal : next.journal = source.journal
  frontier : next.frontier = source.frontier
  serial : next.serial = source.serial
  manifest : next.store.manifest = source.store.manifest
  files : next.store.files = source.store.files

theorem Source.Installs.trans {source middle next : Source} (first : source.Installs middle)
    (second : middle.Installs next) : source.Installs next :=
  ⟨first.steps.trans second.steps, second.journal.trans first.journal, second.frontier.trans first.frontier,
    second.serial.trans first.serial, second.manifest.trans first.manifest, second.files.trans first.files⟩

/-- A report is installed on the serial course. -/
theorem settle_exact (exact : course.Exact initialPolicy) {store : Store} {schedule next : Schedule} {pool : Pool}
    {completion : Completion} {rest : List Completion}
    (lined : Lined initialPolicy course.source.journal course.outcomes course.final course.source.frontier
      course.source.ahead schedule.entries)
    (flying : Flying course.outcomes schedule.entries { pool with completed := completion :: rest })
    (settled : settle course.source.store schedule completion = .ok (store, next)) :
    ∃ source, Course.Exact initialPolicy { course with source := source } ∧ course.source.Installs source ∧
      source.store = store ∧
      Lined initialPolicy source.journal course.outcomes course.final source.frontier source.ahead next.entries ∧
      Flying course.outcomes next.entries { pool.release completion with completed := rest } ∧
      next.frontier = schedule.frontier := by
  obtain ⟨outcome, entry, view, isOutcome, member, same, installed, rfl, rfl⟩ := settle_eq_ok settled
  obtain ⟨before, after, split⟩ := List.append_of_mem member
  have numbered := lined.numbered _ _ _ split
  obtain ⟨prepared, outcome', scheduled, -⟩ := lined.assigned _ _ _ split
  obtain ⟨record, found, isDigest, one⟩ := scheduled.record
  have isPrior : prepared.prior + 1 = entry.sequence := scheduled.numbered
  have small := exact.length_lt
  have inside := (List.getElem?_eq_some_iff.mp found).1
  have isSequence := exact.sound.numbered found
  obtain ⟨bytes, installs⟩ := Vm.Database.install_installs (by omega) installed
  have has := flying.completed completion List.mem_cons_self outcome isOutcome
  rw [← same] at has
  have inFlight : entry.sequence ∈ Pool.flights { pool with completed := completion :: rest } := by
    rw [same, Pool.flights, List.mem_append]
    exact .inr (List.mem_map_of_mem List.mem_cons_self)
  have taken := ((flying.inFlight entry member).mp inFlight).1
  have logged : Logged course.source.journal entry.sequence entry.digest.1 1 :=
    ⟨record, List.mem_of_getElem? found, by omega, congrArg Subtype.val isDigest, one⟩
  have step := Step.install (by omega) logged installs.encoded installed
  refine ⟨_, exact.of_step step rfl rfl rfl, ⟨.single step, rfl, rfl, rfl, rfl, rfl⟩, rfl, ?_, ?_, rfl⟩
  · rw [← same]
    exact lined.settled split has taken
  · exact flying.settle

/-- All reports are installed on the serial course. -/
theorem settleAll_exact {store : Store} {schedule next : Schedule} {pool : Pool} {completed : List Completion}
    (exact : course.Exact initialPolicy)
    (lined : Lined initialPolicy course.source.journal course.outcomes course.final course.source.frontier
      course.source.ahead schedule.entries)
    (flying : Flying course.outcomes schedule.entries { pool with completed := completed })
    (settled : settleAll course.source.store schedule completed = .ok (store, next)) :
    ∃ source, Course.Exact initialPolicy { course with source := source } ∧ course.source.Installs source ∧
      source.store = store ∧
      Lined initialPolicy source.journal course.outcomes course.final source.frontier source.ahead next.entries ∧
      Flying course.outcomes next.entries { completed.foldl Pool.release pool with completed := [] } ∧
      next.frontier = schedule.frontier := by
  induction completed generalizing course schedule pool with
  | nil =>
      cases settled
      exact ⟨course.source, exact, ⟨.refl, rfl, rfl, rfl, rfl, rfl⟩, rfl, lined, flying, rfl⟩
  | cons completion completed ih =>
      obtain ⟨⟨middle, between⟩, first, later⟩ := bind_eq_ok.mp settled
      obtain ⟨source, exact', installs, rfl, lined', flying', same⟩ := settle_exact exact lined flying first
      obtain ⟨source', exact'', installs', isStore, lined'', flying'', same'⟩ :=
        @ih { course with source := source } between (pool.release completion) exact' lined' flying' later
      exact ⟨source', exact'', installs.trans installs', isStore, lined'', flying'', same'.trans same⟩

/-! ## The frontier -/

/-- What the frontier leaves alone when it passes records. -/
structure Source.Passes (source next : Source) (count : Nat) : Prop where
  steps : Relation.ReflTransGen Step source next
  journal : next.journal = source.journal
  frontier : next.frontier = source.frontier + count
  store : next.store = source.store

/-- The frontier passes resolved entries on the serial course. -/
theorem pass_exact (course : Course) {done rest : List Entry} (exact : course.Exact initialPolicy)
    (published : course.source.store.manifest.checkpointSequence ≤ course.source.frontier)
    (lined : Lined initialPolicy course.source.journal course.outcomes course.final course.source.frontier
      course.source.ahead (done ++ rest)) (resolved : ∀ entry ∈ done, entry.outcome.isSome) :
    ∃ source, Course.Exact initialPolicy { course with source := source } ∧
      course.source.Passes source done.length ∧
      Lined initialPolicy source.journal course.outcomes course.final source.frontier source.ahead rest := by
  induction done generalizing course with
  | nil => exact ⟨course.source, exact, ⟨.refl, rfl, rfl, rfl⟩, lined⟩
  | cons entry done ih =>
      obtain ⟨outcome, isOutcome⟩ := Option.isSome_iff_exists.mp (resolved entry List.mem_cons_self)
      have numbered := lined.numbered [] entry (done ++ rest) rfl
      obtain ⟨prepared, outcome', scheduled, progress⟩ := lined.assigned [] entry (done ++ rest) rfl
      obtain ⟨record, found, isDigest, one⟩ := scheduled.record
      have isPrior : prepared.prior + 1 = entry.sequence := scheduled.numbered
      rw [List.length_nil] at numbered
      have has := scheduled.has
      rw [show prepared.prior = course.source.frontier by omega] at found has
      cases progress with
      | unresolved none' =>
          rw [isOutcome] at none'
          cases none'
      | resolved some' taken present =>
          obtain ⟨bytes, present⟩ := present
          rw [show entry.sequence = course.source.frontier + 1 by omega] at present
          obtain ⟨serial, step, exact'⟩ := exact.advance _ published found present
            (congrArg Subtype.val isDigest).symm one.symm has
          obtain ⟨source, exact'', passes, lined'⟩ := ih _ exact' (Nat.le_succ_of_le published)
            (lined.passed isOutcome) fun other member => resolved other (List.mem_cons_of_mem _ member)
          refine ⟨source, exact'', ⟨.head step passes.steps, passes.journal, ?_, passes.store⟩, lined'⟩
          rw [passes.frontier, List.length_cons]
          change course.source.frontier + 1 + done.length = _
          omega

omit [Crc32c] in
/-- The resolved prefix is what the frontier passes. -/
theorem resolvedPrefix_split (course : Course) {schedule : Schedule}
    (lined : Lined initialPolicy course.source.journal course.outcomes course.final schedule.frontier
      course.source.ahead schedule.entries) :
    ∃ rest, schedule.entries = resolvedPrefix schedule ++ rest ∧
      (∀ entry ∈ resolvedPrefix schedule, entry.outcome.isSome) ∧ ∀ entry ∈ rest.head?, entry.outcome = none := by
  have whole : (schedule.entries.filter fun entry => decide (entry.sequence > schedule.frontier)) = schedule.entries := by
    rw [List.filter_eq_self]
    intro entry member
    obtain ⟨before, after, split⟩ := List.append_of_mem member
    have numbered := lined.numbered _ _ _ split
    exact decide_eq_true (by omega)
  refine ⟨schedule.entries.dropWhile (·.outcome.isSome), ?_, ?_, ?_⟩
  · rw [resolvedPrefix, whole, List.takeWhile_append_dropWhile]
  · intro entry member
    exact List.all_eq_true.mp List.all_takeWhile entry member
  · intro entry isFirst
    have dropped := List.head?_dropWhile_not (fun entry : Entry => entry.outcome.isSome) schedule.entries
    rw [isFirst] at dropped
    simpa using dropped

omit [Crc32c] in
/-- The entries up to the last passed sequence are the passed ones. -/
theorem retired_eq (course : Course) {schedule : Schedule} {frontier : Nat} {done rest done' rest' : List Entry}
    (lined : Lined initialPolicy course.source.journal course.outcomes course.final frontier
      course.source.ahead schedule.entries) (split : schedule.entries = done ++ rest)
    (split' : schedule.entries = done' ++ rest')
    (inside : ∀ entry ∈ done', entry.sequence ≤ frontier + done.length)
    (above : ∀ entry ∈ rest'.head?, frontier + done.length < entry.sequence) : done' = done ∧ rest' = rest := by
  refine List.append_inj (split'.symm.trans split) (le_antisymm ?_ ?_)
  · by_contra longer
    obtain ⟨before, last, isDone⟩ : ∃ before last, done' = before ++ [last] := by
      rcases List.eq_nil_or_concat done' with rfl | ⟨before, last, isDone⟩
      · exact absurd (Nat.zero_le _) longer
      · exact ⟨before, last, isDone.trans List.concat_eq_append⟩
    have numbered := lined.numbered before last rest' (by rw [split', isDone, List.append_assoc]; rfl)
    have bound := inside last (by rw [isDone]; simp)
    rw [isDone, List.length_append, List.length_singleton] at longer
    omega
  · by_contra shorter
    cases rest' with
    | nil =>
        have lengths := congrArg List.length (split'.symm.trans split)
        rw [List.append_nil, List.length_append] at lengths
        omega
    | cons entry rest' =>
        have numbered := lined.numbered done' entry rest' split'
        have bound := above entry rfl
        omega

/-! ## Dispatch -/

omit [Crc32c] [Sha256] in
/-- The first ready entry gives its preparation away. -/
theorem takeReady_eq_some {frontier durable window : Nat} {after : List Entry} {prepared : Vm.PreparedTransaction}
    (taken : takeReady frontier durable window entries = some (prepared, after)) :
    ∃ before entry rest, entries = before ++ entry :: rest ∧ entry.prepared = some prepared ∧
      entry.dependencies = [] ∧ after = before ++ { entry with prepared := none } :: rest := by
  induction entries generalizing after with
  | nil => cases taken
  | cons entry entries ih =>
      unfold takeReady at taken
      split at taken
      · rename_i isPrepared ready
        cases taken
        simp only [Entry.ready, Bool.and_eq_true, List.isEmpty_iff] at ready
        exact ⟨[], entry, entries, rfl, isPrepared, ready.1.2, rfl⟩
      · obtain ⟨⟨prepared', rest⟩, found, same⟩ := Option.map_eq_some_iff.mp taken
        cases same
        obtain ⟨before, ready, rest, rfl, isPrepared, independent, rfl⟩ := ih found
        exact ⟨entry :: before, ready, rest, rfl, isPrepared, independent, rfl⟩

omit [Crc32c] in
/-- Entries without one preparation, by position and by sequence. -/
theorem Lined.without {before after : List Entry} {entry : Entry} {log : List Storage.Wal.Record}
    {outcomes : List Outcome} {final : View} {frontier : Nat} {ahead : Nat → Option Installed}
    (lined : Lined initialPolicy log outcomes final frontier ahead entries) (split : entries = before ++ entry :: after) :
    entries.map (withoutPreparation entry.sequence) = before ++ { entry with prepared := none } :: after := by
  have others (other : Entry) (member : other ∈ before ∨ other ∈ after) :
      withoutPreparation entry.sequence other = other := by
    unfold withoutPreparation
    refine if_neg fun same => ?_
    rcases member with member | member
    · obtain ⟨left, right, isBefore⟩ := List.append_of_mem member
      have split' : entries = left ++ other :: (right ++ entry :: after) := by
        rw [split, isBefore, List.append_assoc]
        rfl
      obtain ⟨isLeft, -, -⟩ := lined.unique split split' same.symm
      have lengths := congrArg List.length (isLeft.symm.trans rfl)
      rw [isBefore] at lengths
      simp at lengths
    · obtain ⟨left, right, isAfter⟩ := List.append_of_mem member
      have split' : entries = (before ++ entry :: left) ++ other :: right := by
        rw [split, isAfter, List.append_assoc]
        rfl
      obtain ⟨isLeft, -, -⟩ := lined.unique split split' same.symm
      have lengths := congrArg List.length isLeft
      simp at lengths
  rw [split, List.map_append, List.map_cons]
  have isBefore : before.map (withoutPreparation entry.sequence) = before :=
    (List.map_congr_left fun other member => others other (.inl member)).trans (List.map_id before)
  have isAfter : after.map (withoutPreparation entry.sequence) = after :=
    (List.map_congr_left fun other member => others other (.inr member)).trans (List.map_id after)
  rw [isBefore, isAfter, withoutPreparation, if_pos rfl]

/-- Dispatched transactions run on roots that give them their serial outcomes. -/
theorem dispatchFrom_exact (exact : course.Exact initialPolicy) {window fuel worker : Nat} {schedule : Schedule}
    {pool : Pool}
    (lined : Lined initialPolicy course.source.journal course.outcomes course.final course.source.frontier
      course.source.ahead schedule.entries) (flying : Flying course.outcomes schedule.entries pool) :
    Lined initialPolicy course.source.journal course.outcomes course.final course.source.frontier course.source.ahead
        (dispatchFrom course.source.store window fuel worker schedule pool).1.entries ∧
      Flying course.outcomes (dispatchFrom course.source.store window fuel worker schedule pool).1.entries
        (dispatchFrom course.source.store window fuel worker schedule pool).2.1 := by
  induction fuel generalizing worker schedule pool with
  | zero => exact ⟨lined, flying⟩
  | succ fuel ih =>
      unfold dispatchFrom
      split
      · rename_i idle
        split
        · exact ⟨lined, flying⟩
        · rename_i prepared after taken
          obtain ⟨before, entry, rest, split, isPrepared, independent, rfl⟩ := takeReady_eq_some taken
          obtain ⟨prepared', outcome, scheduled, progress⟩ := lined.assigned _ _ _ split
          cases progress with
          | resolved some' taken' => exact absurd (isPrepared.symm.trans taken') (Option.some_ne_none _)
          | unresolved none' taken' writes dependencies absent =>
              obtain rfl := taken' prepared isPrepared
              rw [independent] at dependencies
              have ran := interpretPrepared_serial exact lined split scheduled dependencies.symm
              have isPrior : prepared.prior + 1 = entry.sequence := scheduled.numbered
              have has := scheduled.has
              rw [show prepared.prior = entry.sequence - 1 by omega] at has
              have unique : ∀ other ∈ schedule.entries, other.sequence = entry.sequence → other = entry := by
                intro other member same
                obtain ⟨left, right, split'⟩ := List.append_of_mem member
                exact (lined.unique split' split same).2.1
              have flying' := flying.dispatch split unique idle isPrepared none' scheduled.numbered has ran
              have lined' := lined.dispatched entry.sequence
              rw [lined.without split] at flying' lined'
              exact ih lined' flying'
      · exact ih lined flying

/-! ## Checkpoints -/

omit [Crc32c] in
/-- A checkpoint presents the records up to its sequence. -/
def Course.Saved (initialPolicy : LimitPolicy) (course : Course) (checkpoint : View) : Prop :=
  ∃ view, SameTrees view checkpoint ∧
    Presents initialPolicy (course.records.take course.source.store.manifest.checkpointSequence)
      course.source.store.manifest.historyFloor view

/-- A published checkpoint of the visible records. -/
theorem publish_exact (exact : course.Exact initialPolicy) {checkpoint : View} {next : Manifest} (digest : Digest)
    (placement : Except Storage.Error Placement) (same : SameTrees course.source.serial checkpoint)
    (published : publish course.source.store checkpoint
      { course.source.store.manifest with checkpointSequence := course.source.frontier, checkpointDigest := digest }
      placement = .ok next) :
    Step course.source { course.source with store := { course.source.store with manifest := next } } ∧
      Course.Exact initialPolicy { course with source := { course.source with
        store := { course.source.store with manifest := next } } } ∧
      Course.Saved initialPolicy { course with source := { course.source with
        store := { course.source.store with manifest := next } } } checkpoint ∧
      next.checkpointSequence = course.source.frontier := by
  obtain ⟨place, -, -, rfl, valid⟩ := publish_eq_ok published
  have step : Step course.source { course.source with store := { course.source.store with manifest := _ } } :=
    Step.publish valid rfl rfl rfl rfl (SameTrees.refl _)
  exact ⟨step, exact.of_step step rfl rfl rfl, ⟨course.source.serial, same, exact.presents_serial⟩, rfl⟩

/-- A published checkpoint of a drained source. -/
theorem publishCheckpoint_exact (exact : course.Exact initialPolicy) {next : Manifest}
    {placement : Except Storage.Error Placement}
    (drained : course.source.frontier = course.source.store.manifest.durableSequence)
    (published : publishCheckpoint course.source.store placement = .ok next) :
    Step course.source { course.source with store := { course.source.store with manifest := next } } ∧
      Course.Exact initialPolicy { course with source := { course.source with
        store := { course.source.store with manifest := next } } } ∧
      Course.Saved initialPolicy { course with source := { course.source with
        store := { course.source.store with manifest := next } } } course.source.store.view ∧
      next.checkpointSequence = course.source.frontier := by
  refine publish_exact exact course.source.store.manifest.durableDigest placement (exact.sound.drained drained) ?_
  rw [drained]
  exact published

/-- A checkpoint at the frontier, when one is due. -/
theorem checkpointFrontier_exact (course : Course) (exact : course.Exact initialPolicy) {checkpoint checkpoint' : View} {digest : Digest}
    {interval : Nat} {store : Store} {placement : Except Storage.Error Placement}
    (bound : course.source.store.manifest.checkpointSequence ≤ course.source.frontier)
    (saved : course.Saved initialPolicy checkpoint)
    (published : checkpointFrontier course.source.store checkpoint course.source.frontier digest interval placement =
      .ok (store, checkpoint')) :
    Relation.ReflTransGen Step course.source { course.source with store := store } ∧
      Course.Exact initialPolicy { course with source := { course.source with store := store } } ∧
      Course.Saved initialPolicy { course with source := { course.source with store := store } } checkpoint' ∧
      store.manifest.checkpointSequence ≤ course.source.frontier := by
  rcases checkpointFrontier_eq_ok published with ⟨rfl, rfl⟩ | ⟨next, selected, viewed, rfl⟩
  · exact ⟨.refl, exact, saved, bound⟩
  · have same : SameTrees course.source.serial checkpoint' := by
      rcases viewed with ⟨drained, rfl⟩ | pruned
      · exact exact.sound.drained drained
      · exact exact.sound.pruned pruned
    obtain ⟨step, exact', saved', at'⟩ := publish_exact exact _ _ same selected
    exact ⟨.single step, exact', saved', at'.le⟩

end BlopDb.Engine
