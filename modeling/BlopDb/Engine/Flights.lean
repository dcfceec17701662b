/-
# Transactions in flight

A worker is busy from the dispatch of an entry until the coordinator takes its report.
The entries in flight are the unresolved ones without a preparation, each is held by
one worker, and what a worker reports is the serial outcome of its record.
-/

import BlopDb.Engine.Assigned

namespace BlopDb.Engine

open BlopDb.Lib
open Storage (LimitPolicy View)
open Vm (Outcome PreparedTransaction)

/-- The sequences that workers hold or have reported. -/
def Pool.flights (pool : Pool) : List Nat :=
  pool.running.map (·.2.prepared.sequence) ++ pool.completed.map (·.sequence)

/-- The workers that hold or have reported a transaction. -/
def Pool.crew (pool : Pool) : List Nat := pool.running.map (·.1) ++ pool.completed.map (·.worker)

variable {outcomes : List Outcome} {entries before after : List Entry} {entry : Entry} {pool : Pool}

section Flying

variable [Sha256]

/-- The workers hold entries of the schedule and return serial outcomes. -/
structure Flying (outcomes : List Outcome) (entries : List Entry) (pool : Pool) : Prop where
  distinct : pool.flights.Nodup
  inFlight : ∀ entry ∈ entries, entry.sequence ∈ pool.flights ↔ entry.prepared = none ∧ entry.outcome = none
  held : ∀ sequence ∈ pool.flights, ∃ entry ∈ entries, entry.sequence = sequence
  running : ∀ flight ∈ pool.running, ∃ outcome, outcomes[flight.2.prepared.sequence - 1]? = some outcome ∧
    Vm.interpretPrepared flight.2.view flight.2.prepared = some (.ok outcome)
  completed : ∀ completion ∈ pool.completed, ∀ outcome, completion.outcome = some outcome →
    outcomes[completion.sequence - 1]? = some outcome
  healthy : pool.poisoned = false → ∀ completion ∈ pool.completed, completion.outcome ≠ none
  apart : pool.crew.Nodup
  busy : ∀ worker, pool.busy[worker]? = some true ↔ worker ∈ pool.crew

namespace Flying

/-- A worker reports what it computed, or that it failed. -/
theorem work (flying : Flying outcomes entries pool) {before after : List (Nat × Job)} {worker : Nat} {job : Job}
    {outcome : Option Outcome} (held : pool.running = before ++ (worker, job) :: after)
    (returned : Returns pool.poisoned job outcome) :
    Flying outcomes entries { pool with
      running := before ++ after
      completed := pool.completed ++ [⟨worker, job.prepared.sequence, outcome⟩]
      poisoned := pool.poisoned || outcome.isNone } := by
  have moved : ∀ {α : Type} (left right : List α) (middle : α) (rest : List α),
      ((left ++ right) ++ (rest ++ [middle])).Perm ((left ++ middle :: right) ++ rest) := by
    intro α left right middle rest
    rw [List.append_assoc, List.append_assoc]
    refine List.Perm.append_left left ?_
    rw [← List.append_assoc]
    exact List.perm_append_singleton middle (right ++ rest)
  have flights : Pool.flights { pool with
      running := before ++ after
      completed := pool.completed ++ [⟨worker, job.prepared.sequence, outcome⟩]
      poisoned := pool.poisoned || outcome.isNone } |>.Perm pool.flights := by
    simp only [Pool.flights, held, List.map_append, List.map_cons, List.map_nil]
    exact moved _ _ _ _
  have crew : Pool.crew { pool with
      running := before ++ after
      completed := pool.completed ++ [⟨worker, job.prepared.sequence, outcome⟩]
      poisoned := pool.poisoned || outcome.isNone } |>.Perm pool.crew := by
    simp only [Pool.crew, held, List.map_append, List.map_cons, List.map_nil]
    exact moved _ _ _ _
  have isFlight : (worker, job) ∈ pool.running := by simp [held]
  refine ⟨flights.nodup_iff.mpr flying.distinct, ?_, ?_, ?_, ?_, ?_, crew.nodup_iff.mpr flying.apart, ?_⟩
  · intro entry member
    rw [flights.mem_iff]
    exact flying.inFlight entry member
  · intro sequence member
    exact flying.held sequence (flights.mem_iff.mp member)
  · intro flight member
    apply flying.running
    rw [held]
    rcases List.mem_append.mp member with left | right
    · exact List.mem_append_left _ left
    · exact List.mem_append_right _ (List.mem_cons_of_mem _ right)
  · intro completion member result isOutcome
    rcases List.mem_append.mp member with old | new
    · exact flying.completed completion old result isOutcome
    · obtain rfl := List.mem_singleton.mp new
      cases returned with
      | failed => cases isOutcome
      | outcome healthy ran =>
          cases isOutcome
          obtain ⟨result', has, ran'⟩ := flying.running _ isFlight
          rw [ran] at ran'
          cases ran'
          exact has
  · intro healthy completion member
    simp only [Bool.or_eq_false_iff, Option.isNone_eq_false_iff] at healthy
    rcases List.mem_append.mp member with old | new
    · exact flying.healthy healthy.1 completion old
    · obtain rfl := List.mem_singleton.mp new
      exact Option.isSome_iff_ne_none.mp healthy.2
  · intro worker'
    rw [crew.mem_iff]
    exact flying.busy worker'

/-- An entry is handed to an idle worker. -/
theorem dispatch (flying : Flying outcomes entries pool) (split : entries = before ++ entry :: after)
    (unique : ∀ other ∈ entries, other.sequence = entry.sequence → other = entry) {prepared : PreparedTransaction}
    {worker : Nat} {outcome : Outcome} {view : View} (idle : pool.busy[worker]? = some false)
    (isPrepared : entry.prepared = some prepared) (unresolved : entry.outcome = none)
    (numbered : prepared.sequence = entry.sequence) (has : outcomes[entry.sequence - 1]? = some outcome)
    (ran : Vm.interpretPrepared view prepared = some (.ok outcome)) :
    Flying outcomes (entries.map (withoutPreparation entry.sequence)) { pool with
      busy := pool.busy.set worker true
      running := pool.running ++ [(worker, ⟨prepared, view⟩)] } := by
  have isEntry : entry ∈ entries := by simp [split]
  have grounded : entry.sequence ∉ pool.flights := by
    rw [flying.inFlight entry isEntry, isPrepared]
    exact fun both => Option.some_ne_none _ both.1
  have free : worker ∉ pool.crew := by
    rw [← flying.busy, idle]
    exact fun same => Bool.false_ne_true (Option.some.inj same)
  have inside := (List.getElem?_eq_some_iff.mp idle).1
  have inserted : ∀ {α : Type} (left right : List α) (middle : α),
      ((left ++ [middle]) ++ right).Perm (middle :: (left ++ right)) := by
    intro α left right middle
    rw [List.append_assoc]
    exact List.perm_middle
  have flights : Pool.flights { pool with
      busy := pool.busy.set worker true
      running := pool.running ++ [(worker, ⟨prepared, view⟩)] } |>.Perm (entry.sequence :: pool.flights) := by
    simp only [Pool.flights, List.map_append, List.map_cons, List.map_nil, numbered]
    exact inserted _ _ _
  have crew : Pool.crew { pool with
      busy := pool.busy.set worker true
      running := pool.running ++ [(worker, ⟨prepared, view⟩)] } |>.Perm (worker :: pool.crew) := by
    simp only [Pool.crew, List.map_append, List.map_cons, List.map_nil]
    exact inserted _ _ _
  have sequences (other : Entry) : (withoutPreparation entry.sequence other).sequence = other.sequence := by
    unfold withoutPreparation
    split_ifs <;> rfl
  refine ⟨flights.nodup_iff.mpr (List.nodup_cons.mpr ⟨grounded, flying.distinct⟩), ?_, ?_, ?_, flying.completed,
    flying.healthy, crew.nodup_iff.mpr (List.nodup_cons.mpr ⟨free, flying.apart⟩), ?_⟩
  · intro other member
    obtain ⟨other, inEntries, rfl⟩ := List.mem_map.mp member
    rw [flights.mem_iff, sequences, List.mem_cons]
    by_cases same : other.sequence = entry.sequence
    · obtain rfl := unique other inEntries same
      simp only [withoutPreparation, if_pos, true_or, unresolved, and_self]
    · rw [withoutPreparation, if_neg same, or_iff_right same]
      exact flying.inFlight other inEntries
  · intro sequence member
    rcases List.mem_cons.mp (flights.mem_iff.mp member) with rfl | old
    · exact ⟨_, List.mem_map_of_mem isEntry, sequences entry⟩
    · obtain ⟨other, inEntries, rfl⟩ := flying.held sequence old
      exact ⟨_, List.mem_map_of_mem inEntries, sequences other⟩
  · intro flight member
    rcases List.mem_append.mp member with old | new
    · exact flying.running flight old
    · obtain rfl := List.mem_singleton.mp new
      refine ⟨outcome, ?_, ran⟩
      rw [numbered]
      exact has
  · intro worker'
    rw [crew.mem_iff, List.mem_cons]
    by_cases same : worker' = worker
    · subst same
      simp only [List.getElem?_set_self inside, true_or]
    · rw [List.getElem?_set_ne (Ne.symm same), or_iff_right same]
      exact flying.busy worker'

/-- A report is installed and its worker is free. -/
theorem settle {completion : Completion} {rest : List Completion}
    (flying : Flying outcomes entries { pool with completed := completion :: rest }) {outcome : Outcome} :
    Flying outcomes (resolveEntries completion.sequence outcome entries)
      { pool.release completion with completed := rest } := by
  have flights : (Pool.flights { pool with completed := completion :: rest }).Perm
      (completion.sequence :: Pool.flights { pool.release completion with completed := rest }) := by
    simp only [Pool.flights, Pool.release, List.map_cons]
    exact List.perm_middle
  have crew : (Pool.crew { pool with completed := completion :: rest }).Perm
      (completion.worker :: Pool.crew { pool.release completion with completed := rest }) := by
    simp only [Pool.crew, Pool.release, List.map_cons]
    exact List.perm_middle
  obtain ⟨grounded, distinct⟩ := List.nodup_cons.mp (flights.nodup_iff.mp flying.distinct)
  obtain ⟨free, apart⟩ := List.nodup_cons.mp (crew.nodup_iff.mp flying.apart)
  refine ⟨distinct, ?_, ?_, flying.running, ?_, ?_, apart, ?_⟩
  · intro other member
    obtain ⟨other, inEntries, rfl⟩ := List.mem_map.mp member
    have before := flying.inFlight other inEntries
    rw [flights.mem_iff, List.mem_cons] at before
    change (resolveEntry completion.sequence outcome other).sequence ∈ _ ↔ _
    rw [resolveEntry_sequence]
    by_cases same : other.sequence = completion.sequence
    · rw [same]
      simp only [grounded, if_pos, reduceCtorEq, and_false]
    · rw [or_iff_right same] at before
      rw [before]
      simp only [if_neg same]
  · intro sequence member
    obtain ⟨other, inEntries, rfl⟩ := flying.held sequence (flights.mem_iff.mpr (List.mem_cons_of_mem _ member))
    exact ⟨_, List.mem_map_of_mem inEntries, resolveEntry_sequence completion.sequence outcome other⟩
  · exact fun other member => flying.completed other (List.mem_cons_of_mem _ member)
  · exact fun healthy other member => flying.healthy healthy other (List.mem_cons_of_mem _ member)
  · intro worker
    have before := flying.busy worker
    rw [crew.mem_iff, List.mem_cons] at before
    simp only [Pool.release]
    by_cases same : worker = completion.worker
    · subst same
      refine ⟨fun isBusy => ?_, fun member => absurd member free⟩
      by_cases inside : completion.worker < pool.busy.length
      · rw [List.getElem?_set_self inside] at isBusy
        cases isBusy
      · rw [List.getElem?_eq_none (by rw [List.length_set]; omega)] at isBusy
        cases isBusy
    · rw [List.getElem?_set_ne (Ne.symm same)]
      exact before.trans (or_iff_right same)

/-- The first entries leave, all resolved. -/
theorem retire {done : List Entry} (flying : Flying outcomes (done ++ entries) pool)
    (resolved : ∀ entry ∈ done, entry.outcome ≠ none) : Flying outcomes entries pool := by
  refine { flying with
    inFlight := fun entry member => flying.inFlight entry (List.mem_append_right _ member), held := ?_ }
  intro sequence member
  obtain ⟨entry, inEntries, rfl⟩ := flying.held sequence member
  rcases List.mem_append.mp inEntries with old | stays
  · exact absurd ((flying.inFlight entry inEntries).mp member).2 (resolved entry old)
  · exact ⟨entry, stays, rfl⟩

/-- Later records change no outcome. -/
theorem mono (flying : Flying outcomes entries pool) (more : List Outcome) : Flying (outcomes ++ more) entries pool := by
  have longer {position : Nat} {outcome : Outcome} (has : outcomes[position]? = some outcome) :
      (outcomes ++ more)[position]? = some outcome := by
    rw [List.getElem?_append_left (List.getElem?_eq_some_iff.mp has).1, has]
  refine { flying with running := ?_, completed := ?_ }
  · intro flight member
    obtain ⟨outcome, has, ran⟩ := flying.running flight member
    exact ⟨outcome, longer has, ran⟩
  · exact fun completion member outcome isOutcome => longer (flying.completed completion member outcome isOutcome)

/-- A new entry arrives with its preparation. -/
theorem assign (flying : Flying outcomes entries pool) (more : List Outcome)
    (held : entry.prepared ≠ none) (above : ∀ other ∈ entries, other.sequence ≠ entry.sequence) :
    Flying (outcomes ++ more) (entries ++ [entry]) pool := by
  refine { flying.mono more with inFlight := ?_, held := ?_ }
  · intro other member
    rcases List.mem_append.mp member with old | new
    · exact flying.inFlight other old
    · obtain rfl := List.mem_singleton.mp new
      refine ⟨fun inFlight => ?_, fun both => absurd both.1 held⟩
      obtain ⟨holder, old, same⟩ := flying.held _ inFlight
      exact absurd same (above holder old)
  · intro sequence member
    obtain ⟨holder, old, same⟩ := flying.held sequence member
    exact ⟨holder, List.mem_append_left _ old, same⟩

end Flying

end Flying

end BlopDb.Engine
