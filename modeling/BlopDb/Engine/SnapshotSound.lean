/-
# Snapshots are stable and exact

A snapshot reads the serial state at its captured frontier, whatever the engine
does after the capture: its pin keeps its file in place, and no step changes a
page that the file has.
-/

import BlopDb.Engine.Machine
import BlopDb.Engine.Polling
import BlopDb.Engine.SnapshotReads

namespace BlopDb.Engine

open BlopDb.Lib
open Exchange (Error)
open Snapshot (CacheRight Claim Decodes ReadTable Right)
open Storage (LimitPolicy PageFiles PageView Pages Pinned TreeId View maxU64)
open Vm (CatalogueVersion Table Value)
open Vm.Database (Latest)

section Engine

variable [Crc32c] [Sha256] {initialPolicy : LimitPolicy}

/-! ## Pages of a running machine -/

/-- The pages of a machine realize the trees of a reachable source. -/
structure Machine.Sound (initialPolicy : LimitPolicy) (machine : Machine) : Prop where
  running : Engine.Running initialPolicy machine.source
  stands : machine.pages.Stands machine.source.store.view

omit [Crc32c] [Sha256] in
theorem applied_grows {pages after : Pages} {maps : View} {changes : List Storage.Mutation}
    (stands : pages.Stands maps) (applied : pages.apply changes = .ok after) :
    pages.Grows after ∧ after.Stands (changes.foldl View.edit maps) := by
  have fits : ¬ Storage.oversized changes = true := by
    obtain ⟨⟨⟩, fits, -⟩ := bind_eq_ok.mp applied
    exact refuse_eq_ok.mp (raise_eq_ok.mp fits)
  have safe := Pages.apply_safe stands fits
  rw [applied] at safe
  exact safe

omit [Crc32c] [Sha256] in
theorem genesis_stands {pages : Pages}
    (created : Machine.blank.apply [⟨.policy, beBytes 8 0, some initialPolicy.encode⟩] = .ok pages) :
    pages.Stands (Vm.genesisView initialPolicy) := by
  have blank : Machine.blank.Stands ⟨fun _ => ∅⟩ := by
    refine ⟨PageView.blank.reader, OrdMap.find?_insert_self _ _ _, fun tree => .inl ⟨?_, rfl⟩⟩
    cases tree <;> rfl
  have standing := (applied_grows blank created).2
  have same : List.foldl View.edit ⟨fun _ => ∅⟩
      [⟨.policy, beBytes 8 0, some initialPolicy.encode⟩] = Vm.genesisView initialPolicy := by
    simp only [List.foldl, View.edit, Vm.genesisView]
    congr 1
    funext tree
    cases tree <;> rfl
  rwa [same] at standing

/-- Every step keeps the pages in agreement with the trees. -/
theorem Machine.Step.sound {machine next : Machine} (step : Machine.Step machine next)
    (sound : machine.Sound initialPolicy) : next.Sound initialPolicy := by
  obtain ⟨running, stands⟩ := sound
  cases step with
  | quiet step same => exact ⟨running.step step, by simp only [same]; exact stands⟩
  | write step same applied =>
      refine ⟨running.step step, ?_⟩
      simp only [same]
      exact (applied_grows stands applied).2
  | scratch fits written =>
      have safe := Pages.scratch_safe stands fits
      rw [written] at safe
      exact ⟨running, safe.2⟩
  | collect step collected written =>
      have safe := Pages.collect_safe stands collected
      rw [written] at safe
      exact ⟨running.step step, safe.2⟩
  | compact compacted => exact ⟨running, (Pages.compact_of_eq_ok stands compacted).2⟩
  | reclaim leased => exact ⟨running, Pages.reclaim_stands stands⟩
  | capture => exact ⟨running, stands⟩
  | revoke => exact ⟨running, stands⟩
  | get => exact ⟨running, stands⟩
  | scan => exact ⟨running, stands⟩

theorem Machine.Running.sound {machine : Machine} (running : Machine.Running initialPolicy machine) :
    machine.Sound initialPolicy := by
  induction running with
  | genesis valid empty new created => exact ⟨.genesis valid empty new, genesis_stands created⟩
  | step _ step ih => exact step.sound ih

/-! ## Claims during a run -/

namespace Snapshot

variable {origin : Source} {files : PageFiles} {claim : Claim}

/-- A claim that was captured at an origin: its pin, if it still has one, reads the
trees of the origin, and its cached table is right. -/
structure Held (origin : Source) (files : PageFiles) (claim : Claim) : Prop where
  sequence : claim.sequence = origin.frontier
  stands : ∀ pinned ∈ claim.view, pinned.Stands files origin.store.view
  cached : CacheRight origin claim.table

/-- The claim after a read of a table. -/
def remember (files : PageFiles) (claim : Claim) (table : Nat) : Claim :=
  match claim.pinned files with
  | .error _ => claim
  | .ok view => (claim.read view table).2

omit [Crc32c] [Sha256] in
theorem get_snd (table : Nat) (key : Value) : (get files claim table key).2 = remember files claim table := by
  rw [get, remember]
  cases claim.pinned files with
  | error => rfl
  | ok view =>
      dsimp only
      rcases claim.read view table with ⟨_ | _, after⟩ <;> rfl

omit [Crc32c] [Sha256] in
theorem scan_snd (table : Nat) (lower upper : Bound Value) :
    (scan files claim table lower upper).2 = remember files claim table := by
  rw [scan, remember]
  cases claim.pinned files with
  | error => rfl
  | ok view =>
      dsimp only
      rcases claim.read view table with ⟨_ | _, after⟩ <;> rfl

omit [Crc32c] [Sha256] in
theorem Held.revoke (held : Held origin files claim) : Held origin files claim.revoke :=
  ⟨held.sequence, fun _ absent => (nomatch absent), fun _ absent => (nomatch absent)⟩

omit [Crc32c] [Sha256] in
theorem Held.grows {pages later : Pages} (held : Held origin pages.files claim) (grows : pages.Grows later) :
    Held origin later.files claim :=
  ⟨held.sequence, fun pinned isPin => (held.stands pinned isPin).grows grows, held.cached⟩

omit [Crc32c] [Sha256] in
/-- A claim with a pin reads the view of its origin. -/
theorem Held.pinned (held : Held origin files claim) (active : claim.view ≠ none) :
    ∃ view, claim.pinned files = .ok view ∧ view.Stands origin.store.view := by
  obtain ⟨pinned, isPin⟩ := Option.ne_none_iff_exists'.mp active
  obtain ⟨view, isView, stands⟩ := (held.stands pinned isPin).view
  refine ⟨view, ?_, stands⟩
  rw [Claim.pinned, isPin]
  simp only [isView, relay_ok]

/-- A table that is read is a right one. -/
theorem right_of_liveTable {view : PageView} {cached : Option ReadTable} {id : Nat} {read : ReadTable}
    (sound : origin.Sound initialPolicy) (stands : view.Stands origin.store.view)
    (right : CacheRight origin cached) (wide : id ≤ maxU64)
    (found : liveTable view id origin.frontier cached = .ok read) :
    LiveAt origin id read.table ∧ Right origin read := by
  by_cases live : ∃ table, LiveAt origin id table
  · obtain ⟨table, live⟩ := live
    obtain ⟨read', found', same, isRight⟩ := liveTable_of_live sound stands right live
    rw [found] at found'
    cases found'
    exact ⟨same ▸ live, isRight⟩
  · rw [not_exists] at live
    obtain ⟨error, fails⟩ := liveTable_of_not_live sound stands right wide live
    rw [found] at fails
    cases fails

/-- Reads keep the pin, and cache right tables. -/
theorem Held.remember (sound : origin.Sound initialPolicy) (held : Held origin files claim) {table : Nat}
    (wide : table ≤ maxU64) : Held origin files (remember files claim table) := by
  rw [Snapshot.remember]
  cases pinned : claim.pinned files with
  | error => exact held
  | ok view =>
      have active : claim.view ≠ none := by
        intro absent
        rw [Claim.pinned, absent] at pinned
        cases pinned
      obtain ⟨view', same, stands⟩ := held.pinned active
      obtain rfl := Except.ok.inj (pinned.symm.trans same)
      dsimp only [Claim.read]
      cases found : liveTable view table claim.sequence claim.table with
      | error => exact held
      | ok read =>
          rw [held.sequence] at found
          refine ⟨held.sequence, held.stands, ?_⟩
          rintro _ ⟨⟩
          exact (right_of_liveTable sound stands held.cached wide found).2

omit [Crc32c] [Sha256] in
theorem remember_view (table : Nat) : (remember files claim table).view = claim.view := by
  rw [remember]
  cases claim.pinned files with
  | error => rfl
  | ok view =>
      dsimp only [Claim.read]
      cases liveTable view table claim.sequence claim.table <;> rfl

end Snapshot

open Snapshot (Held)

section Runs

variable {origin : Source} {machine next : Machine} {position : Nat} {claim : Claim}

omit [Crc32c] [Sha256] in
theorem getElem?_set_held {claims : List Claim} {files : PageFiles} {other : Nat} {old new : Claim}
    (present : claims[position]? = some claim) (held : Held origin files claim)
    (isOld : claims[other]? = some old)
    (replaced : Held origin files old → Held origin files new ∧ (old.view = none → new.view = none)) :
    ∃ claim', (claims.set other new)[position]? = some claim' ∧ Held origin files claim' ∧
      (claim.view = none → claim'.view = none) := by
  by_cases same : other = position
  · subst same
    obtain rfl := Option.some.inj (present.symm.trans isOld)
    have inside : other < claims.length := (List.getElem?_eq_some_iff.mp present).1
    exact ⟨new, List.getElem?_set_self inside, replaced held⟩
  · exact ⟨claim, (List.getElem?_set_ne same).trans present, held, fun absent => absent⟩

/-- Files stay as they are, or grow, while a claim pins them. -/
theorem Machine.Step.held (step : Machine.Step machine next) (sound : machine.Sound initialPolicy)
    (captured : origin.Sound initialPolicy) (present : machine.claims[position]? = some claim)
    (held : Held origin machine.pages.files claim) :
    ∃ claim', next.claims[position]? = some claim' ∧ Held origin next.pages.files claim' ∧
      (claim.view = none → claim'.view = none) := by
  have stands := sound.stands
  have kept {pages : Pages} (grows : machine.pages.Grows pages) :
      ∃ claim', machine.claims[position]? = some claim' ∧ Held origin pages.files claim' ∧
        (claim.view = none → claim'.view = none) :=
    ⟨claim, present, held.grows grows, fun absent => absent⟩
  cases step with
  | quiet => exact kept (Pages.Grows.refl machine.pages)
  | capture =>
      have inside := (List.getElem?_eq_some_iff.mp present).1
      exact ⟨claim, (List.getElem?_append_left inside).trans present, held, fun absent => absent⟩
  | write step same applied => exact kept (applied_grows stands applied).1
  | scratch fits written =>
      have safe := Pages.scratch_safe stands fits
      rw [written] at safe
      exact kept safe.1
  | collect step collected written =>
      have safe := Pages.collect_safe stands collected
      rw [written] at safe
      exact kept safe.1
  | compact compacted => exact kept (Pages.compact_of_eq_ok stands compacted).1
  | reclaim leased =>
      refine ⟨claim, present, ⟨held.sequence, fun pinned isPin => ?_, held.cached⟩, fun absent => absent⟩
      -- The pin of the claim forbids the deletion.
      have leases : (leased || machine.claims.any fun claim => claim.view.isSome) = true := by
        have active : claim.view.isSome = true := Option.isSome_iff_exists.mpr ⟨pinned, isPin⟩
        rw [Bool.or_eq_true, List.any_eq_true]
        exact .inr ⟨claim, List.mem_of_getElem? present, active⟩
      rw [leases]
      exact held.stands pinned isPin
  | revoke isOld => exact getElem?_set_held present held isOld fun held => ⟨held.revoke, fun _ => rfl⟩
  | get key wide isOld =>
      rw [Snapshot.get_snd]
      exact getElem?_set_held present held isOld fun held =>
        ⟨held.remember captured wide, fun absent => (Snapshot.remember_view _).trans absent⟩
  | scan lower upper wide isOld =>
      rw [Snapshot.scan_snd]
      exact getElem?_set_held present held isOld fun held =>
        ⟨held.remember captured wide, fun absent => (Snapshot.remember_view _).trans absent⟩

/-- A claim stays as it was captured in every run. -/
theorem Machine.Steps.held (steps : Machine.Steps machine next) (sound : machine.Sound initialPolicy)
    (captured : origin.Sound initialPolicy) (present : machine.claims[position]? = some claim)
    (held : Held origin machine.pages.files claim) :
    next.Sound initialPolicy ∧ ∃ claim', next.claims[position]? = some claim' ∧
      Held origin next.pages.files claim' ∧ (claim.view = none → claim'.view = none) := by
  induction steps with
  | refl => exact ⟨sound, claim, present, held, fun absent => absent⟩
  | tail _ step ih =>
      obtain ⟨sound', claim', present', held', stays⟩ := ih
      obtain ⟨claim'', present'', held'', stays'⟩ := step.held sound' captured present' held'
      exact ⟨step.sound sound', claim'', present'', held'', fun absent => stays' (stays absent)⟩

end Runs

/-! ## Results of reads -/

namespace Snapshot

variable {origin : Source} {files : PageFiles} {claim : Claim}

/-- What a claim with a pin reads. -/
structure Exact (origin : Source) (files : PageFiles) (claim : Claim) : Prop where
  /-- A key of a live table has the value that the visible records left. -/
  get : ∀ {id table key}, LiveAt origin id table → table.key.accepts key = true →
    ∃ value, (get files claim id key).1 = .ok value ∧
      Decodes table (rowAfter origin.resolved id key.keyBytes) value
  /-- Other tables and other keys are refused. -/
  refused : ∀ {id key}, id ≤ maxU64 → (∀ table, LiveAt origin id table → ¬ table.key.accepts key = true) →
    ∃ error, (Snapshot.get files claim id key).1 = .error (.raised error)
  /-- The last version of each table that was created is listed once. -/
  catalogue : ∃ versions, catalogue files claim = .ok versions ∧
    versions.Pairwise (fun left right => left.table.id < right.table.id) ∧
    ∀ version, version ∈ versions ↔ ∃ id, Latest origin.serial id (origin.frontier + 1) version
  /-- A scan starts on the bounds that its table admits. -/
  starts : ∀ {id lower upper}, id ≤ maxU64 → ((∃ start, (scan files claim id lower upper).1 = .ok start) ↔
    ∃ table, LiveAt origin id table ∧ Admits table lower upper)

/-- A claim without a pin reports its revocation. -/
structure Revoked (files : PageFiles) (claim : Claim) : Prop where
  get : ∀ id key, (get files claim id key).1 = .error (.raised .snapshotRevoked)
  catalogue : catalogue files claim = .error (.raised .snapshotRevoked)
  scan : ∀ id lower upper, (scan files claim id lower upper).1 = .error (.raised .snapshotRevoked)
  next : ∀ scan, (next files claim scan).1 = some (.error (.raised .snapshotRevoked))

omit [Crc32c] [Sha256] in
theorem revoked_of_view (absent : claim.view = none) : Revoked files claim := by
  have fails : claim.pinned files = .error (.raised .snapshotRevoked) := by
    rw [Claim.pinned, absent]
  refine ⟨fun id key => ?_, ?_, fun id lower upper => ?_, fun scan => ?_⟩
  · rw [Snapshot.get, fails]
  · rw [Snapshot.catalogue, fails]
    rfl
  · rw [Snapshot.scan, fails]
  · rw [Snapshot.next, fails]

omit [Crc32c] [Sha256] in
/-- A read of a live table goes on with a right table. -/
theorem read_of_liveTable {view : PageView} {id : Nat} {read : ReadTable}
    (found : liveTable view id claim.sequence claim.table = .ok read) :
    claim.read view id = (.ok read, { claim with table := some read }) := by
  rw [Claim.read, found]

omit [Crc32c] [Sha256] in
theorem read_of_not_live {view : PageView} {id : Nat} {fault : Fault Error}
    (fails : liveTable view id claim.sequence claim.table = .error fault) :
    claim.read view id = (.error fault, claim) := by
  rw [Claim.read, fails]

/-- A claim with a pin reads exactly the state of its origin. -/
theorem Held.exact (running : Running initialPolicy origin) (held : Held origin files claim)
    (active : claim.view ≠ none) : Exact origin files claim := by
  have sound := running.sound
  obtain ⟨view, isView, stands⟩ := held.pinned active
  have liveTable_sequence {id : Nat} : liveTable view id claim.sequence claim.table =
      liveTable view id origin.frontier claim.table := by rw [held.sequence]
  constructor
  case get =>
    intro id table key live accepted
    obtain ⟨read, found, rfl, right⟩ := liveTable_of_live sound stands held.cached live
    obtain ⟨value, got, decodes⟩ := getIn_of_accepts running stands right accepted
    refine ⟨value, ?_, ?_⟩
    · simp only [Snapshot.get, isView, read_of_liveTable (liveTable_sequence.trans found), held.sequence, got]
    · rwa [(sound.liveTable live).1] at decodes
  case refused =>
    intro id key wide refused
    by_cases live : ∃ table, LiveAt origin id table
    · obtain ⟨table, live⟩ := live
      obtain ⟨read, found, rfl, right⟩ := liveTable_of_live sound stands held.cached live
      refine ⟨.invalidInput "key does not match captured table schema", ?_⟩
      simp only [Snapshot.get, isView, read_of_liveTable (liveTable_sequence.trans found), getIn,
        keyBytes_of_not_accepts (refused read.table live), error_bind]
    · rw [not_exists] at live
      obtain ⟨error, fails⟩ := liveTable_of_not_live sound stands held.cached wide live
      refine ⟨error, ?_⟩
      simp only [Snapshot.get, isView, read_of_not_live (liveTable_sequence.trans fails)]
  case catalogue =>
    obtain ⟨start, versions, selected, started, walked, ordered, members⟩ := catalogueIn_eq sound stands
    refine ⟨versions, ?_, ordered, members⟩
    rw [Snapshot.catalogue, isView, ok_bind, started, relay_ok, ok_bind, held.sequence, walked]
    rfl
  case starts =>
    intro id lower upper wide
    by_cases live : ∃ table, LiveAt origin id table
    · obtain ⟨table, live⟩ := live
      obtain ⟨read, found, rfl, right⟩ := liveTable_of_live sound stands held.cached live
      simp only [Snapshot.scan, isView, read_of_liveTable (liveTable_sequence.trans found)]
      rcases scanIn_cases right.column lower upper with ⟨refused, error, fails⟩ | ⟨admits, start, starts⟩
      · simp only [fails, reduceCtorEq, exists_false, false_iff, not_exists, not_and]
        intro table' live'
        rwa [live'.unique live]
      · exact iff_of_true ⟨start, starts⟩ ⟨_, live, admits⟩
    · have refused := not_exists.mp live
      obtain ⟨error, fails⟩ := liveTable_of_not_live sound stands held.cached wide refused
      simp only [Snapshot.scan, isView, read_of_not_live (liveTable_sequence.trans fails)]
      refine iff_of_false (by simp) ?_
      rintro ⟨table, isLive, -⟩
      exact refused table isLive

/-- A scan that starts owes the rows between its bounds. -/
theorem owes_of_scan (running : Running initialPolicy origin) (held : Held origin files claim)
    (active : claim.view ≠ none) {id : Nat} {lower upper : Bound Value} {start : Scan} {claim' : Claim}
    (wide : id ≤ maxU64) (started : scan files claim id lower upper = (.ok start, claim')) :
    ∃ table rows, LiveAt origin id table ∧ Between origin table lower upper rows ∧
      Owes origin start rows := by
  obtain ⟨view, isView, stands⟩ := held.pinned active
  rw [Snapshot.scan, isView] at started
  dsimp only at started
  cases found : liveTable view id claim.sequence claim.table with
  | error fault =>
      rw [read_of_not_live found] at started
      cases started
  | ok read =>
      rw [read_of_liveTable found] at started
      rw [held.sequence] at found
      obtain ⟨live, right⟩ := right_of_liveTable running.sound stands held.cached wide found
      obtain ⟨rows, owes, -, between⟩ := owes_of_scanIn running right (Prod.mk.inj started).1
      exact ⟨read.table, rows, live, between, owes⟩

/-- A call of a scan returns the first row that it owes, and owes the others after it. -/
theorem next_of_owes (running : Running initialPolicy origin) (held : Held origin files claim)
    (active : claim.view ≠ none) {start : Scan} {rows : List (Value × Value)}
    (owes : Owes origin start rows) :
    ∃ rest, next files claim start = (rows.head?.map .ok, rest) ∧ Owes origin rest rows.tail := by
  obtain ⟨view, isView, stands⟩ := held.pinned active
  simp only [next, isView]
  cases ended : start.done with
  | true =>
      have none : rows = [] := by
        have owed := owes.owed
        rwa [if_pos ended] at owed
      subst none
      exact ⟨start, rfl, owes⟩
  | false =>
      simp only [Bool.false_eq_true, if_false, held.sequence, nextRow_of_owes stands owes ended]
      cases rows with
      | nil => exact ⟨_, rfl, owes.right, fun _ absent => (nomatch absent), owes.upper, by simp⟩
      | cons row rows =>
          have rest := owes.rest running ended
          rw [ended] at rest
          exact ⟨_, rfl, rest⟩

end Snapshot

open Snapshot (Between Exact Owes Revoked)

/-- Calls of a scan, with any steps between them, return the rows in order and then
the end, as long as the snapshot is not revoked. -/
def Machine.Drains (position : Nat) (machine : Machine) (start : Snapshot.Scan)
    (rows : List (Value × Value)) : Prop :=
  ∀ results last, Machine.Nexts position machine start results last →
    (∀ claim ∈ last.claims[position]?, claim.view ≠ none) →
    ∀ (index : Nat) result, results[index]? = some result → result = rows[index]?.map .ok

section Draining

variable {origin : Source} {machine last : Machine} {position : Nat} {start : Snapshot.Scan}
  {results : List (Option (Except (Fault Error) (Value × Value)))}

theorem Machine.Nexts.steps (calls : Machine.Nexts position machine start results last) :
    Machine.Steps machine last := by
  induction calls with
  | done => exact .refl
  | other step _ ih => exact .head step ih
  | next _ _ _ ih => exact ih

/-- The calls of a scan return its rows in order, whatever happens between them. -/
theorem Machine.Nexts.rows (calls : Machine.Nexts position machine start results last)
    {claim : Claim} {rows : List (Value × Value)} (sound : machine.Sound initialPolicy)
    (captured : Engine.Running initialPolicy origin) (present : machine.claims[position]? = some claim)
    (held : Held origin machine.pages.files claim) (owes : Owes origin start rows)
    (active : ∀ claim ∈ last.claims[position]?, claim.view ≠ none) (index : Nat)
    {result : Option (Except (Fault Error) (Value × Value))} (isResult : results[index]? = some result) :
    result = rows[index]?.map .ok := by
  induction calls generalizing claim rows index with
  | done => cases isResult
  | other step rest ih =>
      obtain ⟨claim', present', held', -⟩ := step.held sound captured.sound present held
      exact ih (step.sound sound) present' held' owes active index isResult
  | next isClaim called rest ih =>
      obtain rfl := Option.some.inj (present.symm.trans isClaim)
      -- A claim that is active at the end was active all the time.
      have now : claim.view ≠ none := by
        intro absent
        obtain ⟨-, claim', isLast, -, stays⟩ := rest.steps.held sound captured.sound present held
        exact active claim' isLast (stays absent)
      obtain ⟨scan', returns, owes'⟩ := Snapshot.next_of_owes captured held now owes
      obtain ⟨rfl, rfl⟩ := Prod.mk.inj (called.symm.trans returns)
      cases index with
      | zero =>
          obtain rfl := Option.some.inj isResult
          rw [List.head?_eq_getElem?]
      | succ index =>
          rw [ih sound present held owes' active index isResult, List.getElem?_tail]

end Draining

/-- A snapshot reads the state of its capture in every later run, and reports its
revocation after it. -/
theorem snapshots_exact {origin machine : Machine} {pinned : Pinned}
    (running : Machine.Running initialPolicy origin) (isPin : origin.pages.pin = .ok pinned)
    (run : Machine.Steps { origin with
      claims := origin.claims ++ [⟨origin.source.frontier, some pinned, none⟩] } machine) :
    ∃ claim, machine.claims[origin.claims.length]? = some claim ∧
      (claim.view = none → Revoked machine.pages.files claim) ∧
      (claim.view ≠ none → Exact origin.source machine.pages.files claim ∧
        ∀ {id lower upper start claim'}, id ≤ maxU64 →
          Snapshot.scan machine.pages.files claim id lower upper = (.ok start, claim') →
          ∃ table rows, LiveAt origin.source id table ∧ Between origin.source table lower upper rows ∧
            Machine.Drains origin.claims.length { machine with
              claims := machine.claims.set origin.claims.length claim' } start rows) := by
  have sound := running.sound
  have captured := sound.running
  have pins : Held origin.source origin.pages.files ⟨origin.source.frontier, some pinned, none⟩ := by
    refine ⟨rfl, ?_, fun _ absent => (nomatch absent)⟩
    rintro _ ⟨⟩
    exact Pinned.stands_of_pin sound.stands isPin
  obtain ⟨sound', claim, present, held, -⟩ := run.held ⟨captured, sound.stands⟩ captured.sound
    (List.getElem?_concat_length) pins
  refine ⟨claim, present, Snapshot.revoked_of_view, fun active => ⟨held.exact captured active, ?_⟩⟩
  intro id lower upper start claim' wide started
  obtain ⟨table, rows, live, between, owes⟩ := Snapshot.owes_of_scan captured held active wide started
  refine ⟨table, rows, live, between, fun results last calls stays index result isResult => ?_⟩
  have remembered : claim' = Snapshot.remember machine.pages.files claim id := by
    rw [← Snapshot.scan_snd id lower upper, started]
  have inside := (List.getElem?_eq_some_iff.mp present).1
  have held' : Held origin.source machine.pages.files claim' := by
    rw [remembered]
    exact held.remember captured.sound wide
  exact calls.rows ⟨sound'.running, sound'.stands⟩ captured (List.getElem?_set_self inside) held' owes
    stays index isResult

end Engine

namespace Sample

open Storage.Wal.Sample (created)

theorem pages_created :
    (match Machine.blank.apply [⟨.policy, beBytes 8 0, some policy.encode⟩] with
    | .ok pages => pages.pin.toOption.isSome
    | .error _ => false) = true := by
  decide +kernel

/-- A snapshot of a new database lists no tables, and none of its reads works after
its revocation. -/
theorem new_database_captured :
    ∃ pages pinned, Machine.Running policy ⟨.genesis policy created, pages, []⟩ ∧
      pages.pin = .ok pinned ∧
      Snapshot.catalogue pages.files ⟨0, some pinned, none⟩ = .ok [] ∧
      Snapshot.Revoked pages.files (Claim.revoke ⟨0, some pinned, none⟩) := by
  have works := pages_created
  split at works
  · rename_i pages isPages
    obtain ⟨pinned, isPin⟩ := exists_ok works
    have running : Machine.Running policy ⟨.genesis policy created, pages, []⟩ :=
      .genesis (by decide) rfl rfl isPages
    obtain ⟨claim, present, -, reads⟩ := snapshots_exact running isPin .refl
    obtain rfl : ⟨0, some pinned, none⟩ = claim := Option.some.inj present
    obtain ⟨versions, listed, -, members⟩ := (reads nofun).1.catalogue
    obtain ⟨claim', present', revoked, -⟩ := snapshots_exact running isPin
      (.single (Machine.Step.revoke (show [_][0]? = some _ from rfl)))
    obtain rfl : Claim.revoke ⟨0, some pinned, none⟩ = claim' := Option.some.inj present'
    obtain rfl : versions = [] := by
      refine List.eq_nil_iff_forall_not_mem.mpr fun version member => ?_
      obtain ⟨id, sequence, inside, ⟨-, -, bytes, stored, -⟩, -⟩ := (members version).mp member
      cases stored
    exact ⟨pages, pinned, running, isPin, listed, revoked rfl⟩
  · cases works

end Sample

end BlopDb.Engine
