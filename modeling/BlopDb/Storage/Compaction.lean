/-
# Maintenance of a page file

Collection walks the state and the outcomes of a view and deletes what no reader
needs, in a longer file.  Compaction validates every tree and copies it into a
new file.  On a view that stands for maps, collection gives roots of the collected
maps and compaction roots of the same maps; both fail only when a file is full.
-/

import BlopDb.Storage.Collect
import BlopDb.Storage.Copy
import BlopDb.Storage.PageReads

namespace BlopDb.Storage

open BlopDb.Lib
open Mvcc (StateKey)

namespace PageView

/-! ## Collection -/

/-- Delete a state version unless it is kept. -/
def collectVersion (floor : Nat) (state : PageView × Option (Nat × Bytes) × Nat) (entry : Entry) :
    Except (Fault Error) (PageView × Option (Nat × Bytes) × Nat) := do
  let (view, baseline, removed) := state
  let key ← raise id (StateKey.decode entry.1)
  match Collect.keepState key floor baseline with
  | (true, baseline) => return (view, baseline, removed)
  | (false, baseline) => do
      let view ← view.edit ⟨.state, entry.1, none⟩
      return (view, baseline, removed + 1)

/-- Delete an outcome at or below the floor. -/
def collectOutcome (floor : Nat) (state : PageView × Nat) (entry : Entry) :
    Except (Fault Error) (PageView × Nat) := do
  let (view, removed) := state
  let sequence ← raise id (entrySequence .outcomes entry.1)
  if sequence > floor then return (view, removed)
  else do
    let view ← view.edit ⟨.outcomes, entry.1, none⟩
    return (view, removed + 1)

/-- Walk all entries of a tree of the source. -/
def walk {σ : Type} (source : PageView) (tree : TreeId) (body : σ → Entry → Except (Fault Error) σ)
    (state : σ) : Except (Fault Error) σ := do
  let scan ← BTree.scan source.reader tree (source.roots.root tree) .unbounded .unbounded
  scan.forEach id body (source.reader.cellCount + 1) state

/-- Roots with eligible history removed, in a longer file, and the numbers of
removed versions and outcomes. -/
def collect (poisoned : Bool) (historyFloor : Nat) (source : PageView) (floor frontier : Nat) :
    Except (Fault Error) (PageView × Nat × Nat) := do
  raise id (refuse (poisoned = true) .needsRecovery)
  raise id (refuse (floor > frontier ∨ floor < historyFloor) (.invalidInput "invalid collection floor"))
  let (view, _, versions) ← source.walk .state (collectVersion floor) (source, none, 0)
  let (view, records) ← source.walk .outcomes (collectOutcome floor) (view, 0)
  return (view, versions, records)

section Collection

variable {source view : PageView} {maps : View}

/-- Replace one tree. -/
def set (maps : View) (tree : TreeId) (map : Tree) : View := ⟨Function.update maps.roots tree map⟩

theorem set_self (maps : View) (tree : TreeId) : set maps tree (maps.roots tree) = maps := by
  rw [set, Function.update_eq_self]

theorem edit_set (maps : View) (tree : TreeId) (map : Tree) (key : Bytes) :
    (set maps tree map).edit ⟨tree, key, none⟩ = set maps tree (map.erase key) := by
  unfold set View.edit
  congr 1
  funext other
  by_cases same : other = tree
  · subst same
    simp
  · simp [same]

theorem walk_eq (stands : source.Stands maps) {σ : Type} (tree : TreeId)
    (body : σ → Entry → Except (Fault Error) σ) (state : σ) :
    source.walk tree body state = (maps.roots tree).entries.foldlM body state := by
  obtain ⟨start, started, yields⟩ := (stands tree).yields
    (show checkBound checkKey .unbounded = .ok () from rfl)
    (show checkBound checkKey .unbounded = .ok () from rfl)
  have whole : (maps.roots tree).range .unbounded .unbounded = (maps.roots tree).entries := by
    simp [OrdMap.range, Bound.above, Bound.below]
  rw [whole] at yields
  rw [walk, started, ok_bind]
  exact yields.forEach rfl (Nat.lt_succ_of_le (stands tree).length_le) state

/-- Deleting a key of one tree. -/
theorem erase_safe {tree : TreeId} {map : Tree} {key : Bytes}
    (stands : view.Stands (set maps tree map)) (short : key.length ≤ maxKey) :
    Safe (view.edit ⟨tree, key, none⟩)
      (fun after => view.reader.Extends after.reader ∧ after.Stands (set maps tree (map.erase key)))
      (fun error => error = .exhausted) := by
  have fits : Fits ⟨tree, key, none⟩ := ⟨short, fun _ absent => nomatch absent⟩
  refine (edit_safe stands fits).mono ?_ fun error full => full.1
  rintro after ⟨grows, standing, -⟩
  rw [edit_set] at standing
  exact ⟨grows, standing⟩

/-- The walk of the state deletes what the walk of its map deletes. -/
theorem collectVersions_safe {floor removed removed' : Nat} {baseline : Option (Nat × Bytes)}
    {entries : List Entry} {map map' : Tree}
    (collected : Collect.collectState floor baseline entries map removed = .ok (map', removed'))
    (stands : view.Stands (set maps .state map)) :
    Safe (entries.foldlM (collectVersion floor) (view, baseline, removed))
      (fun result => view.reader.Extends result.1.reader ∧ result.1.Stands (set maps .state map') ∧
        result.2.2 = removed') (fun error => error = .exhausted) := by
  induction entries generalizing view baseline map removed with
  | nil =>
      cases collected
      exact Safe.ret ⟨.refl _, stands, rfl⟩
  | cons entry entries ih =>
      obtain ⟨encoded, value⟩ := entry
      obtain ⟨key, decoded, collected⟩ := bind_eq_ok.mp collected
      rw [List.foldlM_cons, collectVersion]
      simp only [decoded, raise_ok, ok_bind]
      cases keep : Collect.keepState key floor baseline with
      | mk isKept baseline' =>
          rw [keep] at collected
          cases isKept with
          | true => exact ih collected stands
          | false =>
              obtain ⟨map'', erased, collected⟩ := bind_eq_ok.mp collected
              obtain ⟨⟨⟩, short, same⟩ := bind_eq_ok.mp erased
              cases same
              have erased := erase_safe stands (not_lt.mp (refuse_eq_ok.mp short))
              rw [bind_assoc]
              refine Safe.bind erased ?_
              rintro after ⟨grows, standing⟩
              refine (ih collected standing).weaken ?_
              rintro result ⟨grows', rest⟩
              exact ⟨grows.trans grows', rest⟩

/-- The walk of the outcomes deletes what the walk of its map deletes. -/
theorem collectOutcomes_safe {floor removed removed' : Nat} {entries : List Entry} {map map' : Tree}
    (collected : Collect.collectOutcomes floor entries map removed = .ok (map', removed'))
    (stands : view.Stands (set maps .outcomes map)) :
    Safe (entries.foldlM (collectOutcome floor) (view, removed))
      (fun result => view.reader.Extends result.1.reader ∧ result.1.Stands (set maps .outcomes map') ∧
        result.2 = removed') (fun error => error = .exhausted) := by
  induction entries generalizing view map removed with
  | nil =>
      cases collected
      exact Safe.ret ⟨.refl _, stands, rfl⟩
  | cons entry entries ih =>
      obtain ⟨key, value⟩ := entry
      obtain ⟨sequence, decoded, collected⟩ := bind_eq_ok.mp collected
      rw [List.foldlM_cons, collectOutcome]
      simp only [decoded, raise_ok, ok_bind]
      by_cases above : sequence > floor
      · rw [if_pos above] at collected ⊢
        exact ih collected stands
      · rw [if_neg above] at collected ⊢
        obtain ⟨map'', erased, collected⟩ := bind_eq_ok.mp collected
        obtain ⟨⟨⟩, short, same⟩ := bind_eq_ok.mp erased
        cases same
        have erased := erase_safe stands (not_lt.mp (refuse_eq_ok.mp short))
        rw [bind_assoc]
        refine Safe.bind erased ?_
        rintro after ⟨grows, standing⟩
        refine (ih collected standing).weaken ?_
        rintro result ⟨grows', rest⟩
        exact ⟨grows.trans grows', rest⟩

/-- Collection of a view gives roots of the collected maps. -/
theorem collect_safe {poisoned : Bool} {historyFloor floor frontier : Nat} {maps' : View}
    {removed : Nat × Nat} (stands : source.Stands maps)
    (collected : Collect.collectView poisoned historyFloor maps floor frontier = .ok (maps', removed)) :
    Safe (collect poisoned historyFloor source floor frontier)
      (fun result => source.reader.Extends result.1.reader ∧ result.1.Stands maps' ∧
        result.2 = removed) (fun error => error = .exhausted) := by
  obtain ⟨⟨⟩, healthy, collected⟩ := bind_eq_ok.mp collected
  obtain ⟨⟨⟩, allowed, collected⟩ := bind_eq_ok.mp collected
  obtain ⟨⟨state, versions⟩, walkedState, collected⟩ := bind_eq_ok.mp collected
  obtain ⟨⟨outcomes, records⟩, walkedOutcomes, collected⟩ := bind_eq_ok.mp collected
  cases collected
  rw [collect, healthy, allowed]
  simp only [raise_ok, ok_bind, walk_eq stands]
  refine Safe.bind (collectVersions_safe walkedState (by rwa [set_self])) ?_
  rintro ⟨view, baseline, _⟩ ⟨grows, standing, rfl⟩
  have started : view.Stands (set (set maps .state state) .outcomes (maps.roots .outcomes)) := by
    rw [show maps.roots .outcomes = (set maps .state state).roots .outcomes from rfl, set_self]
    exact standing
  refine Safe.bind (collectOutcomes_safe walkedOutcomes started) ?_
  rintro ⟨after, _⟩ ⟨grows', standing', rfl⟩
  refine Safe.ret ⟨grows.trans grows', ?_, rfl⟩
  intro tree
  have held := standing' tree
  cases tree <;> exact held

end Collection

/-! ## Compaction -/

/-- The system trees in the order of their identities. -/
def trees : List TreeId := [.state, .catalogue, .policy, .outcomes, .cursors]

/-- Validate a tree of a view and copy it into another file. -/
def copyInto (view : PageView) (copy : PageView) (tree : TreeId) : Except (Fault Error) PageView := do
  BTree.validate view.reader tree (view.roots.root tree)
  let (root, reader) ← BTree.copyTree view.reader copy.reader tree (view.roots.root tree)
  return ⟨reader, copy.roots.setRoot tree root⟩

/-- A view without a tree in an empty file. -/
def blank : PageView := ⟨⟨[], by decide⟩, ⟨0, 0, 0, 0, 0⟩⟩

/-- Copy all trees of a view into a new file. -/
def compact (view : PageView) : Except (Fault Error) PageView := trees.foldlM view.copyInto blank

section Compact

variable {view copy : PageView} {maps : View}

theorem copyInto_safe (stands : view.Stands maps) {done : List TreeId}
    (copied : ∀ tree ∈ done, BTree.Rooted copy.reader tree (copy.roots.root tree)
      (maps.roots tree).entries) (tree : TreeId) :
    Safe (view.copyInto copy tree)
      (fun after => ∀ other ∈ tree :: done, BTree.Rooted after.reader other (after.roots.root other)
        (maps.roots other).entries) (fun error => error = .exhausted) := by
  rw [copyInto, (stands tree).reads.validates, ok_bind]
  refine Safe.bind (BTree.copyTree_safe (stands tree) copy.reader) ?_
  rintro ⟨root, reader⟩ ⟨grows, rooted⟩
  refine Safe.ret fun other member => ?_
  rw [Roots.root_setRoot]
  by_cases same : other = tree
  · subst same
    rwa [if_pos rfl]
  · rw [if_neg same]
    exact (copied other ((List.mem_cons.mp member).resolve_left same)).extend grows

/-- Compaction of a view gives roots of the same maps. -/
theorem compact_safe (stands : view.Stands maps) :
    Safe view.compact (fun after => after.Stands maps) (fun error => error = .exhausted) := by
  have copies : ∀ (todo done : List TreeId) (copy : PageView),
      (∀ tree ∈ done, BTree.Rooted copy.reader tree (copy.roots.root tree) (maps.roots tree).entries) →
      Safe (todo.foldlM view.copyInto copy)
        (fun after => ∀ tree ∈ todo ++ done, BTree.Rooted after.reader tree (after.roots.root tree)
          (maps.roots tree).entries) (fun error => error = .exhausted) := by
    intro todo
    induction todo with
    | nil => exact fun done copy copied => Safe.ret copied
    | cons tree todo ih =>
        intro done copy copied
        rw [List.foldlM_cons]
        refine Safe.bind (copyInto_safe stands copied tree) fun middle copied' => ?_
        refine (ih (tree :: done) middle copied').weaken fun after held other member => held other ?_
        rw [List.cons_append, List.mem_cons, List.mem_append] at member
        rw [List.mem_append, List.mem_cons]
        tauto
  refine (copies trees [] blank fun _ absent => nomatch absent).weaken fun after held tree => ?_
  exact held tree (by cases tree <;> decide)

end Compact

end PageView

end BlopDb.Storage
