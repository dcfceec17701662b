/-
# Physical batches

A batch of edits is installed against the latest roots.  All size checks come
before the first edit, so that a refused batch leaves every tree as it was.
-/

import BlopDb.Storage.Basic

namespace BlopDb.Storage

open BlopDb.Lib

/-- One physical edit; an absent value removes the entry. -/
structure Mutation where
  tree : TreeId
  key : Bytes
  value : Option Bytes
  deriving DecidableEq

/-- Put a value under a key of a tree, or remove the key. -/
def View.edit (view : View) (change : Mutation) : View :=
  ⟨fun tree =>
    if tree = change.tree then
      match change.value with
      | some value => (view.roots tree).insert change.key value
      | none => (view.roots tree).erase change.key
    else view.roots tree⟩

/-- Some key or value of a batch exceeds its format ceiling. -/
def oversized (changes : List Mutation) : Bool :=
  changes.any fun change =>
    change.key.length > maxKey || change.value.any fun value => value.length > maxValue

/-- Install a complete physical batch. -/
def apply (poisoned : Bool) (view : View) (changes : List Mutation) : Except Error View := do
  refuse (poisoned = true) .needsRecovery
  refuse (oversized changes = true)
    (.invalidInput "physical key or value exceeds its format ceiling")
  return changes.foldl View.edit view

theorem apply_eq_ok {poisoned : Bool} {view after : View} {changes : List Mutation}
    (applied : apply poisoned view changes = .ok after) :
    after = changes.foldl View.edit view := by
  obtain ⟨⟨⟩, -, applied⟩ := bind_eq_ok.mp applied
  obtain ⟨⟨⟩, -, same⟩ := bind_eq_ok.mp applied
  cases same
  rfl

namespace View

/-- A put replaces the entry under its key and keeps all others. -/
theorem mem_edit_put {view : View} {changed tree : TreeId} {key value : Bytes} {entry : Entry} :
    entry ∈ ((view.edit ⟨changed, key, some value⟩).roots tree).entries ↔
      (tree = changed ∧ entry = (key, value)) ∨
        entry ∈ (view.roots tree).entries ∧ ¬ (tree = changed ∧ entry.1 = key) := by
  obtain ⟨other, stored⟩ := entry
  rw [← OrdMap.find?_eq_some, ← OrdMap.find?_eq_some]
  by_cases same : tree = changed
  · subst same
    by_cases found : key = other
    · subst found
      simp [edit, eq_comm]
    · have different : ¬ other = key := fun equal => found equal.symm
      simp [edit, OrdMap.find?_insert, found, different]
  · simp [edit, same]

/-- Puts under distinct keys are all seen, beside the entries under other keys. -/
theorem mem_foldl_edit {changes : List Mutation} {view : View} {tree : TreeId} {entry : Entry}
    (puts : ∀ change ∈ changes, change.value.isSome = true)
    (distinct : changes.Pairwise fun left right =>
      ¬ (left.tree = right.tree ∧ left.key = right.key)) :
    entry ∈ ((changes.foldl edit view).roots tree).entries ↔
      ⟨tree, entry.1, some entry.2⟩ ∈ changes ∨
        entry ∈ (view.roots tree).entries ∧ ∀ value, ⟨tree, entry.1, some value⟩ ∉ changes := by
  induction changes generalizing view with
  | nil => simp
  | cons change changes ih =>
      obtain ⟨changed, key, value⟩ := change
      obtain ⟨value, rfl⟩ := Option.isSome_iff_exists.mp (puts _ List.mem_cons_self)
      obtain ⟨apart, rest⟩ := List.pairwise_cons.mp distinct
      rw [List.foldl_cons, ih (fun other member => puts other (List.mem_cons_of_mem _ member)) rest,
        mem_edit_put]
      obtain ⟨other, stored⟩ := entry
      by_cases same : tree = changed ∧ other = key
      · obtain ⟨rfl, rfl⟩ := same
        have absent (stored : Bytes) : (⟨tree, other, some stored⟩ : Mutation) ∉ changes :=
          fun member => apart _ member ⟨rfl, rfl⟩
        simp [absent]
      · have different (stored : Bytes) :
            (⟨tree, other, some stored⟩ : Mutation) ≠ ⟨changed, key, some value⟩ := by
          intro equal
          cases equal
          exact same ⟨rfl, rfl⟩
        have notPut : ¬ (tree = changed ∧ (other, stored) = (key, value)) := by
          rintro ⟨rfl, equal⟩
          cases equal
          exact same ⟨rfl, rfl⟩
        simp only [List.mem_cons, different, notPut, same, false_or, not_false_eq_true, and_true]

/-- A scan without bounds lists the whole tree. -/
theorem scan_unbounded (view : View) (tree : TreeId) :
    view.scan tree .unbounded .unbounded = .ok (view.roots tree).entries := by
  simp [scan, checkBound, boundKey, OrdMap.range, Bound.above, Bound.below]

theorem roots_edit_of_ne (view : View) {change : Mutation} {tree : TreeId}
    (different : change.tree ≠ tree) : (view.edit change).roots tree = view.roots tree :=
  if_neg fun same => different same.symm

end View

end BlopDb.Storage
