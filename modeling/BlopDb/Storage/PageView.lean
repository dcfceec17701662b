/-
# Views of a page file

A view pins a readable prefix of a page file and the roots of the five trees.  It
stands for five ordered maps when each of its roots does, and then every lookup,
seek and scan of its pages is the one of the maps.  An edit of the latest roots
makes roots of the edited maps in a longer file.
-/

import BlopDb.Storage.Apply
import BlopDb.Storage.BTreeSeek
import BlopDb.Storage.Metadata

namespace BlopDb.Storage

open BlopDb.Lib
open BTree (Rooted)

/-- The root of a tree. -/
def Roots.root (roots : Roots) : TreeId → Nat
  | .state => roots.state
  | .catalogue => roots.catalogue
  | .policy => roots.policy
  | .outcomes => roots.outcomes
  | .cursors => roots.cursors

/-- Replace the root of a tree. -/
def Roots.setRoot (roots : Roots) (tree : TreeId) (root : Nat) : Roots :=
  match tree with
  | .state => { roots with state := root }
  | .catalogue => { roots with catalogue := root }
  | .policy => { roots with policy := root }
  | .outcomes => { roots with outcomes := root }
  | .cursors => { roots with cursors := root }

theorem Roots.root_setRoot (roots : Roots) (tree other : TreeId) (root : Nat) :
    (roots.setRoot tree root).root other = if other = tree then root else roots.root other := by
  cases tree <;> cases other <;> rfl

/-! ## Draining a scan -/

/-- The number of cells in the leaves of a file. -/
def PageFile.cellCount (file : PageFile) : Nat :=
  (file.pages.map fun page =>
    match page with
    | .node _ (.leaf cells) => cells.length
    | _ => 0).sum

namespace BTree

/-- All entries of a scan.  The fuel exceeds the number of its steps. -/
def Scan.drain : Nat → Scan → Except (Fault Error) (List Entry)
  | 0, _ => throw .panic
  | fuel + 1, scan =>
      match scan.step with
      | (none, _) => return []
      | (some item, scan) => do
          let entry ← item
          let entries ← scan.drain fuel
          return entry :: entries

theorem Scan.Yields.drain {scan : Scan} {items : List (Except (Fault Error) Entry)}
    (yields : scan.Yields items) {entries : List Entry} (isItems : items = entries.map .ok)
    {fuel : Nat} (enough : entries.length < fuel) : scan.drain fuel = .ok entries := by
  induction yields generalizing entries fuel with
  | stop done =>
      obtain ⟨fuel, rfl⟩ := Nat.exists_eq_succ_of_ne_zero (show fuel ≠ 0 by omega)
      obtain rfl : entries = [] := by simpa using isItems.symm
      simp only [Scan.drain, done, pure_eq_ok]
  | item stepped _ ih =>
      obtain ⟨fuel, rfl⟩ := Nat.exists_eq_succ_of_ne_zero (show fuel ≠ 0 by omega)
      cases entries with
      | nil => cases isItems
      | cons entry entries =>
          rw [List.map_cons, List.cons.injEq] at isItems
          obtain ⟨rfl, isRest⟩ := isItems
          have rest := ih isRest (Nat.lt_of_succ_lt_succ enough)
          simp only [Scan.drain, stepped, ok_bind, rest, pure_eq_ok]

/-- The number of cells in a leaf. -/
def pageCells (file : PageFile) (id : Nat) : Nat :=
  match file.page? id with
  | some (.node _ (.leaf cells)) => cells.length
  | _ => 0

/-- The entries of a part are cells of its pages. -/
theorem Holds.length_le {file : PageFile} {tree : TreeId} {level : Nat} {part : Part}
    (holds : Holds file tree level part) :
    part.entries.length ≤ (part.owned.map (pageCells file)).sum := by
  induction level generalizing part with
  | zero =>
      obtain ⟨node, found, -, cells, rfl, -, entries, owned, -⟩ := holds
      rw [entries, owned, List.map_cons, List.sum_cons, pageCells, found]
      simp
  | succ level ih =>
      obtain ⟨node, -, -, parts, -, -, entries, owned, each⟩ := holds
      have below : ∀ list ⊆ parts, (Part.entriesOf list).length ≤
          ((Part.ownedOf list).map (pageCells file)).sum := by
        intro list
        induction list with
        | nil => exact fun _ => le_rfl
        | cons child list ihList =>
            intro inside
            obtain ⟨member, rest⟩ := List.cons_subset.mp inside
            have first : child.entries.length ≤ (child.owned.map (pageCells file)).sum :=
              ih (each child member)
            have others := ihList rest
            simp only [Part.entriesOf, Part.ownedOf, List.flatMap_cons, List.length_append,
              List.map_append, List.sum_append] at others ⊢
            omega
      have all := below parts (List.Subset.refl _)
      rw [entries, owned, List.map_cons, List.sum_cons]
      omega

/-- Distinct pages have no more cells than the file. -/
theorem sum_pageCells_le {file : PageFile} {owned : List Nat} (distinct : owned.Nodup)
    (valid : ∀ id ∈ owned, PageFile.validRef id file.pageCount) :
    (owned.map (pageCells file)).sum ≤ file.cellCount := by
  have all : file.cellCount = ((List.range' 1 file.pages.length).map (pageCells file)).sum := by
    rw [PageFile.cellCount]
    congr 1
    refine List.ext_getElem (by simp) fun position left right => ?_
    have inside : position < file.pages.length := by simpa using left
    have found : file.page? (1 + position) = some file.pages[position] := by
      rw [PageFile.page?, if_neg (by omega), show 1 + position - 1 = position by omega]
      exact List.getElem?_eq_getElem inside
    simp only [List.getElem_map, List.getElem_range', pageCells, Nat.one_mul, found]
    cases file.pages[position] with
    | overflow tree link chunk => rfl
    | node tree node => cases node <;> rfl
  have inside : owned ⊆ List.range' 1 file.pages.length := fun id member => by
    obtain ⟨positive, below⟩ := valid id member
    rw [PageFile.pageCount] at below
    exact List.mem_range'_1.mpr ⟨by omega, by omega⟩
  obtain ⟨list, permuted, sublist⟩ := List.subperm_of_subset distinct inside
  rw [all, ← (permuted.map (pageCells file)).sum_eq]
  exact (sublist.map _).sum_le_sum fun _ _ => Nat.zero_le _

/-- A root of a map has no more entries than the file has cells. -/
theorem Rooted.length_le {file : PageFile} {tree : TreeId} {root : Nat} {entries : List Entry}
    (rooted : Rooted file tree root entries) : entries.length ≤ file.cellCount := by
  rcases rooted with ⟨-, rfl⟩ | ⟨level, part, -, holds, ordered, rfl⟩
  · exact Nat.zero_le _
  · exact holds.length_le.trans (sum_pageCells_le ordered.distinct fun id => holds.valid id)

/-- A bounded scan from the root of a map yields its range. -/
theorem Rooted.yields {file : PageFile} {tree : TreeId} {root : Nat} {map : Tree}
    (rooted : Rooted file tree root map.entries) {lower upper : Bound Bytes}
    (lowerShort : checkBound checkKey lower = .ok ()) (upperShort : checkBound checkKey upper = .ok ()) :
    ∃ start, BTree.scan file tree root lower upper = .ok start ∧
      start.Yields ((map.range lower upper).map .ok) := by
  rcases rooted with ⟨rfl, empty⟩ | ⟨level, part, rfl, holds, ordered, same⟩
  · refine ⟨⟨file, tree, [], [], 0, upper, none, true⟩, ?_, ?_⟩
    · simp [BTree.scan, lowerShort, upperShort]
    · rw [OrdMap.range, empty]
      exact .stop rfl
  · obtain ⟨start, started, yields⟩ := scan_of_holds holds ordered lowerShort upperShort
    rw [same] at yields
    exact ⟨start, started, yields⟩

/-- The range of a map has no more entries than the file has cells. -/
theorem Rooted.range_length_le {file : PageFile} {tree : TreeId} {root : Nat} {map : Tree}
    (rooted : Rooted file tree root map.entries) (lower upper : Bound Bytes) :
    (map.range lower upper).length ≤ file.cellCount :=
  (List.length_filter_le _ _).trans rooted.length_le

/-- A bounded scan from the root of a map drains to its range. -/
theorem Rooted.scans {file : PageFile} {tree : TreeId} {root : Nat} {map : Tree}
    (rooted : Rooted file tree root map.entries) {lower upper : Bound Bytes}
    (lowerShort : checkBound checkKey lower = .ok ()) (upperShort : checkBound checkKey upper = .ok ()) :
    ∃ start, BTree.scan file tree root lower upper = .ok start ∧
      start.drain (file.cellCount + 1) = .ok (map.range lower upper) := by
  obtain ⟨start, started, yields⟩ := rooted.yields lowerShort upperShort
  exact ⟨start, started, @Scan.Yields.drain _ _ yields _ rfl _
    (Nat.lt_succ_of_le (rooted.range_length_le lower upper))⟩

end BTree

/-! ## Views -/

/-- Roots in a readable prefix of a page file. -/
structure PageView where
  reader : PageFile
  roots : Roots

namespace PageView

/-- The value under an exact physical key. -/
def get (view : PageView) (tree : TreeId) (key : Bytes) : Except (Fault Error) (Option Bytes) :=
  BTree.get view.reader tree (view.roots.root tree) key

/-- The first entry at or above a physical key. -/
def seek (view : PageView) (tree : TreeId) (key : Bytes) : Except (Fault Error) (Option Entry) := do
  match ← BTree.seek view.reader tree (view.roots.root tree) key with
  | none => return none
  | some cell => do
      let value ← raise id (view.reader.value tree cell.value)
      return some (cell.key, value)

/-- All entries between two physical bounds, in key order. -/
def scan (view : PageView) (tree : TreeId) (lower upper : Bound Bytes) :
    Except (Fault Error) (List Entry) := do
  let start ← BTree.scan view.reader tree (view.roots.root tree) lower upper
  start.drain (view.reader.cellCount + 1)

/-- A view stands for five ordered maps. -/
def Stands (view : PageView) (maps : View) : Prop :=
  ∀ tree, Rooted view.reader tree (view.roots.root tree) (maps.roots tree).entries

variable {view : PageView} {maps : View}

theorem checkKey_cases (key : Bytes) :
    (checkKey key = .ok () ∧ key.length ≤ maxKey) ∨
      ∃ error, checkKey key = .error error ∧ maxKey < key.length := by
  by_cases long : key.length > maxKey
  · exact .inr ⟨_, if_pos long, long⟩
  · exact .inl ⟨if_neg long, not_lt.mp long⟩

theorem Stands.get (stands : view.Stands maps) (tree : TreeId) (key : Bytes) :
    view.get tree key = raise id (maps.get tree key) := by
  rcases checkKey_cases key with ⟨fits, short⟩ | ⟨error, fails, -⟩
  · rw [PageView.get, (stands tree).reads.gets key short, View.get, fits]
    rfl
  · rw [PageView.get, BTree.get, View.get, fails]
    rfl

theorem Stands.seek (stands : view.Stands maps) (tree : TreeId) (key : Bytes) :
    view.seek tree key = raise id (maps.seek tree key) := by
  rcases checkKey_cases key with ⟨fits, short⟩ | ⟨error, fails, -⟩
  · obtain ⟨found, isFound, means⟩ := (stands tree).seeks short
    have first : ((maps.roots tree).range (.included key) .unbounded).head? =
        (maps.roots tree).entries.find? fun entry => decide (key ≤ entry.1) := by
      rw [OrdMap.range, List.head?_filter]
      simp [Bound.above, Bound.below]
    rw [PageView.seek, isFound, View.seek, fits, ok_bind, ok_bind, first]
    split at means
    · rename_i absent
      rw [means, absent]
      rfl
    · rename_i entry present
      obtain ⟨cell, rfl, isKey, value⟩ := means
      simp only [value, raise_ok, ok_bind, isKey, present]
      rfl
  · rw [PageView.seek, BTree.seek, View.seek, fails]
    rfl

theorem Stands.scan (stands : view.Stands maps) (tree : TreeId) (lower upper : Bound Bytes) :
    view.scan tree lower upper = raise id (maps.scan tree lower upper) := by
  cases lowerFits : checkBound checkKey lower with
  | error error =>
      rw [PageView.scan, BTree.scan, View.scan, lowerFits]
      rfl
  | ok _ =>
      cases upperFits : checkBound checkKey upper with
      | error error =>
          rw [PageView.scan, BTree.scan, View.scan, lowerFits, upperFits]
          rfl
      | ok _ =>
          obtain ⟨start, started, drained⟩ := (stands tree).scans lowerFits upperFits
          rw [PageView.scan, started, ok_bind, drained, View.scan, lowerFits, upperFits]
          rfl

/-- Pages never change, so a view stands in every longer file. -/
theorem Stands.extend (stands : view.Stands maps) {later : PageFile}
    (grows : view.reader.Extends later) : PageView.Stands ⟨later, view.roots⟩ maps :=
  fun tree => (stands tree).extend grows

/-! ## Edits -/

/-- Put or remove a key of a tree, in a longer file. -/
def edit (view : PageView) (change : Mutation) : Except (Fault Error) PageView := do
  let root := view.roots.root change.tree
  let (root, reader) ← match change.value with
    | some value => BTree.put view.reader change.tree root change.key value
    | none => BTree.delete view.reader change.tree root change.key
  return ⟨reader, view.roots.setRoot change.tree root⟩

/-- Edits in order. -/
def edits (view : PageView) : List Mutation → Except (Fault Error) PageView
  | [] => .ok view
  | change :: changes => do
      let view ← view.edit change
      view.edits changes

/-- A key and a value within their ceilings. -/
def Fits (change : Mutation) : Prop :=
  change.key.length ≤ maxKey ∧ ∀ value ∈ change.value, value.length ≤ maxValue

theorem edit_safe (stands : view.Stands maps) {change : Mutation} (fits : Fits change) :
    Safe (view.edit change)
      (fun after => view.reader.Extends after.reader ∧ after.Stands (maps.edit change) ∧
        after.reader.pageCount ≤ view.reader.pageCount + BTree.callPages)
      (PageFile.Full (view.reader.pageCount + BTree.callPages)) := by
  obtain ⟨changed, key, value⟩ := change
  have after {root : Nat} {reader : PageFile} {map : Tree} (grows : view.reader.Extends reader)
      (rooted : Rooted reader changed root map.entries)
      (isMap : (maps.edit ⟨changed, key, value⟩).roots changed = map) :
      PageView.Stands ⟨reader, view.roots.setRoot changed root⟩ (maps.edit ⟨changed, key, value⟩) := by
    intro tree
    rw [Roots.root_setRoot]
    by_cases same : tree = changed
    · subst same
      rw [if_pos rfl, isMap]
      exact rooted
    · rw [if_neg same, maps.roots_edit_of_ne (fun equal => same equal.symm)]
      exact (stands tree).extend grows
  cases value with
  | some value =>
      rw [edit]
      refine Safe.bind (BTree.put_safe fits.1 (fits.2 value rfl) (stands changed)) ?_
      rintro ⟨root, reader⟩ ⟨grows, rooted, few⟩
      exact Safe.ret ⟨grows, @after root reader ((maps.roots changed).insert key value) grows rooted
        (if_pos rfl), few⟩
  | none =>
      rw [edit]
      refine Safe.bind (BTree.delete_safe fits.1 (stands changed)) ?_
      rintro ⟨root, reader⟩ ⟨grows, rooted, few⟩
      exact Safe.ret ⟨grows, @after root reader ((maps.roots changed).erase key) grows rooted
        (if_pos rfl), few⟩

/-- Edits that fit give roots of the edited maps in a longer file. -/
theorem edits_safe {changes : List Mutation} (stands : view.Stands maps)
    (fits : ∀ change ∈ changes, Fits change) :
    Safe (view.edits changes)
      (fun after => view.reader.Extends after.reader ∧ after.Stands (changes.foldl View.edit maps))
      (fun error => error = .exhausted) := by
  induction changes generalizing view maps with
  | nil => exact Safe.ok ⟨.refl _, stands⟩
  | cons change changes ih =>
      rw [edits]
      refine Safe.bind ((edit_safe stands (fits change List.mem_cons_self)).mono (fun _ => id)
        fun error full => full.1) ?_
      rintro middle ⟨grows, standing, -⟩
      refine (ih standing fun other member => fits other (List.mem_cons_of_mem _ member)).weaken ?_
      rintro after ⟨grows', standing'⟩
      exact ⟨grows.trans grows', standing'⟩

theorem fits_of_not_oversized {changes : List Mutation} (fits : ¬ oversized changes = true) :
    ∀ change ∈ changes, Fits change := by
  intro change member
  have small := List.any_eq_false.mp (Bool.not_eq_true _ ▸ fits) change member
  simp only [Bool.or_eq_true, decide_eq_true_eq, not_or, not_lt, Option.any_eq_true, not_exists,
    not_and] at small
  exact ⟨small.1, small.2⟩

end PageView

end BlopDb.Storage
