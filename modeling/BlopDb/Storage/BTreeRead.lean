/-
# Reading held trees

Loads of held parts pass every check of the page decoder, routing finds the one
child that can hold a key, and so lookups return what the entries say.  A held
tree passes validation, which owns exactly its pages.
-/

import BlopDb.Storage.BTreeSpec

namespace BlopDb.Storage.BTree

open BlopDb.Lib
open PageFile (validRef checkCells checkChildren)

section Loads

variable {file : PageFile} {tree : TreeId} {level : Nat} {node : Node} {part : Part}
variable {parts : List Part}

theorem checkCells_of_holds {cells : List HeldCell} (each : ∀ cell ∈ cells, cell.Holds file tree)
    (increasing : Increasing (cells.map HeldCell.entry))
    (short : ∀ entry ∈ cells.map HeldCell.entry, entry.1.length ≤ maxKey) (previous : Option Bytes)
    (later : ∀ key ∈ previous, ∀ cell ∈ cells, key < cell.cell.key) :
    checkCells file.pageCount previous (cells.map HeldCell.cell) = .ok () := by
  induction cells generalizing previous with
  | nil => rfl
  | cons first cells ih =>
      obtain ⟨after, increasing⟩ := List.pairwise_cons.mp increasing
      have ordered : ¬ PageFile.unordered previous first.cell.key = true := by
        simp only [PageFile.unordered, Option.any_eq_true, decide_eq_true_eq, ge_iff_le, not_exists,
          not_and, not_le]
        exact fun key isPrevious => later key isPrevious first List.mem_cons_self
      have stored := (each first List.mem_cons_self).validStored
      have fits : ¬ first.cell.key.length > maxKey :=
        Nat.not_lt.mpr (short first.entry List.mem_cons_self)
      have rest := ih (fun cell member => each cell (List.mem_cons_of_mem _ member)) increasing
        (fun entry member => short entry (List.mem_cons_of_mem _ member))
        (some first.cell.key) (fun key same cell member => by
          cases same
          exact after _ (List.mem_map_of_mem member))
      simp only [List.map_cons, checkCells, refuse_of_not _ fits, refuse_of_not _ ordered, ok_bind, stored,
        Bool.true_eq_false, refuse_false, rest]

theorem checkChildren_of_holds (each : ∀ child ∈ parts, Holds file tree level child)
    (increasing : (parts.map Part.min).Pairwise (· < ·))
    (short : ∀ child ∈ parts, child.min.length ≤ maxKey) (previous : Option Bytes)
    (later : ∀ key ∈ previous, ∀ child ∈ parts, key < child.min) :
    checkChildren file.pageCount previous (parts.map fun child => (child.min, child.id)) =
      .ok () := by
  induction parts generalizing previous with
  | nil => rfl
  | cons first parts ih =>
      obtain ⟨after, increasing⟩ := List.pairwise_cons.mp increasing
      have ordered : ¬ PageFile.unordered previous first.min = true := by
        simp only [PageFile.unordered, Option.any_eq_true, decide_eq_true_eq, ge_iff_le, not_exists,
          not_and, not_le]
        exact fun key isPrevious => later key isPrevious first List.mem_cons_self
      have valid := (each first List.mem_cons_self).validRef
      have fits : ¬ first.min.length > maxKey := Nat.not_lt.mpr (short first List.mem_cons_self)
      have rest := ih (fun child member => each child (List.mem_cons_of_mem _ member)) increasing
        (fun child member => short child (List.mem_cons_of_mem _ member))
        (some first.min) (fun key same child member => by
          cases same
          exact after _ (List.mem_map_of_mem member))
      simp only [List.map_cons, checkChildren, refuse_of_not _ fits, refuse_of_not _ ordered, ok_bind,
        refuse_of_not _ (not_not.mpr valid), rest]

theorem min_short (short : ∀ entry ∈ Part.entriesOf parts, entry.1.length ≤ maxKey)
    (holds : ∀ part ∈ parts, Holds file tree level part) :
    ∀ part ∈ parts, part.min.length ≤ maxKey := by
  intro part member
  obtain ⟨value, least⟩ := Part.min_mem (holds part member).nonempty
  exact short _ (List.mem_flatMap.mpr ⟨part, member, least⟩)

theorem internal_child (level : Nat) (parts : List Part) :
    internal level (parts.map Part.child) =
      .internal level (parts.tail.map Part.min) (parts.map Part.id) := by
  simp [internal, Part.child, Function.comp_def, ← List.map_tail]

/-- The node of a held part passes every check of the decoder. -/
theorem node_of_holds (found : file.page? part.id = some (.node tree node))
    (holds : NodeHolds file tree level node part) (ordered : Ordered part.entries part.owned) :
    file.node tree part.id = .ok node := by
  obtain ⟨increasing, short, -⟩ := ordered
  cases level with
  | zero =>
      obtain ⟨cells, rfl, nonempty, entries, -, each⟩ := holds
      rw [entries] at increasing short
      have checked := checkCells_of_holds each increasing short none (by simp)
      have slots : ¬ (Node.leaf (cells.map HeldCell.cell)).slotKeys.length = 0 := by
        simpa [Node.slotKeys] using nonempty
      simp only [PageFile.node, PageFile.read, found, Page.tree, ne_eq, not_true_eq_false,
        refuse_false, ok_bind, PageFile.checkHeader, refuse_of_not _ slots, pure_eq_ok,
        PageFile.decodeNode, checked]
  | succ level =>
      obtain ⟨parts, rfl, two, entries, -, each⟩ := holds
      rw [entries] at increasing short
      have nonempty : ∀ child ∈ parts, child.entries ≠ [] :=
        fun child member => Holds.nonempty (each child member)
      have keys := min_short short each
      rw [internal_child] at found ⊢
      cases parts with
      | nil => simp at two
      | cons first rest =>
          have mins := pairwise_mins increasing nonempty
          have checked := checkChildren_of_holds
            (fun child member => each child (List.mem_cons_of_mem _ member))
            (List.pairwise_cons.mp mins).2
            (fun child member => keys child (List.mem_cons_of_mem _ member)) none (by simp)
          have zipped : (rest.map Part.min).zip (rest.map Part.id) =
              rest.map fun child => (child.min, child.id) := List.zip_map'
          have slots : ¬ (Node.internal (level + 1) (rest.map Part.min)
              (first.id :: rest.map Part.id)).slotKeys.length = 0 := by
            rw [Node.slotKeys, List.length_map]
            simp only [List.length_cons] at two
            omega
          have head : ¬ (level + 1 = 0 ∨
              ¬ validRef ((first.id :: rest.map Part.id).headD 0) file.pageCount) := by
            rintro (zero | invalid)
            · cases zero
            · exact invalid (Holds.validRef (each first List.mem_cons_self))
          rw [← zipped] at checked
          rw [List.tail_cons, List.map_cons] at found ⊢
          simp only [PageFile.node, PageFile.read, found, Page.tree, ne_eq, not_true_eq_false,
            refuse_false, ok_bind, PageFile.checkHeader, refuse_of_not _ slots,
            refuse_of_not _ head, pure_eq_ok, PageFile.decodeNode, List.tail_cons, checked]

theorem load_of_found (found : file.page? part.id = some (.node tree node))
    (holds : NodeHolds file tree level node part) (ordered : Ordered part.entries part.owned)
    (expected : Option Nat) (same : ∀ other ∈ expected, other = level) :
    load file tree part.id expected = .ok node := by
  have fits : ¬ (expected.any fun expected => decide (node.level ≠ expected)) = true := by
    simp only [Option.any_eq_true, decide_eq_true_eq, not_exists, not_and, not_not]
    exact fun other isExpected => holds.level_eq.trans (same other isExpected).symm
  simp only [load, node_of_holds found holds ordered, ok_bind, refuse_of_not _ fits, pure_eq_ok]

/-- Loading a held part at its level. -/
theorem load_of_holds (holds : Holds file tree level part)
    (ordered : Ordered part.entries part.owned)
    (expected : Option Nat) (same : ∀ other ∈ expected, other = level) :
    ∃ node, load file tree part.id expected = .ok node ∧
      (node.level = level ∧ PageFile.nodeSize node ≤ pageSize) ∧
      NodeHolds file tree level node part := by
  obtain ⟨node, found, fits, holds⟩ := holds
  exact ⟨node, load_of_found found holds ordered expected same, ⟨holds.level_eq, fits⟩, holds⟩

end Loads

/-! ## Routing -/

section Routing

variable {parts : List Part} {key : Bytes}

theorem entriesOf_append (left right : List Part) :
    Part.entriesOf (left ++ right) = Part.entriesOf left ++ Part.entriesOf right :=
  List.flatMap_append

theorem entriesOf_cons (part : Part) (rest : List Part) :
    Part.entriesOf (part :: rest) = part.entries ++ Part.entriesOf rest := rfl

/-- The route of a key leads to the one part that can hold it. -/
theorem route_split (some' : parts ≠ []) (increasing : Increasing (Part.entriesOf parts))
    (nonempty : ∀ part ∈ parts, part.entries ≠ []) (key : Bytes) :
    ∃ left part right, parts = left ++ part :: right ∧
      route (parts.tail.map Part.min) key = left.length ∧
      (∀ entry ∈ Part.entriesOf left, entry.1 < key) ∧
      ∀ entry ∈ Part.entriesOf right, key < entry.1 := by
  cases parts with
  | nil => exact absurd rfl some'
  | cons first rest =>
      have mins := List.pairwise_map.mp (pairwise_mins increasing nonempty)
      obtain ⟨before, after, rfl, length, holds, fails⟩ :=
        exists_partition (List.pairwise_cons.mp mins).2
          (show ∀ a ∈ rest, ∀ b ∈ rest, a.min < b.min → decide (b.min ≤ key) = true →
            decide (a.min ≤ key) = true by
            intro a _ b _ less holds
            simp only [decide_eq_true_eq] at holds ⊢
            exact less.le.trans holds)
      have routed : route ((before ++ after).map Part.min) key = before.length := by
        rw [length, route, partitionPoint, partitionPoint, List.takeWhile_map, List.length_map]
        rfl
      have beyond : ∀ entry ∈ Part.entriesOf after, key < entry.1 := by
        intro entry member
        obtain ⟨part, inside, inPart⟩ := List.mem_flatMap.mp member
        have above : key < part.min := by simpa using fails part inside
        have sorted := (List.pairwise_flatMap.mp increasing).1 part (by simp [inside])
        exact lt_of_lt_of_le above (min_le_of_mem sorted inPart)
      rcases List.eq_nil_or_concat before with rfl | ⟨earlier, part, rfl⟩
      · exact ⟨[], first, after, rfl, routed, by simp [Part.entriesOf], beyond⟩
      · refine ⟨first :: earlier, part, after, by simp, by simpa using routed, ?_, beyond⟩
        have below : part.min ≤ key := by simpa using holds part (by simp)
        obtain ⟨value, least⟩ := Part.min_mem (nonempty part (by simp))
        have separate := pairwise_parts increasing
        rw [List.concat_eq_append, List.append_assoc, ← List.cons_append, List.pairwise_append]
          at separate
        intro entry member
        obtain ⟨other, inside, inOther⟩ := List.mem_flatMap.mp member
        exact lt_of_lt_of_le (separate.2.2 other inside part (by simp) entry inOther _ least) below

/-- A search splits the cells of a leaf around the key. -/
theorem search_split {cells : List HeldCell} (increasing : Increasing (cells.map HeldCell.entry))
    (key : Bytes) :
    ∃ left right, (∀ cell ∈ left, cell.cell.key < key) ∧ (∀ cell ∈ right, key < cell.cell.key) ∧
      ((∃ held, held.cell.key = key ∧ cells = left ++ held :: right ∧
          search (cells.map HeldCell.cell) key = (left.length, true)) ∨
        (cells = left ++ right ∧ search (cells.map HeldCell.cell) key = (left.length, false))) := by
  have sorted : cells.Pairwise fun a b => a.cell.key < b.cell.key := by
    rw [Increasing, List.pairwise_map] at increasing
    exact increasing
  obtain ⟨left, right, rfl, length, holds, fails⟩ := exists_partition sorted
    (show ∀ a ∈ cells, ∀ b ∈ cells, a.cell.key < b.cell.key → decide (b.cell.key < key) = true →
      decide (a.cell.key < key) = true by
      intro a _ b _ less holds
      simp only [decide_eq_true_eq] at holds ⊢
      exact less.trans holds)
  have position : partitionPoint ((left ++ right).map HeldCell.cell)
      (fun cell => decide (cell.key < key)) = left.length := by
    rw [length, partitionPoint, partitionPoint, List.takeWhile_map, List.length_map]
    rfl
  have before : ∀ cell ∈ left, cell.cell.key < key := by simpa using holds
  have after : ∀ cell ∈ right, key ≤ cell.cell.key := by simpa using fails
  have found : search ((left ++ right).map HeldCell.cell) key =
      (left.length, right.head?.any fun held => decide (held.cell.key = key)) := by
    simp only [search, position]
    congr 1
    rw [List.map_append, List.getElem?_append_right (by simp)]
    cases right <;> simp
  cases right with
  | nil => exact ⟨left, [], before, by simp, .inr ⟨rfl, found⟩⟩
  | cons held right =>
      have later := (List.pairwise_cons.mp (List.pairwise_append.mp sorted).2.1).1
      by_cases same : held.cell.key = key
      · refine ⟨left, right, before, ?_, .inl ⟨held, same, rfl, by rw [found]; simp [same]⟩⟩
        intro cell member
        exact same ▸ later cell member
      · refine ⟨left, held :: right, before, ?_, .inr ⟨rfl, by rw [found]; simp [same]⟩⟩
        intro cell member
        have first : key < held.cell.key :=
          lt_of_le_of_ne (after held List.mem_cons_self) (Ne.symm same)
        rcases List.mem_cons.mp member with rfl | inRight
        · exact first
        · exact first.trans (later cell inRight)

end Routing

/-! ## Lookups -/

section Lookups

variable {file : PageFile} {tree : TreeId} {level : Nat} {node : Node} {part : Part}
variable {parts : List Part}

/-- The parts of an internal node, each held one level below. -/
theorem NodeHolds.children (holds : NodeHolds file tree (level + 1) node part)
    (ordered : Ordered part.entries part.owned) :
    ∃ parts : List Part, node = .internal (level + 1) (parts.tail.map Part.min) (parts.map Part.id) ∧
      2 ≤ parts.length ∧ part.entries = Part.entriesOf parts ∧
      part.owned = part.id :: Part.ownedOf parts ∧
      ∀ child ∈ parts, Holds file tree level child ∧ Ordered child.entries child.owned := by
  obtain ⟨parts, rfl, two, entries, owned, each⟩ := holds
  refine ⟨parts, internal_child _ _, two, entries, owned, ?_⟩
  intro child member
  rw [entries, owned] at ordered
  exact ⟨each child member, ordered.child member⟩

/-- The lookup in a node finds what its entries say. -/
theorem getNode_of_holds (holds : NodeHolds file tree level node part)
    (ordered : Ordered part.entries part.owned) (key : Bytes) :
    getNode file tree key level node = .ok (lookupEntry key part.entries) := by
  induction level generalizing node part with
  | zero =>
      obtain ⟨cells, rfl, -, entries, owned, each⟩ := holds
      have increasing := ordered.increasing
      rw [entries] at increasing
      obtain ⟨left, right, before, after, ⟨held, same, rfl, found⟩ | ⟨rfl, found⟩⟩ :=
        search_split increasing key
      · have distinct : held.owned.Nodup := by
          have all := ordered.distinct
          rw [owned, List.nodup_cons, List.nodup_flatMap] at all
          exact all.2.1 held (by simp)
        have cell : (index ((left ++ held :: right).map HeldCell.cell) left.length :
            Except (Fault Error) LeafCell) = .ok held.cell :=
          index_eq_ok.mpr (by simp)
        have value := (each held (by simp)).read distinct
        have looked : lookupEntry key part.entries = some held.bytes := by
          rw [entries, List.map_append, lookupEntry_append_of_lt _ (by simpa [HeldCell.entry])]
          simp [lookupEntry, HeldCell.entry, same]
        simp only [getNode, found, cell, value, ok_bind, raise_ok, pure_eq_ok, looked]
      · have looked : lookupEntry key part.entries = none := by
          rw [entries, List.map_append, lookupEntry_append_of_lt _ (by simpa [HeldCell.entry])]
          exact lookupEntry_of_gt (by simpa [HeldCell.entry])
        simp only [getNode, found, pure_eq_ok, looked]
  | succ level ih =>
      obtain ⟨parts, rfl, two, entries, owned, each⟩ := NodeHolds.children holds ordered
      have increasing := ordered.increasing
      rw [entries] at increasing
      obtain ⟨left, child, right, rfl, routed, before, after⟩ :=
        route_split (by rintro rfl; simp at two) increasing
          (fun child member => (each child member).1.nonempty) key
      obtain ⟨held, childOrdered⟩ := each child (by simp)
      obtain ⟨below, loaded, -, holds⟩ :=
        load_of_holds held childOrdered (some level) (by simp)
      have cell : (index ((left ++ child :: right).map Part.id) left.length :
          Except (Fault Error) Nat) = .ok child.id := index_eq_ok.mpr (by simp)
      have looked : lookupEntry key part.entries = lookupEntry key child.entries := by
        rw [entries, entriesOf_append, lookupEntry_append_of_lt _ before, entriesOf_cons,
          lookupEntry_append_of_gt _ after]
      simp only [getNode, routed, cell, ok_bind, Nat.add_sub_cancel, loaded, raise_ok,
        ih holds childOrdered, looked]

theorem min_of_parts {first : Part} (entries : part.entries = Part.entriesOf (first :: parts))
    (nonempty : ∀ child ∈ first :: parts, child.entries ≠ []) : part.min = first.min := by
  rw [Part.min, Part.min, entries, entriesOf_cons,
    List.head?_append_of_ne_nil _ (nonempty first List.mem_cons_self)]

/-- The least key below a held part. -/
theorem minimumNode_of_holds (holds : NodeHolds file tree level node part)
    (ordered : Ordered part.entries part.owned) :
    minimumNode file tree level node = .ok part.min := by
  induction level generalizing node part with
  | zero =>
      obtain ⟨cells, rfl, nonempty, entries, -, -⟩ := holds
      cases cells with
      | nil => exact absurd rfl nonempty
      | cons first cells =>
          simp [minimumNode, index, Part.min, entries, HeldCell.entry]
  | succ level ih =>
      obtain ⟨parts, rfl, two, entries, -, each⟩ := NodeHolds.children holds ordered
      cases parts with
      | nil => simp at two
      | cons first parts =>
          obtain ⟨held, firstOrdered⟩ := each first List.mem_cons_self
          obtain ⟨below, loaded, -, holds⟩ :=
            load_of_holds held firstOrdered (some level) (by simp)
          have least := min_of_parts entries fun child member => (each child member).1.nonempty
          simp [minimumNode, index, loaded, ih holds firstOrdered, least]

/-- The children of an internal node with their exact minima. -/
theorem childList_of_holds (two : 2 ≤ parts.length)
    (each : ∀ child ∈ parts, Holds file tree level child ∧ Ordered child.entries child.owned) :
    childList file tree (level + 1) (parts.tail.map Part.min) (parts.map Part.id) =
      .ok (parts.map Part.child) := by
  cases parts with
  | nil => simp at two
  | cons first parts =>
      obtain ⟨held, firstOrdered⟩ := each first List.mem_cons_self
      obtain ⟨below, loaded, ⟨same, -⟩, holds⟩ :=
        load_of_holds held firstOrdered (some level) (by simp)
      have least := minimumNode_of_holds holds firstOrdered
      simp [childList, index, subChecked, minimum, loaded, same, least, Part.child, List.zip_map']

end Lookups

/-! ## Validation -/

section Validation

variable {file : PageFile} {tree : TreeId} {level : Nat} {node : Node} {part : Part}
variable {parts : List Part}

/-- The greatest key of a part. -/
def Part.max (part : Part) : Bytes := (part.entries.getLast?.map Prod.fst).getD []

theorem Part.max_mem {part : Part} (nonempty : part.entries ≠ []) :
    ∃ value, (part.max, value) ∈ part.entries := by
  refine ⟨(part.entries.getLast nonempty).2, ?_⟩
  have greatest : part.max = (part.entries.getLast nonempty).1 := by
    rw [Part.max, List.getLast?_eq_some_getLast nonempty]
    rfl
  rw [greatest]
  exact List.getLast_mem nonempty

/-- Owned pages that grew by exactly some new pages. -/
def Grown (new before after : List Nat) : Prop := ∀ id, id ∈ after ↔ id ∈ new ∨ id ∈ before

theorem Grown.append {new new' before middle after : List Nat} (first : Grown new before middle)
    (second : Grown new' middle after) : Grown (new ++ new') before after := by
  intro id
  rw [second id, first id, List.mem_append]
  tauto

/-- New pages that are distinct from each other and from the owned ones. -/
structure Fresh (new before : List Nat) : Prop where
  distinct : new.Nodup
  unowned : ∀ id ∈ new, id ∉ before

theorem Fresh.left {new new' before : List Nat} (fresh : Fresh (new ++ new') before) :
    Fresh new before :=
  ⟨(List.nodup_append.mp fresh.distinct).1,
    fun id member => fresh.unowned id (List.mem_append_left _ member)⟩

theorem Fresh.right {new new' before middle : List Nat} (fresh : Fresh (new ++ new') before)
    (grown : Grown new before middle) : Fresh new' middle := by
  obtain ⟨-, distinct, disjoint⟩ := List.nodup_append.mp fresh.distinct
  refine ⟨distinct, ?_⟩
  intro id member inMiddle
  rcases (grown id).mp inMiddle with inNew | inBefore
  · exact disjoint id inNew id member rfl
  · exact fresh.unowned id (List.mem_append_right _ member) inBefore

theorem own_of_fresh {id : Nat} {new before : List Nat} (fresh : Fresh (id :: new) before) :
    PageFile.own before id = .ok (id :: before) ∧ Grown [id] before (id :: before) := by
  refine ⟨?_, by simp [Grown]⟩
  simp only [PageFile.own, refuse_of_not _ (fresh.unowned id List.mem_cons_self), ok_bind,
    pure_eq_ok]

theorem validateCells_of_holds {cells : List HeldCell} (each : ∀ cell ∈ cells, cell.Holds file tree)
    {before : List Nat} (fresh : Fresh (cells.flatMap HeldCell.owned) before) :
    ∃ after, validateCells file tree (cells.map HeldCell.cell) before = .ok after ∧
      Grown (cells.flatMap HeldCell.owned) before after := by
  induction cells generalizing before with
  | nil => exact ⟨before, rfl, by simp [Grown]⟩
  | cons first cells ih =>
      rw [List.flatMap_cons] at fresh
      obtain ⟨middle, validated, grown⟩ :=
        (each first List.mem_cons_self).validate fresh.left.unowned fresh.left.distinct
      obtain ⟨after, rest, grown'⟩ :=
        ih (fun cell member => each cell (List.mem_cons_of_mem _ member)) (fresh.right grown)
      refine ⟨after, ?_, Grown.append grown grown'⟩
      simp only [List.map_cons, validateCells, validated, ok_bind, rest]

/-- What the validation of one child has to do. -/
def ValidatesChild (validate : Nat → List Nat → Except (Fault Error) (Bytes × Bytes × List Nat))
    (part : Part) : Prop :=
  ∀ before, Fresh part.owned before →
    ∃ after, validate part.id before = .ok (part.min, part.max, after) ∧
      Grown part.owned before after

theorem validateChildren_of_holds
    {validate : Nat → List Nat → Except (Fault Error) (Bytes × Bytes × List Nat)} {first : Part}
    (each : ∀ child ∈ parts, ValidatesChild validate child)
    (increasing : Increasing (Part.entriesOf (first :: parts)))
    (nonempty : ∀ child ∈ first :: parts, child.entries ≠ []) {before : List Nat}
    (fresh : Fresh (Part.ownedOf parts) before) :
    ∃ after, validateChildren validate (parts.map fun child => (child.min, child.id)) first.max
        before = .ok (((first :: parts).getLast (by simp)).max, after) ∧
      Grown (Part.ownedOf parts) before after := by
  induction parts generalizing first before with
  | nil => exact ⟨before, rfl, by simp [Grown, Part.ownedOf]⟩
  | cons second parts ih =>
      rw [Part.ownedOf, List.flatMap_cons] at fresh
      obtain ⟨middle, validated, grown⟩ := each second List.mem_cons_self before fresh.left
      have rest : Increasing (Part.entriesOf (second :: parts)) :=
        (List.pairwise_append.mp increasing).2.1
      obtain ⟨after, validatedRest, grown'⟩ :=
        ih (fun child member => each child (List.mem_cons_of_mem _ member)) rest
          (fun child member => nonempty child (List.mem_cons_of_mem _ member)) (fresh.right grown)
      refine ⟨after, ?_, Grown.append grown grown'⟩
      obtain ⟨value, greatest⟩ := Part.max_mem (nonempty first List.mem_cons_self)
      obtain ⟨value', least⟩ := Part.min_mem (nonempty second (by simp))
      have apart : first.max < second.min :=
        (List.pairwise_cons.mp (pairwise_parts increasing)).1 second List.mem_cons_self _ greatest _
          least
      simp only [List.map_cons, validateChildren, validated, ok_bind, ne_eq, not_true_eq_false,
        false_or, refuse_of_not _ (not_le.mpr apart), raise_ok, ge_iff_le, validatedRest,
        List.getLast_cons_cons]

theorem max_of_parts {first : Part} (entries : part.entries = Part.entriesOf (first :: parts))
    (nonempty : ∀ child ∈ first :: parts, child.entries ≠ []) :
    part.max = ((first :: parts).getLast (by simp)).max := by
  have last := List.dropLast_append_getLast (List.cons_ne_nil first parts)
  rw [← last, entriesOf_append] at entries
  have rest := nonempty _ (List.getLast_mem (List.cons_ne_nil first parts))
  rw [Part.max, Part.max, entries, Part.entriesOf, Part.entriesOf, List.flatMap_singleton,
    List.getLast?_append_of_ne_nil _ rest]

/-- A held part passes validation, which owns exactly its pages. -/
theorem validateNode_of_holds (holds : NodeHolds file tree level node part)
    (ordered : Ordered part.entries part.owned) {before : List Nat}
    (fresh : Fresh part.owned.tail before) :
    ∃ after, validateNode file tree level node before = .ok (part.min, part.max, after) ∧
      Grown part.owned.tail before after := by
  induction level generalizing node part before with
  | zero =>
      obtain ⟨cells, rfl, nonempty, entries, owned, each⟩ := holds
      rw [owned, List.tail_cons] at fresh ⊢
      obtain ⟨after, validated, grown⟩ := validateCells_of_holds each fresh
      refine ⟨after, ?_, grown⟩
      have first : (index (cells.map HeldCell.cell) 0 : Except (Fault Error) LeafCell) =
          .ok (cells.head nonempty).cell := index_eq_ok.mpr (by
        rw [List.getElem?_map, ← List.head?_eq_getElem?, List.head?_eq_some_head nonempty]
        rfl)
      have last : (index (cells.map HeldCell.cell) ((cells.map HeldCell.cell).length - 1) :
          Except (Fault Error) LeafCell) = .ok (cells.getLast nonempty).cell := index_eq_ok.mpr (by
        rw [List.length_map, List.getElem?_map, ← List.getLast?_eq_getElem?,
          List.getLast?_eq_some_getLast nonempty]
        rfl)
      have least : part.min = (cells.head nonempty).cell.key := by
        rw [Part.min, entries, List.head?_map, List.head?_eq_some_head nonempty]
        rfl
      have greatest : part.max = (cells.getLast nonempty).cell.key := by
        rw [Part.max, entries, List.getLast?_map, List.getLast?_eq_some_getLast nonempty]
        rfl
      simp only [validateNode, validated, raise_ok, ok_bind, first, last, pure_eq_ok, least,
        greatest]
  | succ level ih =>
      obtain ⟨parts, rfl, two, entries, owned, each⟩ := NodeHolds.children holds ordered
      rw [owned, List.tail_cons] at fresh ⊢
      have children : ∀ child ∈ parts, ValidatesChild (fun child owned => do
          let owned ← raise id (PageFile.own owned child)
          let node ← raise id (load file tree child (some (level + 1 - 1)))
          validateNode file tree level node owned) child := by
        intro child member before fresh
        obtain ⟨held, childOrdered⟩ := each child member
        obtain ⟨below, loaded, -, holds⟩ :=
          load_of_holds held childOrdered (some level) (by simp)
        obtain ⟨rest, own⟩ := held.owned_eq
        rw [own] at fresh ⊢
        obtain ⟨owns, grown⟩ := own_of_fresh fresh
        have freshRest : Fresh child.owned.tail (child.id :: before) := by
          rw [own]
          exact Fresh.right (show Fresh ([child.id] ++ rest) before from fresh) grown
        obtain ⟨after, validated, grown'⟩ := ih holds childOrdered freshRest
        rw [own] at grown'
        exact ⟨after, by simp [owns, loaded, validated], Grown.append grown grown'⟩
      have increasing := ordered.increasing
      rw [entries] at increasing
      cases parts with
      | nil => simp at two
      | cons first parts =>
          have nonempty : ∀ child ∈ first :: parts, child.entries ≠ [] :=
            fun child member => (each child member).1.nonempty
          obtain ⟨middle, validated, grown⟩ :=
            children first List.mem_cons_self before (Fresh.left fresh)
          obtain ⟨after, validatedRest, grown'⟩ := validateChildren_of_holds
            (fun child member => children child (List.mem_cons_of_mem _ member)) increasing nonempty
            (Fresh.right fresh grown)
          refine ⟨after, ?_, Grown.append grown grown'⟩
          have slots : ((first :: parts).tail.map Part.min).zip ((first :: parts).map Part.id).tail =
              parts.map fun child => (child.min, child.id) := by
            simp [List.zip_map']
          rw [min_of_parts entries nonempty, max_of_parts entries nonempty]
          simp only [validateNode, slots]
          simp only [index, List.map_cons, List.getElem?_cons_zero, ok_bind] at validated ⊢
          simp only [validated, ok_bind, validatedRest, pure_eq_ok]

end Validation

end BlopDb.Storage.BTree
