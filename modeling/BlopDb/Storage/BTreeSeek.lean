/-
# Seeking in trees

A seek finds the first cell at or above a key.  It goes down the route of the key
and remembers the nearest subtree to the right, where the next cell is when the
leaf has none.
-/

import BlopDb.Storage.BTreeRefines

namespace BlopDb.Storage.BTree

open BlopDb.Lib

/-- Seek below a node, with the page and level of the nearest subtree to its
right.  Each subtree to the right is lower than the one before it, so that the
fuel bounds the nodes of all descents. -/
def seekNode (file : PageFile) (tree : TreeId) (key : Bytes) :
    Nat → Node → Option (Nat × Nat) → Except (Fault Error) (Option LeafCell)
  | 0, _, _ => throw .panic
  | fuel + 1, .leaf cells, successor =>
      match cells[partitionPoint cells fun cell => cell.key < key]? with
      | some cell => return some cell
      | none =>
          match successor with
          | none => return none
          | some (next, level) => do
              let node ← raise id (load file tree next (some level))
              seekNode file tree key fuel node none
  | fuel + 1, .internal level keys children, successor => do
      let position := route keys key
      let child ← index children position
      let node ← raise id (load file tree child (some (level - 1)))
      seekNode file tree key fuel node
        ((children[position + 1]?.map fun next => (next, level - 1)).or successor)

/-- Find the first cell at or above a key. -/
def seek (file : PageFile) (tree : TreeId) (root : Nat) (key : Bytes) :
    Except (Fault Error) (Option LeafCell) := do
  raise id (checkKey key)
  if root = 0 then return none
  else do
    let node ← raise id (load file tree root none)
    seekNode file tree key ((node.level + 1) * (node.level + 2)) node none

/-- A cell stands for an entry. -/
def CellReads (file : PageFile) (tree : TreeId) (cell : LeafCell) (entry : Entry) : Prop :=
  cell.key = entry.1 ∧ file.value tree cell.value = .ok entry.2

/-- A seek found the first of some entries at or above a key. -/
def Found (file : PageFile) (tree : TreeId) (key : Bytes) (entries : List Entry)
    (result : Except (Fault Error) (Option LeafCell)) : Prop :=
  ∃ found, result = .ok found ∧
    match entries.find? fun entry => decide (key ≤ entry.1) with
    | none => found = none
    | some entry => ∃ cell, found = some cell ∧ CellReads file tree cell entry

section Seeking

variable {file : PageFile} {tree : TreeId} {level : Nat} {node : Node} {part : Part} {key : Bytes}

theorem Found.append_right {left right : List Entry} {result : Except (Fault Error) (Option LeafCell)}
    (below : ∀ entry ∈ left, entry.1 < key) :
    Found file tree key (left ++ right) result ↔ Found file tree key right result := by
  have skipped : left.find? (fun entry => decide (key ≤ entry.1)) = none := by
    refine List.find?_eq_none.mpr fun entry member => ?_
    simpa using below entry member
  rw [Found, Found, List.find?_append, skipped, Option.none_or]

theorem Found.append_left {left right right' : List Entry}
    {result : Except (Fault Error) (Option LeafCell)}
    (same : (∀ entry ∈ left, entry.1 < key) → right.head? = right'.head?)
    (above : ∀ entry ∈ right ++ right', key < entry.1) :
    Found file tree key (left ++ right) result ↔ Found file tree key (left ++ right') result := by
  have first {list : List Entry} (above : ∀ entry ∈ list, key < entry.1) :
      list.find? (fun entry => decide (key ≤ entry.1)) = list.head? := by
    cases list with
    | nil => rfl
    | cons entry list => simp [(above entry List.mem_cons_self).le]
  rw [Found, Found, List.find?_append, List.find?_append,
    first fun entry member => above entry (List.mem_append_left _ member),
    first fun entry member => above entry (List.mem_append_right _ member)]
  cases skipped : left.find? (fun entry => decide (key ≤ entry.1)) with
  | some entry => rfl
  | none =>
      rw [same fun entry member => ?_]
      simpa using List.find?_eq_none.mp skipped entry member

theorem Found.append_some {left right : List Entry} {result : Except (Fault Error) (Option LeafCell)}
    {entry : Entry} (member : entry ∈ left) (above : key ≤ entry.1) :
    Found file tree key (left ++ right) result ↔ Found file tree key left result := by
  have some' : (left.find? fun entry => decide (key ≤ entry.1)).isSome = true :=
    List.find?_isSome.mpr ⟨entry, member, decide_eq_true above⟩
  obtain ⟨found, isFound⟩ := Option.isSome_iff_exists.mp some'
  rw [Found, Found, List.find?_append, isFound, Option.some_or]

/-- The cells of a leaf split around the place of a key. -/
theorem leaf_split {cells : List HeldCell} (increasing : Increasing (cells.map HeldCell.entry))
    (key : Bytes) :
    ∃ left right, cells = left ++ right ∧ (∀ cell ∈ left, cell.cell.key < key) ∧
      (∀ cell ∈ right, key ≤ cell.cell.key) ∧
      partitionPoint (cells.map HeldCell.cell) (fun cell => cell.key < key) = left.length := by
  have sorted : cells.Pairwise fun a b => a.cell.key < b.cell.key := by
    rw [Increasing, List.pairwise_map] at increasing
    exact increasing
  obtain ⟨left, right, rfl, length, holds, fails⟩ := exists_partition sorted
    (show ∀ a ∈ cells, ∀ b ∈ cells, a.cell.key < b.cell.key → decide (b.cell.key < key) = true →
      decide (a.cell.key < key) = true by
      intro a _ b _ less holds
      simp only [decide_eq_true_eq] at holds ⊢
      exact less.trans holds)
  refine ⟨left, right, rfl, by simpa using holds, by simpa using fails, ?_⟩
  rw [length, partitionPoint, partitionPoint, List.takeWhile_map, List.length_map]
  rfl

/-- A cell of a leaf stands for its entry. -/
theorem cellReads_of_holds {cells : List HeldCell} {held : HeldCell} (member : held ∈ cells)
    (holds : held.Holds file tree) (distinct : (cells.flatMap HeldCell.owned).Nodup) :
    CellReads file tree held.cell held.entry :=
  ⟨rfl, holds.read ((List.nodup_flatMap.mp distinct).1 held member)⟩

/-- A leaf that has a cell at or above the key is where the seek ends. -/
theorem seekNode_leaf {cells : List HeldCell} {left right : List HeldCell} {held : HeldCell}
    (split : cells = left ++ held :: right) (below : ∀ cell ∈ left, cell.cell.key < key)
    (above : key ≤ held.cell.key)
    (position : partitionPoint (cells.map HeldCell.cell) (fun cell => cell.key < key) = left.length)
    (reads : CellReads file tree held.cell held.entry) (fuel : Nat) (successor : Option (Nat × Nat))
    (rest : List Entry) :
    Found file tree key (cells.map HeldCell.entry ++ rest)
      (seekNode file tree key (fuel + 1) (.leaf (cells.map HeldCell.cell)) successor) := by
  have found : (cells.map HeldCell.cell)[left.length]? = some held.cell := by
    rw [split]
    simp
  refine ⟨some held.cell, by simp only [seekNode, position, found, pure_eq_ok], ?_⟩
  have first : (cells.map HeldCell.entry ++ rest).find? (fun entry => decide (key ≤ entry.1)) =
      some held.entry := by
    have skipped : (left.map HeldCell.entry).find? (fun entry => decide (key ≤ entry.1)) = none := by
      refine List.find?_eq_none.mpr fun entry member => ?_
      obtain ⟨cell, inLeft, rfl⟩ := List.mem_map.mp member
      exact fun isAbove => not_le.mpr (below cell inLeft) (of_decide_eq_true isAbove)
    rw [split, List.map_append, List.append_assoc, List.find?_append, skipped, Option.none_or,
      List.map_cons, List.cons_append, List.find?_cons_of_pos]
    exact decide_eq_true above
  rw [first]
  exact ⟨held.cell, rfl, reads⟩

/-- A part whose keys are all above the key is entered at its first cell. -/
theorem seekNode_first (holds : NodeHolds file tree level node part)
    (ordered : Ordered part.entries part.owned) (above : ∀ entry ∈ part.entries, key < entry.1)
    {fuel : Nat} (enough : level + 1 ≤ fuel) (successor : Option (Nat × Nat)) :
    Found file tree key part.entries (seekNode file tree key fuel node successor) := by
  induction level generalizing node part fuel successor with
  | zero =>
      obtain ⟨cells, rfl, nonempty, entries, owned, each⟩ := holds
      obtain ⟨fuel, rfl⟩ := Nat.exists_eq_succ_of_ne_zero (show fuel ≠ 0 by omega)
      obtain ⟨held, rest, rfl⟩ := List.exists_cons_of_ne_nil nonempty
      have increasing := ordered.increasing
      have distinct := ordered.distinct
      rw [owned, List.nodup_cons] at distinct
      rw [entries] at increasing above ⊢
      have first : key < held.cell.key := above held.entry List.mem_cons_self
      have position : partitionPoint ((held :: rest).map HeldCell.cell)
          (fun cell => cell.key < key) = ([] : List HeldCell).length := by
        simp [partitionPoint, first.le]
      have found := @seekNode_leaf file tree key _ [] rest held rfl (by simp) first.le position
        (cellReads_of_holds List.mem_cons_self (each held List.mem_cons_self) distinct.2) fuel
        successor []
      rwa [List.append_nil] at found
  | succ level ih =>
      obtain ⟨fuel, rfl⟩ := Nat.exists_eq_succ_of_ne_zero (show fuel ≠ 0 by omega)
      obtain ⟨parts, rfl, two, entries, owned, each⟩ := NodeHolds.children holds ordered
      have increasing := ordered.increasing
      rw [entries] at increasing above ⊢
      obtain ⟨left, child, right, rfl, routed, before, after⟩ :=
        route_split (by rintro rfl; simp at two) increasing
          (fun child member => (each child member).1.nonempty) key
      obtain rfl : left = [] := by
        by_contra some'
        obtain ⟨first, others, rfl⟩ := List.exists_cons_of_ne_nil some'
        obtain ⟨entry, rest, isFirst⟩ :=
          List.exists_cons_of_ne_nil ((each first (by simp)).1.nonempty)
        have inFirst : entry ∈ first.entries := by
          rw [isFirst]
          exact List.mem_cons_self
        have low := before entry (List.mem_flatMap.mpr ⟨first, List.mem_cons_self, inFirst⟩)
        have high := above entry (List.mem_flatMap.mpr ⟨first, by simp, inFirst⟩)
        exact lt_asymm low high
      obtain ⟨held, childOrdered⟩ := each child (by simp)
      obtain ⟨below, loaded, -, childHolds⟩ :=
        load_of_holds held childOrdered (some level) (by simp)
      have cell : (index (([] ++ child :: right).map Part.id) ([] : List Part).length :
          Except (Fault Error) Nat) = .ok child.id := index_eq_ok.mpr (by simp)
      have found := ih childHolds childOrdered
        (fun entry member => above entry (List.mem_flatMap.mpr ⟨child, by simp, member⟩))
        (show level + 1 ≤ fuel by omega)
        (((([] ++ child :: right).map Part.id)[([] : List Part).length + 1]?.map
          fun next => (next, level)).or successor)
      simp only [seekNode, routed, cell, ok_bind, Nat.add_sub_cancel, loaded, raise_ok]
      obtain ⟨entry, rest, isFirst⟩ := List.exists_cons_of_ne_nil held.nonempty
      have inChild : entry ∈ child.entries := by
        rw [isFirst]
        exact List.mem_cons_self
      rw [List.nil_append, entriesOf_cons]
      exact (Found.append_some inChild (above entry (List.mem_flatMap.mpr
        ⟨child, by simp, inChild⟩)).le).mpr found

/-- The nearest subtree to the right: its page and level, and its entries. -/
structure Successor (file : PageFile) (tree : TreeId) (key : Bytes)
    (successor : Option (Nat × Nat)) (rest : List Entry) (height : Nat) : Prop where
  absent : successor = none → rest = []
  held : ∀ {page level}, successor = some (page, level) → level + 1 ≤ height ∧
    ∃ part, part.id = page ∧ part.entries = rest ∧ Holds file tree level part ∧
      Ordered part.entries part.owned
  above : ∀ entry ∈ rest, key < entry.1

/-- A seek below a node finds the first cell of its entries or of the subtree to
the right. -/
theorem seekNode_of_holds (holds : NodeHolds file tree level node part)
    (ordered : Ordered part.entries part.owned) {successor : Option (Nat × Nat)} {rest : List Entry}
    {fuel height : Nat} (right : Successor file tree key successor rest height)
    (enough : level + 1 + max height level ≤ fuel) :
    Found file tree key (part.entries ++ rest) (seekNode file tree key fuel node successor) := by
  induction level generalizing node part fuel successor rest height with
  | zero =>
      obtain ⟨cells, rfl, nonempty, entries, owned, each⟩ := holds
      obtain ⟨fuel, rfl⟩ := Nat.exists_eq_succ_of_ne_zero (show fuel ≠ 0 by omega)
      have increasing := ordered.increasing
      have distinct := ordered.distinct
      rw [owned, List.nodup_cons] at distinct
      rw [entries] at increasing ⊢
      obtain ⟨left, later, split, below, above, position⟩ := leaf_split increasing key
      cases later with
      | cons held later =>
          exact seekNode_leaf split below (above held List.mem_cons_self) position
            (cellReads_of_holds (by simp [split]) (each held (by simp [split])) distinct.2) fuel
            successor rest
      | nil =>
          rw [List.append_nil] at split
          subst split
          have missing : (cells.map HeldCell.cell)[cells.length]? = none :=
            List.getElem?_eq_none (by simp)
          refine (Found.append_right fun entry member => ?_).mpr ?_
          · obtain ⟨cell, inCells, rfl⟩ := List.mem_map.mp member
            exact below cell inCells
          · simp only [seekNode, position, missing]
            cases successor with
            | none =>
                rw [right.absent rfl]
                exact ⟨none, rfl, rfl⟩
            | some next =>
                obtain ⟨page, level⟩ := next
                obtain ⟨short, next, rfl, rfl, held, nextOrdered⟩ := right.held rfl
                obtain ⟨node, loaded, -, nextHolds⟩ :=
                  load_of_holds held nextOrdered (some level) (by simp)
                simp only [loaded, raise_ok, ok_bind]
                exact seekNode_first nextHolds nextOrdered right.above (by omega) none
  | succ level ih =>
      obtain ⟨fuel, rfl⟩ := Nat.exists_eq_succ_of_ne_zero (show fuel ≠ 0 by omega)
      obtain ⟨parts, rfl, two, entries, owned, each⟩ := NodeHolds.children holds ordered
      have increasing := ordered.increasing
      rw [entries] at increasing ⊢
      obtain ⟨left, child, later, rfl, routed, before, after⟩ :=
        route_split (by rintro rfl; simp at two) increasing
          (fun child member => (each child member).1.nonempty) key
      obtain ⟨held, childOrdered⟩ := each child (by simp)
      obtain ⟨below, loaded, -, childHolds⟩ :=
        load_of_holds held childOrdered (some level) (by simp)
      have cell : (index ((left ++ child :: later).map Part.id) left.length :
          Except (Fault Error) Nat) = .ok child.id := index_eq_ok.mpr (by simp)
      have following : ((left ++ child :: later).map Part.id)[left.length + 1]? =
          later.head?.map Part.id := by
        rw [List.map_append, List.getElem?_append_right (by simp)]
        cases later <;> simp
      simp only [seekNode, routed, cell, ok_bind, Nat.add_sub_cancel, loaded, raise_ok, following]
      rw [entriesOf_append, entriesOf_cons, List.append_assoc, List.append_assoc]
      refine (Found.append_right before).mpr ?_
      cases later with
      | nil =>
          exact ih childHolds childOrdered right (by omega)
      | cons next later =>
          obtain ⟨nextHeld, nextOrdered⟩ := each next (by simp)
          have right' : Successor file tree key (some (next.id, level)) next.entries (level + 1) :=
            { absent := nofun
              held := by
                rintro page level' same
                cases same
                exact ⟨le_rfl, next, rfl, rfl, nextHeld, nextOrdered⟩
              above := fun entry member =>
                after entry (List.mem_flatMap.mpr ⟨next, List.mem_cons_self, member⟩) }
          have found := ih childHolds childOrdered right' (show level + 1 + max (level + 1) level ≤ fuel
            by omega)
          rw [entriesOf_cons, List.append_assoc]
          refine (Found.append_left (fun _ => ?_) fun entry member => ?_).mp found
          · obtain ⟨first, others, isFirst⟩ := List.exists_cons_of_ne_nil nextHeld.nonempty
            rw [isFirst]
            rfl
          · rcases List.mem_append.mp member with inNext | member
            · exact right'.above entry inNext
            · rcases List.mem_append.mp member with inNext | member
              · exact right'.above entry inNext
              · rcases List.mem_append.mp member with inLater | inRest
                · exact after entry (List.mem_append_right _ inLater)
                · exact right.above entry inRest

/-- A seek from the root of a map finds its first entry at or above the key. -/
theorem Rooted.seeks {root : Nat} {map : Tree} (rooted : Rooted file tree root map.entries)
    (short : key.length ≤ maxKey) :
    Found file tree key map.entries (seek file tree root key) := by
  have fits : checkKey key = .ok () := if_neg (Nat.not_lt.mpr short)
  rw [seek, fits, raise_ok, ok_bind]
  rcases rooted with ⟨rfl, empty⟩ | ⟨level, part, rfl, holds, ordered, same⟩
  · rw [empty]
    exact ⟨none, rfl, rfl⟩
  · obtain ⟨node, loaded, ⟨isLevel, -⟩, nodeHolds⟩ := load_of_holds holds ordered none (by simp)
    have none' : Successor file tree key none [] 0 := ⟨fun _ => rfl, nofun, nofun⟩
    have enough : level + 1 + max 0 level ≤ (level + 1) * (level + 2) := by
      rw [max_eq_right (Nat.zero_le _)]
      nlinarith
    have found := seekNode_of_holds nodeHolds ordered none' enough
    rw [List.append_nil, same] at found
    simp only [if_neg holds.validRef.1, loaded, raise_ok, ok_bind, isLevel]
    exact found

end Seeking

end BlopDb.Storage.BTree
