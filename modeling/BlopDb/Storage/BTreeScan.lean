/-
# Scans of held trees

A scan owes the cells of its leaf that it has not returned, and then the entries
of the children that its ancestors have not visited, nearest ancestor first.
Each step pays the first owed entry or stops at the upper bound, so a scan of a
held tree yields exactly the entries of the range, in key order, without a
failure.
-/

import BlopDb.Storage.BTreeRead

namespace BlopDb.Storage.BTree

open BlopDb.Lib

/-! ## Bounds -/

section Bounds

theorem beforeLower_eq (lower : Bound Bytes) (key : Bytes) :
    beforeLower lower key = !lower.above key := by
  cases lower with
  | unbounded => rfl
  | included bound => simp [beforeLower, Bound.above, ← decide_not]
  | excluded bound => simp [beforeLower, Bound.above, ← decide_not]

theorem beyondUpper_eq (upper : Bound Bytes) (key : Bytes) :
    beyondUpper upper key = !upper.below key := by
  cases upper with
  | unbounded => rfl
  | included bound => simp [beyondUpper, Bound.below, ← decide_not]
  | excluded bound => simp [beyondUpper, Bound.below, ← decide_not]

theorem above_of_lt {lower : Bound Bytes} {key later : Bytes} (less : key < later)
    (above : lower.above key = true) : lower.above later = true := by
  cases lower with
  | unbounded => rfl
  | included bound =>
      simp only [Bound.above, decide_eq_true_eq] at above ⊢
      exact above.trans less.le
  | excluded bound =>
      simp only [Bound.above, decide_eq_true_eq] at above ⊢
      exact above.trans less

theorem below_of_lt {upper : Bound Bytes} {key later : Bytes} (less : key < later)
    (below : upper.below later = true) : upper.below key = true := by
  cases upper with
  | unbounded => rfl
  | included bound =>
      simp only [Bound.below, decide_eq_true_eq] at below ⊢
      exact less.le.trans below
  | excluded bound =>
      simp only [Bound.below, decide_eq_true_eq] at below ⊢
      exact less.trans below

/-- No key lies in an empty range. -/
theorem not_between_of_emptyRange {lower upper : Bound Bytes}
    (empty : emptyRange lower upper = true) (key : Bytes) :
    (lower.above key && upper.below key) = false := by
  rw [Bool.and_eq_false_iff, or_iff_not_imp_left]
  intro above
  simp only [Bool.not_eq_false] at above
  cases lower <;> cases upper <;>
    simp only [emptyRange, Bound.above, Bound.below, decide_eq_true_eq, decide_eq_false_iff_not,
      not_lt, not_le, Bool.false_eq_true] at empty above ⊢
  · exact lt_of_lt_of_le empty above
  · exact empty.trans above
  · exact lt_of_le_of_lt empty above
  · exact (lt_of_le_of_lt empty above).le

/-- The entries at or after a lower bound. -/
def fromLower (lower : Bound Bytes) (entries : List Entry) : List Entry :=
  entries.filter fun entry => lower.above entry.1

theorem fromLower_unbounded (entries : List Entry) : fromLower .unbounded entries = entries := by
  simp [fromLower, Bound.above]

end Bounds

/-! ## Owed entries -/

/-- The children that an ancestor has not visited. -/
def FrameHolds (file : PageFile) (tree : TreeId) (frame : Frame) (rest : List Part) : Prop :=
  ∃ (level : Nat) (parts : List Part), frame.node = internal (level + 1) (parts.map Part.child) ∧
    frame.next ≤ parts.length ∧ rest = parts.drop frame.next ∧
    ∀ child ∈ rest, Holds file tree level child ∧ Ordered child.entries child.owned

/-- The entries that a scan owes. -/
structure Owes (scan : Scan) (todo : List Entry) : Prop where
  increasing : Increasing todo
  later : ∀ key ∈ scan.last, ∀ entry ∈ todo, key < entry.1
  sources : ∃ (cells : List HeldCell) (rests : List (List Part)),
    scan.leaf.drop scan.next = cells.map HeldCell.cell ∧
    (∀ cell ∈ cells, cell.Holds scan.reader scan.tree ∧ cell.owned.Nodup) ∧
    List.Forall₂ (FrameHolds scan.reader scan.tree) scan.stack rests ∧
    todo = cells.map HeldCell.entry ++ rests.flatMap Part.entriesOf

section Descent

variable {lower : Bound Bytes} {level : Nat} {node : Node} {part : Part} {scan : Scan}

/-- The first child of a range: everything before it is below the bound, and
everything after it is not. -/
theorem startChild_split {parts : List Part} (some' : parts ≠ [])
    (increasing : Increasing (Part.entriesOf parts))
    (nonempty : ∀ part ∈ parts, part.entries ≠ []) (lower : Bound Bytes) :
    ∃ left part right, parts = left ++ part :: right ∧
      startChild lower (parts.tail.map Part.min) = left.length ∧
      fromLower lower (Part.entriesOf parts) =
        fromLower lower part.entries ++ Part.entriesOf right := by
  have split {key : Bytes} (route' : startChild lower (parts.tail.map Part.min) =
      route (parts.tail.map Part.min) key)
      (before : ∀ other, other < key → lower.above other = false)
      (after : ∀ other, key < other → lower.above other = true) :
      ∃ left part right, parts = left ++ part :: right ∧
        startChild lower (parts.tail.map Part.min) = left.length ∧
        fromLower lower (Part.entriesOf parts) =
          fromLower lower part.entries ++ Part.entriesOf right := by
    obtain ⟨left, part, right, same, routed, less, greater⟩ :=
      route_split some' increasing nonempty key
    refine ⟨left, part, right, same, route'.trans routed, ?_⟩
    have none : (Part.entriesOf left).filter (fun entry => lower.above entry.1) = [] :=
      List.filter_eq_nil_iff.mpr fun entry member => by simp [before _ (less entry member)]
    have all : (Part.entriesOf right).filter (fun entry => lower.above entry.1) =
        Part.entriesOf right :=
      List.filter_eq_self.mpr fun entry member => after _ (greater entry member)
    rw [same, entriesOf_append, entriesOf_cons, fromLower, List.filter_append, none,
      List.nil_append, List.filter_append, all]
    rfl
  cases lower with
  | unbounded =>
      cases parts with
      | nil => exact absurd rfl some'
      | cons first parts =>
          exact ⟨[], first, parts, rfl, rfl, by simp [fromLower_unbounded, entriesOf_cons]⟩
  | included key =>
      exact split rfl (fun other less => by simpa [Bound.above] using less)
        (fun other less => by simpa [Bound.above] using less.le)
  | excluded key =>
      exact split rfl (fun other less => by simpa [Bound.above] using less.le)
        (fun other less => by simpa [Bound.above] using less)

/-- Going down to the start of a range adds the entries of the node from there
on to what the scan owes. -/
theorem descendNode_of_holds (holds : NodeHolds scan.reader scan.tree level node part)
    (ordered : Ordered part.entries part.owned) {rests : List (List Part)}
    (frames : List.Forall₂ (FrameHolds scan.reader scan.tree) scan.stack rests)
    (increasing : Increasing (fromLower lower part.entries ++ rests.flatMap Part.entriesOf))
    (later : ∀ key ∈ scan.last, ∀ entry ∈ fromLower lower part.entries ++
      rests.flatMap Part.entriesOf, key < entry.1) :
    ∃ after, descendNode lower level node scan = .ok after ∧
      Owes after (fromLower lower part.entries ++ rests.flatMap Part.entriesOf) ∧
      after.upper = scan.upper ∧ after.done = scan.done ∧ after.leaf ≠ [] ∧
      (lower = .unbounded → after.next = 0) := by
  induction level generalizing node part scan rests with
  | zero =>
      obtain ⟨cells, rfl, nonempty, entries, owned, each⟩ := holds
      have sorted := ordered.increasing
      rw [entries, Increasing, List.pairwise_map] at sorted
      obtain ⟨left, right, rfl, length, before, after⟩ := exists_partition sorted
        (show ∀ a ∈ cells, ∀ b ∈ cells, a.entry.1 < b.entry.1 →
          beforeLower lower b.cell.key = true → beforeLower lower a.cell.key = true by
          intro a _ b _ less holds
          rw [beforeLower_eq, Bool.not_eq_true'] at holds ⊢
          by_contra above
          rw [Bool.not_eq_false] at above
          rw [show lower.above b.cell.key = true from above_of_lt less above] at holds
          cases holds)
      have position : partitionPoint ((left ++ right).map HeldCell.cell)
          (fun cell => beforeLower lower cell.key) = left.length := by
        rw [length, partitionPoint, partitionPoint, List.takeWhile_map, List.length_map]
        rfl
      have kept : fromLower lower part.entries = right.map HeldCell.entry := by
        rw [entries, fromLower, List.map_append, List.filter_append,
          List.filter_eq_nil_iff.mpr, List.filter_eq_self.mpr, List.nil_append]
        · intro entry member
          obtain ⟨cell, inside, rfl⟩ := List.mem_map.mp member
          simpa [beforeLower_eq, HeldCell.entry] using after cell inside
        · intro entry member
          obtain ⟨cell, inside, rfl⟩ := List.mem_map.mp member
          simpa [beforeLower_eq, HeldCell.entry] using before cell inside
      have distinct : ∀ cell ∈ left ++ right, cell.owned.Nodup := by
        have all := ordered.distinct
        rw [owned, List.nodup_cons, List.nodup_flatMap] at all
        exact all.2.1
      refine ⟨_, rfl, ⟨increasing, later, right, rests, ?_, ?_, frames, ?_⟩, rfl, rfl, ?_, ?_⟩
      · rw [position, List.map_append]
        exact List.drop_left' (by simp)
      · intro cell member
        have inside := List.mem_append_right left member
        exact ⟨each cell inside, distinct cell inside⟩
      · rw [kept]
      · simpa using nonempty
      · rintro rfl
        rw [position]
        cases left with
        | nil => rfl
        | cons first left => cases before first List.mem_cons_self
  | succ level ih =>
      obtain ⟨parts, rfl, two, entries, owned, each⟩ := NodeHolds.children holds ordered
      have sorted := ordered.increasing
      rw [entries] at sorted
      obtain ⟨left, child, right, rfl, started, kept⟩ :=
        startChild_split (by rintro rfl; simp at two) sorted
          (fun child member => (each child member).1.nonempty) lower
      obtain ⟨held, childOrdered⟩ := each child (by simp)
      obtain ⟨below, loaded, -, holds⟩ :=
        load_of_holds held childOrdered (some level) (by simp)
      have cell : (index ((left ++ child :: right).map Part.id) left.length :
          Except (Fault Error) Nat) = .ok child.id := index_eq_ok.mpr (by simp)
      have frame : FrameHolds scan.reader scan.tree
          ⟨.internal (level + 1) ((left ++ child :: right).tail.map Part.min)
            ((left ++ child :: right).map Part.id), left.length + 1⟩ right := by
        refine ⟨level, left ++ child :: right, (internal_child _ _).symm, by simp, ?_, ?_⟩
        · rw [List.append_cons]
          exact (List.drop_left' (by simp)).symm
        · intro other member
          exact each other (by simp [member])
      rw [entries, kept, List.append_assoc] at increasing later ⊢
      obtain ⟨after, descended, owes, upper, done, leaf, next⟩ :=
        @ih _ _ { scan with stack := ⟨.internal (level + 1)
          ((left ++ child :: right).tail.map Part.min)
          ((left ++ child :: right).map Part.id), left.length + 1⟩ :: scan.stack }
          holds childOrdered (right :: rests) (.cons frame frames) increasing later
      refine ⟨after, ?_, owes, upper, done, leaf, next⟩
      simp only [descendNode, started, cell, ok_bind, Nat.add_sub_cancel, loaded, raise_ok,
        descended]

/-- Going down to the first leaf below a held part. -/
theorem descend_of_holds (holds : Holds scan.reader scan.tree level part)
    (ordered : Ordered part.entries part.owned) {expected : Option Nat}
    (same : ∀ other ∈ expected, other = level) {rests : List (List Part)}
    (frames : List.Forall₂ (FrameHolds scan.reader scan.tree) scan.stack rests)
    (increasing : Increasing (fromLower lower part.entries ++ rests.flatMap Part.entriesOf))
    (later : ∀ key ∈ scan.last, ∀ entry ∈ fromLower lower part.entries ++
      rests.flatMap Part.entriesOf, key < entry.1) :
    ∃ after, descend scan part.id expected lower = .ok after ∧
      Owes after (fromLower lower part.entries ++ rests.flatMap Part.entriesOf) ∧
      after.upper = scan.upper ∧ after.done = scan.done ∧ after.leaf ≠ [] ∧
      (lower = .unbounded → after.next = 0) := by
  obtain ⟨node, loaded, ⟨isLevel, -⟩, holds⟩ := load_of_holds holds ordered expected same
  obtain ⟨after, descended, rest⟩ := descendNode_of_holds holds ordered frames increasing later
  refine ⟨after, ?_, rest⟩
  simp only [descend, loaded, raise_ok, ok_bind, isLevel, descended]

end Descent

/-! ## Steps and runs -/

section Steps

variable {scan : Scan} {todo : List Entry}

/-- What one search for the next entry does with the owed entries. -/
def Pays (scan : Scan) (todo : List Entry) (result : Except (Fault Error) (Option Entry × Scan)) :
    Prop :=
  match todo with
  | [] => ∃ after, result = .ok (none, after)
  | entry :: rest =>
      if beyondUpper scan.upper entry.1 then ∃ after, result = .ok (none, after)
      else ∃ after, result = .ok (some entry, after) ∧ Owes after rest ∧
        after.upper = scan.upper ∧ after.done = scan.done

theorem Pays.congr {other : Scan} {result : Except (Fault Error) (Option Entry × Scan)}
    (pays : Pays scan todo result) (upper : scan.upper = other.upper)
    (done : scan.done = other.done) : Pays other todo result := by
  unfold Pays at pays ⊢
  rw [← upper, ← done]
  exact pays

/-- A cell of the leaf is returned at once. -/
theorem advance_cell (owes : Owes scan todo) {cell : LeafCell}
    (found : scan.leaf[scan.next]? = some cell) (fuel : Nat) :
    Pays scan todo (advance (fuel + 1) scan) := by
  obtain ⟨increasing, later, cells, rests, leaf, each, frames, rfl⟩ := owes
  obtain ⟨inside, same⟩ := List.getElem?_eq_some_iff.mp found
  rw [List.drop_eq_getElem_cons inside, same] at leaf
  cases cells with
  | nil => cases leaf
  | cons held cells =>
      obtain ⟨rfl, rest⟩ := List.cons.inj leaf
      rw [List.map_cons, List.cons_append] at increasing later ⊢
      by_cases beyond : beyondUpper scan.upper held.cell.key = true
      · simp only [Pays, advance, found, HeldCell.entry, beyond, if_true]
        exact ⟨_, rfl⟩
      · have ordered : ¬ PageFile.unordered scan.last held.cell.key = true := by
          simp only [PageFile.unordered, Option.any_eq_true, decide_eq_true_eq, ge_iff_le,
            not_exists, not_and, not_le]
          exact fun key isLast => later key isLast _ List.mem_cons_self
        obtain ⟨holds, distinct⟩ := each held List.mem_cons_self
        simp only [Pays, HeldCell.entry, beyond, Bool.false_eq_true, if_false]
        refine ⟨{ scan with next := scan.next + 1, last := some held.cell.key }, ?_,
          ⟨(List.pairwise_cons.mp increasing).2, ?_, cells, rests, rest, ?_, frames, rfl⟩, rfl, rfl⟩
        · simp only [advance, found, beyond, Bool.false_eq_true, if_false,
            refuse_of_not _ ordered, raise_ok, ok_bind, holds.read distinct, pure_eq_ok]
        · intro key isLast entry member
          cases isLast
          exact (List.pairwise_cons.mp increasing).1 entry member
        · exact fun cell member => each cell (List.mem_cons_of_mem _ member)

/-- An exhausted leaf leaves what the ancestors owe. -/
theorem Owes.frames (owes : Owes scan todo) (found : scan.leaf[scan.next]? = none) :
    ∃ rests, List.Forall₂ (FrameHolds scan.reader scan.tree) scan.stack rests ∧
      todo = rests.flatMap Part.entriesOf := by
  obtain ⟨-, -, cells, rests, leaf, -, frames, rfl⟩ := owes
  rw [List.drop_eq_nil_of_le (List.getElem?_eq_none_iff.mp found)] at leaf
  obtain rfl : cells = [] := List.map_eq_nil_iff.mp leaf.symm
  exact ⟨rests, frames, by simp⟩

/-- Leaving an ancestor whose children are all visited. -/
theorem Owes.pop (owes : Owes scan todo) (found : scan.leaf[scan.next]? = none)
    {stack : List Frame} {rests : List (List Part)}
    (frames : List.Forall₂ (FrameHolds scan.reader scan.tree) stack rests)
    (same : todo = rests.flatMap Part.entriesOf) : Owes { scan with stack } todo :=
  ⟨owes.increasing, owes.later, [], rests,
    List.drop_eq_nil_of_le (List.getElem?_eq_none_iff.mp found), by simp, frames, by simp [same]⟩

theorem advance_pop {level : Nat} {keys : List Bytes} {children : List Nat} {ancestors : List Frame}
    (found : scan.leaf[scan.next]? = none)
    (stack : scan.stack = ⟨.internal level keys children, children.length⟩ :: ancestors)
    (fuel : Nat) : advance (fuel + 1) scan = advance fuel { scan with stack := ancestors } := by
  simp [advance, found, stack]

theorem advance_visit {level next child : Nat} {keys : List Bytes} {children : List Nat}
    {ancestors : List Frame} (found : scan.leaf[scan.next]? = none)
    (stack : scan.stack = ⟨.internal level keys children, next⟩ :: ancestors)
    (isChild : children[next]? = some child) (fuel : Nat) :
    advance (fuel + 1) scan = descend { scan with stack :=
        ⟨.internal level keys children, next + 1⟩ :: ancestors } child (some (level - 1)) .unbounded >>=
      advance fuel := by
  have inside : next ≠ children.length := by
    have := (List.getElem?_eq_some_iff.mp isChild).1
    omega
  simp only [advance, found, stack, inside, if_false, index, isChild, ok_bind]

/-- With fuel for every ancestor the next owed entry is found. -/
theorem advance_pays (owes : Owes scan todo) {fuel : Nat} (enough : scan.stack.length + 2 ≤ fuel) :
    Pays scan todo (advance fuel scan) := by
  induction fuel generalizing scan with
  | zero => omega
  | succ fuel ih =>
      cases found : scan.leaf[scan.next]? with
      | some cell => exact advance_cell owes found fuel
      | none =>
          obtain ⟨rests, frames, same⟩ := owes.frames found
          cases stack : scan.stack with
          | nil =>
              rw [stack] at frames
              cases frames
              subst same
              exact ⟨scan, by simp [advance, found, stack]⟩
          | cons frame ancestors =>
              rw [stack] at frames enough
              rw [List.length_cons] at enough
              obtain _ | @⟨_, _, _, rests, ⟨level, parts, node, inside, rfl, below⟩, frames⟩ := frames
              obtain ⟨frameNode, next⟩ := frame
              obtain rfl : frameNode = _ := node.trans (internal_child _ _)
              by_cases visited : next = parts.length
              · have remains : todo = rests.flatMap Part.entriesOf := by
                  rw [same, List.flatMap_cons, List.drop_eq_nil_of_le visited.ge]
                  rfl
                rw [advance_pop found (by rw [stack, visited, List.length_map])]
                exact ih (owes.pop found frames remains) (by simp only; omega)
              · have bound : next < parts.length := lt_of_le_of_ne inside visited
                have more : parts.drop next = parts[next] :: parts.drop (next + 1) :=
                  List.drop_eq_getElem_cons bound
                obtain ⟨held, ordered⟩ := below parts[next] (more ▸ List.mem_cons_self)
                have visiting : FrameHolds scan.reader scan.tree
                    ⟨.internal (level + 1) (parts.tail.map Part.min) (parts.map Part.id), next + 1⟩
                    (parts.drop (next + 1)) :=
                  ⟨level, parts, node, bound, rfl, fun child member =>
                    below child (more ▸ List.mem_cons_of_mem _ member)⟩
                have remains : todo = fromLower .unbounded parts[next].entries ++
                    (parts.drop (next + 1) :: rests).flatMap Part.entriesOf := by
                  rw [same, List.flatMap_cons, more, fromLower_unbounded, entriesOf_cons,
                    List.append_assoc, ← List.flatMap_cons]
                obtain ⟨after, descended, owes', upper, done, leaf, start⟩ :=
                  @descend_of_holds .unbounded level parts[next] { scan with stack :=
                    ⟨.internal (level + 1) (parts.tail.map Part.min) (parts.map Part.id), next + 1⟩ ::
                      ancestors } held ordered (some level) (by simp) _
                      (.cons visiting frames) (remains ▸ owes.increasing) (remains ▸ owes.later)
                have isChild : (parts.map Part.id)[next]? = some parts[next].id := by simp [bound]
                have first : after.leaf[after.next]? = some (after.leaf.head leaf) := by
                  rw [start rfl, ← List.head?_eq_getElem?, List.head?_eq_some_head leaf]
                obtain ⟨fuel, rfl⟩ : ∃ less, fuel = less + 1 := ⟨fuel - 1, by omega⟩
                rw [advance_visit found stack isChild, Nat.add_sub_cancel, descended, ok_bind]
                exact (advance_cell (remains ▸ owes') first fuel).congr upper done

/-- The entries a scan returns: those owed before the upper bound. -/
theorem yields_of_owes (owes : Owes scan todo) (active : scan.done = false) :
    scan.Yields ((todo.filter fun entry => scan.upper.below entry.1).map .ok) := by
  induction todo generalizing scan with
  | nil =>
      obtain ⟨after, advanced⟩ : ∃ after, _ = _ := advance_pays owes le_rfl
      exact .stop (show scan.step = (none, { after with done := true }) by
        simp [Scan.step, active, advanced])
  | cons entry rest ih =>
      have pays := advance_pays owes le_rfl
      simp only [Pays, beyondUpper_eq] at pays
      cases inside : scan.upper.below entry.1 with
      | false =>
          obtain ⟨after, advanced⟩ : ∃ after, _ = _ := by simpa [inside] using pays
          have none : (entry :: rest).filter (fun entry => scan.upper.below entry.1) = [] := by
            apply List.filter_eq_nil_iff.mpr
            intro other member below
            rcases List.mem_cons.mp member with rfl | later
            · rw [inside] at below
              cases below
            · have less := (List.pairwise_cons.mp owes.increasing).1 other later
              rw [below_of_lt less below] at inside
              cases inside
          rw [none]
          exact .stop (show scan.step = (Option.none, { after with done := true }) by
            simp [Scan.step, active, advanced])
      | true =>
          obtain ⟨after, advanced, owes', upper, done⟩ : ∃ after, _ ∧ _ := by
            simpa [inside] using pays
          rw [List.filter_cons_of_pos (by simpa using inside), List.map_cons, ← upper]
          exact .item (show scan.step = (some (.ok entry), after) by
            simp [Scan.step, active, advanced]) (ih owes' (done.trans active))

/-- A scan of a held tree yields the entries of its range. -/
theorem scan_of_holds {file : PageFile} {tree : TreeId} {level : Nat} {part : Part}
    (holds : Holds file tree level part) (ordered : Ordered part.entries part.owned)
    {lower upper : Bound Bytes} (lowerShort : checkBound checkKey lower = .ok ())
    (upperShort : checkBound checkKey upper = .ok ()) :
    ∃ start, BTree.scan file tree part.id lower upper = .ok start ∧
      start.Yields ((part.entries.filter fun entry =>
        lower.above entry.1 && upper.below entry.1).map .ok) := by
  have positive : part.id ≠ 0 := holds.validRef.1
  by_cases empty : emptyRange lower upper = true
  · refine ⟨_, by simp [BTree.scan, lowerShort, upperShort, positive, empty]; rfl, ?_⟩
    have none : part.entries.filter (fun entry => lower.above entry.1 && upper.below entry.1) = [] :=
      List.filter_eq_nil_iff.mpr fun entry _ => by
        simp [not_between_of_emptyRange empty entry.1]
    rw [none]
    exact .stop rfl
  · have increasing : Increasing (fromLower lower part.entries) :=
      List.Pairwise.filter _ ordered.increasing
    obtain ⟨after, descended, owes, isUpper, active, -⟩ :=
      @descend_of_holds lower level part ⟨file, tree, [], [], 0, upper, none, false⟩ holds ordered
        none (by simp) [] .nil (by simpa using increasing) (by simp)
    refine ⟨after, ?_, ?_⟩
    · simp [BTree.scan, lowerShort, upperShort, positive, empty, descended]
    · have yields := yields_of_owes owes active
      simpa [fromLower, isUpper, List.filter_filter, Bool.and_comm] using yields

end Steps

end BlopDb.Storage.BTree
