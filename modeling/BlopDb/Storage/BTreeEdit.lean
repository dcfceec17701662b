/-
# Edits of held trees

Every write appends pages whose owned pages are fresh or were owned before.  A
node that no longer fits a page always has a position where both halves fit, so
writing never fails but for a full file.  An update of a held part by induction
on its level replaces it by parts that hold the changed entries: up to two of
its level, none for an emptied leaf, or the only child of a collapsed node,
which the parent merges into a sibling.
-/

import BlopDb.Storage.BTreeRead

namespace BlopDb.Storage.BTree

open BlopDb.Lib
open PageFile (Full ChainHolds ValueHolds nodeSize leafSize)

/-! ## Split points -/

section Splitting

variable {sizes : List Nat} {internal : Bool}

/-- A position where both sides of a split fit a page. -/
structure Splits (sizes : List Nat) (internal : Bool) (position : Nat) : Prop where
  left : (if internal then 2 else 1) ≤ position
  right : (if internal then 2 else 1) ≤ sizes.length - position
  leftFits : headerSize + (sizes.take position).sum - (if internal then sizes.getD 0 0 else 0) ≤
    pageSize
  rightFits : headerSize + sizes.sum - (sizes.take position).sum -
    (if internal then sizes.getD position 0 else 0) ≤ pageSize

/-- What the search for a split knows after the first positions. -/
structure SplitState (sizes : List Nat) (internal : Bool) (count : Nat)
    (state : Nat × Option (Nat × Nat)) : Prop where
  left : state.1 = (sizes.take count).sum
  sound : ∀ best ∈ state.2, Splits sizes internal best.1
  complete : ∀ position ≤ count, Splits sizes internal position → state.2.isSome

theorem take_succ_sum (sizes : List Nat) (count : Nat) :
    (sizes.take (count + 1)).sum = (sizes.take count).sum + sizes.getD count 0 := by
  rw [List.take_add_one, List.sum_append]
  cases found : sizes[count]? <;> simp [List.getD, found]

theorem splitStep_state {count : Nat} {state : Nat × Option (Nat × Nat)}
    (known : SplitState sizes internal count state) :
    SplitState sizes internal (count + 1) (splitStep sizes internal state (count + 1)) := by
  obtain ⟨left, sound, complete⟩ := known
  have summed : state.1 + sizes.getD (count + 1 - 1) 0 = (sizes.take (count + 1)).sum := by
    rw [left, take_succ_sum, Nat.add_sub_cancel]
  have earlier {result : Nat × Option (Nat × Nat)} (same : result.2 = state.2)
      (misses : ¬ Splits sizes internal (count + 1)) {position : Nat} (inside : position ≤ count + 1)
      (splits : Splits sizes internal position) : result.2.isSome := by
    rw [same]
    rcases Nat.lt_or_eq_of_le inside with before | rfl
    · exact complete position (Nat.lt_succ_iff.mp before) splits
    · exact absurd splits misses
  simp only [splitStep, summed]
  generalize minimum : (if internal = true then 2 else 1) = least
  generalize first : (if internal = true then sizes.getD 0 0 else 0) = dropped
  generalize next : (if internal = true then sizes.getD (count + 1) 0 else 0) = moved
  split_ifs with outside fits
  · refine ⟨rfl, sound, fun position => earlier rfl ?_⟩
    rintro ⟨left, right, -, -⟩
    rw [minimum] at left right
    omega
  · refine ⟨rfl, ?_, fun _ _ _ => rfl⟩
    intro best isBest
    cases isBest
    refine ⟨?_, ?_, ?_, ?_⟩
    · rw [minimum]
      exact Nat.not_lt.mp fun short => outside (.inl short)
    · rw [minimum]
      exact Nat.not_lt.mp fun short => outside (.inr short)
    · rw [first]
      exact fits.1
    · rw [next]
      exact fits.2.1
  · refine ⟨rfl, sound, fun position inside splits => ?_⟩
    by_contra missing
    refine missing (earlier rfl ?_ inside splits)
    rintro ⟨-, -, leftFits, rightFits⟩
    rw [first] at leftFits
    rw [next] at rightFits
    rw [Option.not_isSome_iff_eq_none] at missing
    exact fits ⟨leftFits, rightFits, by simp [show state.2 = none from missing]⟩

theorem splitFold_state (count : Nat) :
    SplitState sizes internal count
      ((List.range' 1 count).foldl (splitStep sizes internal) (0, none)) := by
  induction count with
  | zero =>
      refine ⟨rfl, by simp, ?_⟩
      intro position inside splits
      have := splits.left
      split_ifs at this <;> omega
  | succ count ih =>
      rw [List.range'_concat, List.foldl_append]
      simpa [Nat.add_comm 1 count] using splitStep_state ih

/-- A split is found when there is one. -/
theorem splitPoint_of_splits {position : Nat} (splits : Splits sizes internal position) :
    ∃ found, splitPoint sizes internal = .ok found ∧ Splits sizes internal found := by
  have known := @splitFold_state sizes internal (sizes.length - 1)
  have inside : position ≤ sizes.length - 1 := by
    have := splits.right
    split_ifs at this <;> omega
  obtain ⟨best, isBest⟩ := Option.isSome_iff_exists.mp (known.complete position inside splits)
  exact ⟨best.1, by simp [splitPoint, isBest], known.sound best isBest⟩

/-- The cells of a leaf can be split. -/
theorem exists_leaf_split (small : ∀ size ∈ sizes, size ≤ 3110)
    (overfull : pageSize < headerSize + sizes.sum)
    (bounded : headerSize + sizes.sum ≤ pageSize + 3110) :
    ∃ position, Splits sizes false position := by
  unfold pageSize headerSize at *
  obtain ⟨position, inside, within, beyond⟩ :=
    exists_prefix_sum (show 10000 < sizes.sum by omega)
  have width : sizes.getD position 0 ≤ 3110 := by
    rw [List.getD_eq_getElem?_getD, List.getElem?_eq_getElem inside, Option.getD_some]
    exact small _ (List.getElem_mem inside)
  refine ⟨position, ?_, ?_, ?_, ?_⟩
  · cases position with
    | zero => simp at beyond width; omega
    | succ position => simp
  · simp only [Bool.false_eq_true, if_false]
    omega
  · simp only [Bool.false_eq_true, if_false, pageSize, headerSize]
    omega
  · simp only [Bool.false_eq_true, if_false, pageSize, headerSize]
    omega

/-- The children of an internal node can be split with two on either side. -/
theorem exists_internal_split (small : ∀ size ∈ sizes, size ≤ 2082)
    (overfull : pageSize < headerSize + sizes.tail.sum)
    (bounded : headerSize + sizes.tail.sum ≤ pageSize + 2 * 2082) :
    ∃ position, Splits sizes true position := by
  unfold pageSize headerSize at *
  cases sizes with
  | nil => simp at overfull
  | cons first sizes =>
      rw [List.tail_cons] at overfull bounded
      obtain ⟨position, inside, within, beyond⟩ :=
        exists_prefix_sum (show 10000 < sizes.sum by omega)
      have width : sizes.getD position 0 ≤ 2082 := by
        rw [List.getD_eq_getElem?_getD, List.getElem?_eq_getElem inside, Option.getD_some]
        exact small _ (List.mem_cons_of_mem _ (List.getElem_mem inside))
      have next := take_succ_sum sizes position
      have total := List.sum_take_add_sum_drop sizes (position + 1)
      refine ⟨position + 1, ?_, ?_, ?_, ?_⟩
      · cases position with
        | zero => simp at beyond width; omega
        | succ position => simp
      · have more : 0 < (sizes.drop (position + 1)).length := by
          apply List.length_pos_of_ne_nil
          intro empty
          rw [empty] at total
          simp at total
          omega
        rw [List.length_drop] at more
        simp only [if_true, List.length_cons]
        omega
      · simp only [if_true, List.take_succ_cons, List.sum_cons, List.getD_cons_zero, pageSize,
          headerSize]
        omega
      · simp only [if_true, List.take_succ_cons, List.sum_cons, List.getD_cons_succ, pageSize,
          headerSize]
        omega

end Splitting

/-! ## Stored values -/

section Storing

variable {file : PageFile} {tree : TreeId}

/-- The most pages that a value takes. -/
def valuePages : Nat := 8225

/-- What the pages of a stored chain are. -/
structure Chained (file : PageFile) (tree : TreeId) (value : Bytes) (head : Nat) (after : PageFile)
    (owned : List Nat) : Prop where
  grows : file.Extends after
  holds : ChainHolds after tree head value owned
  distinct : owned.Nodup
  fresh : ∀ id ∈ owned, file.pageCount ≤ id
  counted : after.pageCount = file.pageCount + owned.length
  short : owned.length * payloadSize < value.length + payloadSize

/-- Appending the first chunk before a stored rest. -/
theorem Chained.cons {value : Bytes} (some' : value ≠ []) {head page : Nat}
    {middle after : PageFile} {owned : List Nat}
    (rest : Chained file tree (value.drop payloadSize) head middle owned)
    (isNext : page = middle.pageCount) (grows : middle.Extends after)
    (found : after.page? page = some (.overflow tree head (value.take payloadSize)))
    (counted : after.pageCount = middle.pageCount + 1) :
    Chained file tree value page after (page :: owned) := by
  have positive : 0 < value.length := List.length_pos_of_ne_nil some'
  have width : (value.take payloadSize).length = min payloadSize value.length := List.length_take
  have left : (value.drop payloadSize).length = value.length - payloadSize := List.length_drop
  have payload : payloadSize = 16320 := rfl
  have short := rest.short
  refine ⟨rest.grows.trans grows, ?_, ?_, ?_, ?_, ?_⟩
  · have chain := ChainHolds.cons found
      (by rw [ne_eq, ← List.length_eq_zero_iff]; omega) (by omega) (rest.holds.extend grows)
    rwa [List.take_append_drop] at chain
  · refine List.nodup_cons.mpr ⟨?_, rest.distinct⟩
    intro member
    have := (rest.holds.valid page member).2
    omega
  · intro id member
    rcases List.mem_cons.mp member with rfl | inRest
    · rw [isNext]
      exact rest.grows.pageCount_le
    · exact rest.fresh id inRest
  · rw [counted, rest.counted, List.length_cons]
    omega
  · have wide : (owned.length + 1) * payloadSize = owned.length * payloadSize + payloadSize :=
      Nat.succ_mul _ _
    rw [List.length_cons]
    rcases Nat.eq_zero_or_pos owned.length with none | more
    · rw [none, Nat.zero_add, Nat.one_mul]
      omega
    · have := Nat.le_mul_of_pos_left payloadSize more
      omega

theorem storeChain_safe (fuel : Nat) (value : Bytes) (enough : value.length ≤ fuel) :
    Safe (raise id (PageFile.storeChain tree fuel value file))
      (fun result => ∃ owned, Chained file tree value result.1 result.2 owned)
      (Full (file.pageCount + value.length / payloadSize)) := by
  have empty (value : Bytes) (none : value = []) : ∃ owned, Chained file tree value 0 file owned := by
    subst none
    exact ⟨[], .refl _, .nil, List.nodup_nil, by simp, by simp, by decide⟩
  induction fuel generalizing value with
  | zero => exact Safe.ok (empty value (List.length_eq_zero_iff.mp (by omega)))
  | succ fuel ih =>
      rw [PageFile.storeChain]
      split_ifs with none
      · exact Safe.ok (empty value none)
      · have positive : 0 < value.length := List.length_pos_of_ne_nil none
        have payload : payloadSize = 16320 := rfl
        have left : (value.drop payloadSize).length = value.length - payloadSize := List.length_drop
        rw [raise_bind]
        refine Safe.bind ((ih (value.drop payloadSize) (by omega)).mono (fun _ => id) ?_) ?_
        · intro error full
          refine full.mono (Nat.add_le_add_left (Nat.div_le_div_right ?_) _)
          omega
        · rintro ⟨head, middle⟩ ⟨owned, rest⟩
          refine (PageFile.append_safe middle _).mono ?_ ?_
          · rintro ⟨page, after⟩ ⟨isNext, grows, found, counted⟩
            exact ⟨_, rest.cons none isNext grows found counted⟩
          · intro error full
            have counted := rest.counted
            have short := rest.short
            refine full.mono ?_
            rw [counted]
            refine Nat.add_le_add_left ((Nat.le_div_iff_mul_le (by decide)).mpr ?_) _
            rw [left, payload] at short
            rw [payload]
            omega

/-- Storing a value takes only fresh pages. -/
theorem storeValue_safe {value : Bytes} (short : value.length ≤ maxValue) :
    Safe (raise id (file.storeValue tree value))
      (fun result => file.Extends result.2 ∧ result.2.pageCount ≤ file.pageCount + valuePages ∧
        ∃ owned, ValueHolds result.2 tree result.1 value owned ∧ owned.Nodup ∧
          ∀ id ∈ owned, file.pageCount ≤ id)
      (Full (file.pageCount + valuePages)) := by
  have allowed : ¬ value.length > maxValue := Nat.not_lt.mpr short
  have ceiling : maxValue = 134217728 := rfl
  have payload : payloadSize = 16320 := rfl
  have limit : inlineLimit = 1024 := rfl
  rw [PageFile.storeValue, refuse_of_not _ allowed, ok_bind]
  split_ifs with inline
  · exact Safe.ok ⟨.refl _, by simp [valuePages], [], ⟨rfl, inline, rfl⟩, by simp, by simp⟩
  · rw [raise_bind]
    refine Safe.bind ((storeChain_safe value.length value le_rfl).mono (fun _ => id) ?_) ?_
    · intro error full
      refine full.mono (Nat.add_le_add_left ?_ _)
      have : value.length / payloadSize ≤ maxValue / payloadSize := Nat.div_le_div_right short
      exact this.trans (by decide)
    · rintro ⟨head, after⟩ ⟨owned, grows, holds, distinct, fresh, counted, few⟩
      refine Safe.ok ⟨grows, ?_, owned, ⟨rfl, by omega, short, holds⟩, distinct, fresh⟩
      rw [payload] at few
      have pages : after.pageCount = file.pageCount + owned.length := counted
      simp only [valuePages]
      omega

end Storing

/-! ## Written nodes -/

/-- The part of a new leaf. -/
def leafPart (id : Nat) (cells : List HeldCell) : Part :=
  ⟨id, cells.map HeldCell.entry, id :: cells.flatMap HeldCell.owned⟩

/-- The part of a new internal node. -/
def internalPart (id : Nat) (parts : List Part) : Part :=
  ⟨id, Part.entriesOf parts, id :: Part.ownedOf parts⟩

/-- Parts in a later file that hold entries, over distinct pages that are fresh
or were owned before. -/
structure Written (file : PageFile) (tree : TreeId) (level : Nat) (old : List Nat)
    (entries : List Entry) (after : PageFile) (parts : List Part) : Prop where
  grows : file.Extends after
  holds : ∀ part ∈ parts, Holds after tree level part
  entries : Part.entriesOf parts = entries
  kept : ∀ id ∈ Part.ownedOf parts, id ∈ old ∨ file.pageCount ≤ id
  distinct : (Part.ownedOf parts).Nodup

section Writing

variable {file after : PageFile} {tree : TreeId} {level : Nat} {old : List Nat} {parts : List Part}

theorem Written.one {part : Part} (grows : file.Extends after) (holds : Holds after tree level part)
    (owned : part.owned = file.pageCount :: old) (distinct : old.Nodup)
    (below : ∀ id ∈ old, id < file.pageCount) :
    Written file tree level old part.entries after [part] := by
  refine ⟨grows, by simpa using holds, by simp [Part.entriesOf], ?_, ?_⟩
  · intro id member
    rw [Part.ownedOf, List.flatMap_singleton, owned] at member
    rcases List.mem_cons.mp member with rfl | inOld
    · exact .inr le_rfl
    · exact .inl inOld
  · rw [Part.ownedOf, List.flatMap_singleton, owned]
    exact List.nodup_cons.mpr ⟨fun member => lt_irrefl _ (below _ member), distinct⟩

theorem Written.two {first second : Part} {left right : List Nat} (grows : file.Extends after)
    (holdsFirst : Holds after tree level first) (holdsSecond : Holds after tree level second)
    (ownedFirst : first.owned = file.pageCount :: left)
    (ownedSecond : second.owned = (file.pageCount + 1) :: right) (distinct : (left ++ right).Nodup)
    (below : ∀ id ∈ left ++ right, id < file.pageCount) :
    Written file tree level (left ++ right) (first.entries ++ second.entries) after
      [first, second] := by
  have owned : Part.ownedOf [first, second] =
      (file.pageCount :: left) ++ ((file.pageCount + 1) :: right) := by
    simp [Part.ownedOf, ownedFirst, ownedSecond]
  have perm : ((file.pageCount :: left) ++ ((file.pageCount + 1) :: right)).Perm
      (file.pageCount :: (file.pageCount + 1) :: (left ++ right)) :=
    List.Perm.cons _ List.perm_middle
  refine ⟨grows, by simp [holdsFirst, holdsSecond], by simp [Part.entriesOf], ?_, ?_⟩
  · intro id member
    rw [owned, perm.mem_iff, List.mem_cons, List.mem_cons] at member
    rcases member with rfl | rfl | inOld
    · exact .inr le_rfl
    · exact .inr (Nat.le_succ _)
    · exact .inl inOld
  · rw [owned, perm.nodup_iff, List.nodup_cons, List.nodup_cons, List.mem_cons]
    refine ⟨?_, ?_, distinct⟩
    · rintro (same | member)
      · omega
      · exact lt_irrefl _ (below _ member)
    · intro member
      have := below _ member
      omega

/-- A node that fits a page is appended. -/
theorem appendNode_safe {node : Node} (shape : PageFile.checkInternal node = .ok ())
    (some' : node.slotKeys ≠ []) (fits : nodeSize node ≤ pageSize)
    (short : ∀ key ∈ node.slotKeys, key.length ≤ maxKey) :
    Safe (raise id (file.appendNode tree node))
      (fun result => result.1 = file.pageCount ∧ file.Extends result.2 ∧
        result.2.page? result.1 = some (.node tree node) ∧
        result.2.pageCount = file.pageCount + 1)
      (Full file.pageCount) := by
  have slots : ¬ (node.slotKeys.length = 0 ∨ nodeSize node > pageSize) := by
    rw [List.length_eq_zero_iff]
    rintro (none | large)
    · exact some' none
    · omega
  have keys : ¬ (node.slotKeys.any fun key => decide (key.length > maxKey)) = true := by
    simpa using short
  have encoded : PageFile.encodeNode tree node = .ok (.node tree node) := by
    simp only [PageFile.encodeNode, shape, refuse_of_not _ slots, refuse_of_not _ keys, ok_bind,
      pure_eq_ok]
  rw [PageFile.appendNode, encoded, ok_bind]
  exact PageFile.append_safe file _

/-- The cells of a leaf that fit a page. -/
structure LeafFits (file : PageFile) (tree : TreeId) (cells : List HeldCell) : Prop where
  some' : cells ≠ []
  fits : headerSize + (cells.map fun held => leafSize held.cell).sum ≤ pageSize
  short : ∀ held ∈ cells, held.cell.key.length ≤ maxKey
  holds : ∀ held ∈ cells, held.Holds file tree

/-- The part of an appended leaf. -/
theorem appendNode_leaf {cells : List HeldCell} (leaf : LeafFits file tree cells) :
    Safe (raise id (file.appendNode tree (.leaf (cells.map HeldCell.cell))))
      (fun result => result.1 = file.pageCount ∧ file.Extends result.2 ∧
        result.2.pageCount = file.pageCount + 1 ∧
        Holds result.2 tree 0 (leafPart file.pageCount cells))
      (Full file.pageCount) := by
  obtain ⟨some', fits, short, holds⟩ := leaf
  have size : nodeSize (.leaf (cells.map HeldCell.cell)) ≤ pageSize := by
    simpa [nodeSize, Function.comp_def] using fits
  refine (appendNode_safe rfl ?_ size ?_).weaken ?_
  · simpa [Node.slotKeys] using some'
  · simpa [Node.slotKeys] using short
  · rintro ⟨page, after⟩ ⟨rfl, grows, found, counted⟩
    refine ⟨rfl, grows, counted, _, found, size, cells, rfl, some', rfl, rfl, ?_⟩
    exact fun held member => (holds held member).extend grows

theorem appendLeaf_safe {cells : List HeldCell} (leaf : LeafFits file tree cells) :
    Safe (appendLeaf file tree (cells.map HeldCell.cell))
      (fun result => result.1 = (leafPart file.pageCount cells).child ∧ file.Extends result.2 ∧
        result.2.pageCount = file.pageCount + 1 ∧
        Holds result.2 tree 0 (leafPart file.pageCount cells))
      (Full file.pageCount) := by
  have first : (cells.map HeldCell.cell)[0]? = some (cells.head leaf.some').cell := by
    rw [List.getElem?_map, ← List.head?_eq_getElem?, List.head?_eq_some_head leaf.some']
    rfl
  have least : (leafPart file.pageCount cells).min = (cells.head leaf.some').cell.key := by
    rw [Part.min, leafPart, List.head?_map, List.head?_eq_some_head leaf.some']
    rfl
  rw [appendLeaf]
  refine Safe.bind_index first (Safe.bind (appendNode_leaf leaf) ?_)
  rintro ⟨page, after⟩ ⟨rfl, grows, counted, holds⟩
  exact Safe.ret ⟨(congrArg (Child.mk file.pageCount) least).symm, grows, counted, holds⟩

/-- The bytes of the separators over parts. -/
def separatorSize (parts : List Part) : Nat := (parts.tail.map fun part => 16 + part.min.length).sum

/-- The bytes of separators for all parts, the first too. -/
def fullSize (parts : List Part) : Nat := (parts.map fun part => 16 + part.min.length).sum

/-- The children of an internal node that fit a page. -/
structure InternalFits (file : PageFile) (tree : TreeId) (level : Nat) (parts : List Part) :
    Prop where
  two : 2 ≤ parts.length
  fits : headerSize + separatorSize parts ≤ pageSize
  short : ∀ part ∈ parts, part.min.length ≤ maxKey
  holds : ∀ part ∈ parts, Holds file tree level part

/-- The part of an appended internal node. -/
theorem appendNode_internal (fits : InternalFits file tree level parts) :
    Safe (raise id (file.appendNode tree (internal (level + 1) (parts.map Part.child))))
      (fun result => result.1 = file.pageCount ∧ file.Extends result.2 ∧
        result.2.pageCount = file.pageCount + 1 ∧
        Holds result.2 tree (level + 1) (internalPart file.pageCount parts))
      (Full file.pageCount) := by
  obtain ⟨two, fits, short, holds⟩ := fits
  have size : nodeSize (internal (level + 1) (parts.map Part.child)) ≤ pageSize := by
    rw [internal_child, nodeSize, List.map_map]
    exact fits
  have shape : PageFile.checkInternal (internal (level + 1) (parts.map Part.child)) = .ok () := by
    rw [internal_child]
    refine refuse_of_not _ ?_
    rintro (zero | lengths | member)
    · cases zero
    · rw [List.length_map, List.length_map, List.length_tail] at lengths
      omega
    · obtain ⟨part, inside, zero⟩ := List.mem_map.mp member
      exact (holds part inside).validRef.1 zero
  refine (appendNode_safe shape ?_ size ?_).weaken ?_
  · rw [internal_child, Node.slotKeys, ne_eq, List.map_eq_nil_iff, ← List.length_eq_zero_iff,
      List.length_tail]
    omega
  · rw [internal_child, Node.slotKeys]
    intro key member
    obtain ⟨part, inside, rfl⟩ := List.mem_map.mp member
    exact short part (List.mem_of_mem_tail inside)
  · rintro ⟨page, after⟩ ⟨rfl, grows, found, counted⟩
    refine ⟨rfl, grows, counted, _, found, size, parts, rfl, two, rfl, rfl, ?_⟩
    exact fun part member => (holds part member).extend grows

theorem appendInternal_safe (fits : InternalFits file tree level parts) :
    Safe (appendInternal file tree (level + 1) (parts.map Part.child))
      (fun result => result.1 = (internalPart file.pageCount parts).child ∧
        file.Extends result.2 ∧ result.2.pageCount = file.pageCount + 1 ∧
        Holds result.2 tree (level + 1) (internalPart file.pageCount parts))
      (Full file.pageCount) := by
  cases parts with
  | nil => exact absurd fits.two (by simp)
  | cons first parts =>
      have least : (internalPart file.pageCount (first :: parts)).min = first.min :=
        min_of_parts rfl fun child member => (fits.holds child member).nonempty
      rw [appendInternal]
      refine Safe.bind_index (show _ = some first.child from rfl)
        (Safe.bind (appendNode_internal fits) ?_)
      rintro ⟨page, after⟩ ⟨rfl, grows, counted, holds⟩
      exact Safe.ret ⟨(congrArg (Child.mk file.pageCount) least).symm, grows, counted, holds⟩

/-- The result of writing a node: one or two parts with the entries, or none for
no cells. -/
def WritesNode (file : PageFile) (tree : TreeId) (level : Nat) (old : List Nat)
    (entries : List Entry) (result : Edit × PageFile) : Prop :=
  ∃ parts : List Part, result.1 = ⟨level, parts.map Part.child⟩ ∧
    Written file tree level old entries result.2 parts ∧ parts.length ≤ 2 ∧
    result.2.pageCount ≤ file.pageCount + 2

theorem leafSize_le {held : HeldCell} (short : held.cell.key.length ≤ maxKey)
    (holds : held.Holds file tree) : leafSize held.cell ≤ 3110 := by
  have ceiling : maxKey = 2066 := rfl
  have limit : inlineLimit = 1024 := rfl
  obtain ⟨⟨key, stored⟩, bytes, owned⟩ := held
  cases stored with
  | inline value =>
      obtain ⟨rfl, inline, -⟩ := holds
      simp only [leafSize] at short inline ⊢
      omega
  | overflow length head =>
      simp only [leafSize] at short ⊢
      omega

/-- Writing the cells of a leaf that outgrew its page by at most one cell. -/
theorem writeLeaves_safe {cells : List HeldCell}
    (short : ∀ held ∈ cells, held.cell.key.length ≤ maxKey)
    (holds : ∀ held ∈ cells, held.Holds file tree)
    (distinct : (cells.flatMap HeldCell.owned).Nodup)
    (bounded : headerSize + (cells.map fun held => leafSize held.cell).sum ≤ pageSize + 3110) :
    Safe (writeLeaves file tree (cells.map HeldCell.cell))
      (WritesNode file tree 0 (cells.flatMap HeldCell.owned) (cells.map HeldCell.entry))
      (Full (file.pageCount + 1)) := by
  have below : ∀ id ∈ cells.flatMap HeldCell.owned, id < file.pageCount := by
    intro id member
    obtain ⟨held, inside, owned⟩ := List.mem_flatMap.mp member
    exact ((holds held inside).valid id owned).2
  have sizes : (cells.map HeldCell.cell).map leafSize = cells.map fun held => leafSize held.cell :=
    List.map_map
  rw [writeLeaves, sizes]
  split_ifs with empty overfull
  · obtain rfl : cells = [] := List.map_eq_nil_iff.mp empty
    refine Safe.ret ⟨[], rfl, ⟨.refl _, by simp, rfl, ?_, ?_⟩, by simp, Nat.le_add_right _ _⟩
    · simp [Part.ownedOf]
    · simp [Part.ownedOf]
  · have small : ∀ size ∈ cells.map (fun held => leafSize held.cell), size ≤ 3110 := by
      intro size member
      obtain ⟨held, inside, rfl⟩ := List.mem_map.mp member
      exact leafSize_le (short held inside) (holds held inside)
    obtain ⟨position, splits⟩ := exists_leaf_split small overfull bounded
    obtain ⟨split, found, left, right, leftFits, rightFits⟩ := splitPoint_of_splits splits
    have total := List.sum_take_add_sum_drop (cells.map fun held => leafSize held.cell) split
    simp only [Bool.false_eq_true, if_false, List.length_map] at left right
    simp only [Bool.false_eq_true, if_false, Nat.sub_zero] at leftFits rightFits
    have takes : LeafFits file tree (cells.take split) := by
      refine ⟨?_, ?_, ?_, ?_⟩
      · rw [ne_eq, ← List.length_eq_zero_iff, List.length_take]
        omega
      · rw [List.map_take]
        exact leftFits
      · exact fun held member => short held (List.mem_of_mem_take member)
      · exact fun held member => holds held (List.mem_of_mem_take member)
    rw [found, raise_ok, ok_bind, ← List.map_take, ← List.map_drop]
    refine Safe.bind ((appendLeaf_safe takes).mono (fun _ => id) fun _ => Full.mono (by omega)) ?_
    rintro ⟨first, middle⟩ ⟨rfl, grows, counted, holdsFirst⟩
    have drops : LeafFits middle tree (cells.drop split) := by
      refine ⟨?_, ?_, ?_, ?_⟩
      · rw [ne_eq, ← List.length_eq_zero_iff, List.length_drop]
        omega
      · rw [List.map_drop]
        omega
      · exact fun held member => short held (List.mem_of_mem_drop member)
      · exact fun held member => (holds held (List.mem_of_mem_drop member)).extend grows
    have counted : middle.pageCount = file.pageCount + 1 := counted
    refine Safe.bind ((appendLeaf_safe drops).mono (fun _ => id) fun _ => Full.mono (by omega)) ?_
    rintro ⟨second, after⟩ ⟨rfl, grows', counted', holdsSecond⟩
    have counted' : after.pageCount = middle.pageCount + 1 := counted'
    refine Safe.ret ⟨[leafPart file.pageCount (cells.take split),
      leafPart middle.pageCount (cells.drop split)], rfl, ?_, le_rfl, ?_⟩
    · rw [← List.take_append_drop split cells, List.flatMap_append] at distinct below
      have written := Written.two (grows.trans grows') (holdsFirst.extend grows') holdsSecond rfl
        (by rw [← counted]; rfl) distinct below
      rwa [← List.flatMap_append, leafPart, leafPart, ← List.map_append, List.take_append_drop] at written
    · simp only
      omega
  · have fits : LeafFits file tree cells :=
      ⟨by rintro rfl; exact empty rfl, Nat.not_lt.mp overfull, short, holds⟩
    refine Safe.bind ((appendLeaf_safe fits).mono (fun _ => id) fun _ => Full.mono (by omega)) ?_
    rintro ⟨child, after⟩ ⟨rfl, grows, counted, holdsChild⟩
    have counted : after.pageCount = file.pageCount + 1 := counted
    refine Safe.ret ⟨[leafPart file.pageCount cells], rfl, ?_, by simp, by simp only; omega⟩
    exact Written.one grows holdsChild rfl distinct below

/-- The first child has no separator. -/
theorem separatorSize_add (parts : List Part) :
    separatorSize parts + (parts.map fun part => 16 + part.min.length).getD 0 0 =
      (parts.map fun part => 16 + part.min.length).sum := by
  cases parts with
  | nil => rfl
  | cons first parts =>
      rw [separatorSize, List.tail_cons, List.map_cons, List.getD_cons_zero, List.sum_cons]
      exact Nat.add_comm _ _

/-- Writing the children of a node that outgrew its page by at most two
separators. -/
theorem writeInternal_safe (two : 2 ≤ parts.length)
    (short : ∀ part ∈ parts, part.min.length ≤ maxKey)
    (holds : ∀ part ∈ parts, Holds file tree level part) (distinct : (Part.ownedOf parts).Nodup)
    (bounded : headerSize + separatorSize parts ≤ pageSize + 2 * 2082) :
    Safe (writeInternal file tree (level + 1) (parts.map Part.child))
      (WritesNode file tree (level + 1) (Part.ownedOf parts) (Part.entriesOf parts))
      (Full (file.pageCount + 1)) := by
  have below : ∀ id ∈ Part.ownedOf parts, id < file.pageCount := by
    intro id member
    obtain ⟨part, inside, owned⟩ := List.mem_flatMap.mp member
    exact ((holds part inside).valid id owned).2
  have sizes : (parts.map Part.child).map (fun child => 16 + child.min.length) =
      parts.map fun part => 16 + part.min.length := List.map_map
  have tail : (parts.map fun part => 16 + part.min.length).tail.sum = separatorSize parts := by
    rw [separatorSize, List.map_tail]
  rw [writeInternal, sizes, tail]
  split_ifs with overfull
  · have small : ∀ size ∈ parts.map (fun part => 16 + part.min.length), size ≤ 2082 := by
      intro size member
      obtain ⟨part, inside, rfl⟩ := List.mem_map.mp member
      have ceiling : maxKey = 2066 := rfl
      have := short part inside
      omega
    obtain ⟨position, splits⟩ :=
      exists_internal_split small (by rw [tail]; exact overfull) (by rw [tail]; exact bounded)
    obtain ⟨split, found, left, right, leftFits, rightFits⟩ := splitPoint_of_splits splits
    have total := List.sum_take_add_sum_drop (parts.map fun part => 16 + part.min.length) split
    have leftSize := separatorSize_add (parts.take split)
    have rightSize := separatorSize_add (parts.drop split)
    simp only [if_true, List.length_map] at left right leftFits rightFits
    rw [List.map_take] at leftSize
    rw [List.map_drop] at rightSize
    have firstSize : ((parts.map fun part => 16 + part.min.length).take split).getD 0 0 =
        (parts.map fun part => 16 + part.min.length).getD 0 0 := by
      rw [List.getD_eq_getElem?_getD, List.getElem?_take_of_lt (by omega),
        ← List.getD_eq_getElem?_getD]
    have nextSize : ((parts.map fun part => 16 + part.min.length).drop split).getD 0 0 =
        (parts.map fun part => 16 + part.min.length).getD split 0 := by
      rw [List.getD_eq_getElem?_getD, List.getElem?_drop, Nat.add_zero,
        ← List.getD_eq_getElem?_getD]
    have takes : InternalFits file tree level (parts.take split) := by
      refine ⟨?_, ?_, ?_, ?_⟩
      · rw [List.length_take]
        omega
      · omega
      · exact fun part member => short part (List.mem_of_mem_take member)
      · exact fun part member => holds part (List.mem_of_mem_take member)
    rw [found, raise_ok, ok_bind, ← List.map_take, ← List.map_drop]
    refine Safe.bind ((appendInternal_safe takes).mono (fun _ => id) fun _ => Full.mono (by omega)) ?_
    rintro ⟨first, middle⟩ ⟨rfl, grows, counted, holdsFirst⟩
    have drops : InternalFits middle tree level (parts.drop split) := by
      refine ⟨?_, ?_, ?_, ?_⟩
      · rw [List.length_drop]
        omega
      · omega
      · exact fun part member => short part (List.mem_of_mem_drop member)
      · exact fun part member => (holds part (List.mem_of_mem_drop member)).extend grows
    have counted : middle.pageCount = file.pageCount + 1 := counted
    refine Safe.bind ((appendInternal_safe drops).mono (fun _ => id) fun _ => Full.mono (by omega)) ?_
    rintro ⟨second, after⟩ ⟨rfl, grows', counted', holdsSecond⟩
    have counted' : after.pageCount = middle.pageCount + 1 := counted'
    refine Safe.ret ⟨[internalPart file.pageCount (parts.take split),
      internalPart middle.pageCount (parts.drop split)], rfl, ?_, le_rfl, ?_⟩
    · have owned : Part.ownedOf parts =
          Part.ownedOf (parts.take split) ++ Part.ownedOf (parts.drop split) := by
        rw [Part.ownedOf, Part.ownedOf, Part.ownedOf, ← List.flatMap_append, List.take_append_drop]
      have entries : Part.entriesOf parts =
          Part.entriesOf (parts.take split) ++ Part.entriesOf (parts.drop split) := by
        rw [← entriesOf_append, List.take_append_drop]
      rw [owned] at distinct below ⊢
      rw [entries]
      exact Written.two (grows.trans grows') (holdsFirst.extend grows') holdsSecond rfl
        (by rw [← counted]; rfl) distinct below
    · simp only
      omega
  · have fits : InternalFits file tree level parts := ⟨two, Nat.not_lt.mp overfull, short, holds⟩
    refine Safe.bind ((appendInternal_safe fits).mono (fun _ => id) fun _ => Full.mono (by omega)) ?_
    rintro ⟨child, after⟩ ⟨rfl, grows, counted, holdsChild⟩
    have counted : after.pageCount = file.pageCount + 1 := counted
    refine Safe.ret ⟨[internalPart file.pageCount parts], rfl, ?_, by simp, by simp only; omega⟩
    exact Written.one grows holdsChild rfl distinct below

end Writing

end BlopDb.Storage.BTree
