/-
# Updates of held trees

An update of a held part changes its entries as the map changes.  The proof is an
induction on the level: the child on the route is replaced, a collapsed child is
merged into a sibling, and the children that result are written as one or two
nodes again.
-/

import BlopDb.Storage.BTreeEdit

namespace BlopDb.Storage.BTree

open BlopDb.Lib
open PageFile (Full ValueHolds nodeSize leafSize)

/-! ## Composing writes -/

section Composing

variable {file middle after : PageFile} {tree : TreeId} {level : Nat} {old : List Nat}
variable {entries : List Entry} {parts : List Part}

theorem Written.mono {old' : List Nat} (written : Written file tree level old entries after parts)
    (subset : ∀ id ∈ old, id ∈ old') : Written file tree level old' entries after parts :=
  ⟨written.grows, written.holds, written.entries,
    fun page member => (written.kept page member).imp_left (subset page), written.distinct⟩

/-- Writing nodes over written parts. -/
theorem Written.trans {above : Nat} {upper : List Part}
    (first : Written file tree level old entries middle parts)
    (second : Written middle tree above (Part.ownedOf parts) (Part.entriesOf parts) after upper) :
    Written file tree above old entries after upper := by
  refine ⟨first.grows.trans second.grows, second.holds, second.entries.trans first.entries, ?_,
    second.distinct⟩
  intro id member
  rcases second.kept id member with inParts | fresh
  · exact first.kept id inParts
  · exact .inr (first.grows.pageCount_le.trans fresh)

/-- Parts on either side of written parts stay as they are. -/
theorem Written.frame {left right : List Part}
    (written : Written file tree level old entries after parts)
    (holds : ∀ part ∈ left ++ right, Holds file tree level part)
    (distinct : (Part.ownedOf left ++ old ++ Part.ownedOf right).Nodup) :
    Written file tree level (Part.ownedOf left ++ old ++ Part.ownedOf right)
      (Part.entriesOf left ++ entries ++ Part.entriesOf right) after (left ++ parts ++ right) := by
  have owned : Part.ownedOf (left ++ parts ++ right) =
      Part.ownedOf left ++ Part.ownedOf parts ++ Part.ownedOf right := by
    simp [Part.ownedOf]
  have below : ∀ sides ∈ [left, right], ∀ id ∈ Part.ownedOf sides, id < file.pageCount := by
    intro sides side id member
    obtain ⟨part, inside, inPart⟩ := List.mem_flatMap.mp member
    have either : part ∈ left ++ right := by
      simp only [List.mem_cons, List.not_mem_nil, or_false] at side
      rcases side with rfl | rfl
      · exact List.mem_append_left _ inside
      · exact List.mem_append_right _ inside
    exact ((holds part either).valid id inPart).2
  obtain ⟨distinctLeft, distinctRight, apart⟩ := List.nodup_append.mp distinct
  obtain ⟨onlyLeft, -, apartLeft⟩ := List.nodup_append.mp distinctLeft
  refine ⟨written.grows, ?_, ?_, ?_, ?_⟩
  · intro part member
    rcases List.mem_append.mp member with inLeft | inRight
    · rcases List.mem_append.mp inLeft with inLeft | inParts
      · exact (holds part (List.mem_append_left _ inLeft)).extend written.grows
      · exact written.holds part inParts
    · exact (holds part (List.mem_append_right _ inRight)).extend written.grows
  · rw [entriesOf_append, entriesOf_append, written.entries]
  · intro id member
    rw [owned] at member
    rcases List.mem_append.mp member with inLeft | inRight
    · rcases List.mem_append.mp inLeft with inLeft | inParts
      · exact .inl (by simp [inLeft])
      · exact (written.kept id inParts).imp_left fun inOld => by simp [inOld]
    · exact .inl (by simp [inRight])
  · rw [owned]
    have separate : ∀ sides ∈ [left, right], (∀ id ∈ Part.ownedOf sides, id ∉ old) →
        ∀ id ∈ Part.ownedOf sides, id ∉ Part.ownedOf parts := by
      intro sides side outside id member inParts
      rcases written.kept id inParts with inOld | fresh
      · exact outside id member inOld
      · exact absurd (below sides side id member) (Nat.not_lt.mpr fresh)
    have leftParts := separate left (by simp) fun id inLeft inOld => apartLeft id inLeft id inOld rfl
    have rightParts := separate right (by simp) fun id inRight inOld =>
      apart id (List.mem_append_right _ inOld) id inRight rfl
    refine List.nodup_append.mpr ⟨List.nodup_append.mpr ⟨onlyLeft, written.distinct, ?_⟩,
      distinctRight, ?_⟩
    · rintro id inLeft _ inParts rfl
      exact leftParts id inLeft inParts
    · rintro id member _ inRight rfl
      rcases List.mem_append.mp member with inLeft | inParts
      · exact apart id (List.mem_append_left _ inLeft) id inRight rfl
      · exact rightParts id inRight inParts

theorem entriesOf_ne_nil (some' : parts ≠ []) (holds : ∀ part ∈ parts, Holds file tree level part) :
    Part.entriesOf parts ≠ [] := by
  cases parts with
  | nil => exact absurd rfl some'
  | cons first parts =>
      rw [entriesOf_cons]
      exact fun empty => (holds first List.mem_cons_self).nonempty (List.append_eq_nil_iff.mp empty).1

end Composing

/-! ## Sizes of separators -/

section Sizes

variable {left right parts : List Part}

theorem fullSize_append (left right : List Part) :
    fullSize (left ++ right) = fullSize left + fullSize right := by
  simp [fullSize]

theorem separatorSize_le (parts : List Part) : separatorSize parts ≤ fullSize parts := by
  rw [fullSize, ← separatorSize_add]
  exact Nat.le_add_right _ _

theorem separatorSize_append (some' : left ≠ []) :
    separatorSize (left ++ right) = separatorSize left + fullSize right := by
  cases left with
  | nil => exact absurd rfl some'
  | cons first left => simp [separatorSize, fullSize]

theorem fullSize_le (short : ∀ part ∈ parts, part.min.length ≤ maxKey) :
    fullSize parts ≤ parts.length * 2082 := by
  rw [fullSize, ← List.length_map (fun part : Part => 16 + part.min.length)]
  refine List.sum_le_card_nsmul _ 2082 ?_
  intro size member
  obtain ⟨part, inside, rfl⟩ := List.mem_map.mp member
  have ceiling : maxKey = 2066 := rfl
  have := short part inside
  omega

/-- New parts in between grow the separators by theirs, and by that of a part that
is no longer the first. -/
theorem separatorSize_insert (left right new : List Part)
    (short : ∀ part ∈ right, part.min.length ≤ maxKey) :
    separatorSize (left ++ new ++ right) ≤ separatorSize (left ++ right) + fullSize new + 2082 := by
  have all := separatorSize_le (new ++ right)
  rw [fullSize_append] at all
  cases left with
  | nil =>
      have first : fullSize right ≤ separatorSize right + 2082 := by
        rw [fullSize, ← separatorSize_add]
        cases right with
        | nil => simp
        | cons part right =>
            have ceiling : maxKey = 2066 := rfl
            have := short part List.mem_cons_self
            rw [List.map_cons, List.getD_cons_zero]
            omega
      rw [List.nil_append, List.nil_append]
      omega
  | cons part left =>
      rw [List.append_assoc, separatorSize_append (List.cons_ne_nil _ _),
        separatorSize_append (List.cons_ne_nil _ _), fullSize_append]
      omega

/-- Replacing parts grows the separators by at most those of the new parts. -/
theorem separatorSize_replace (left right : List Part) {mid : List Part} (some' : mid ≠ [])
    (new : List Part) :
    separatorSize (left ++ new ++ right) ≤ separatorSize (left ++ mid ++ right) + fullSize new := by
  cases left with
  | nil =>
      rw [List.nil_append, List.nil_append, separatorSize_append some']
      have := separatorSize_le (new ++ right)
      rw [fullSize_append] at this
      omega
  | cons first left =>
      rw [List.append_assoc, List.append_assoc, separatorSize_append (List.cons_ne_nil _ _),
        separatorSize_append (List.cons_ne_nil _ _), fullSize_append, fullSize_append]
      omega

end Sizes

/-! ## Leaves -/

section Leaves

variable {file : PageFile} {tree : TreeId} {key : Bytes} {value : Option Bytes}

/-- The cells that a leaf update leaves to write. -/
structure NewCells (file : PageFile) (tree : TreeId) (old : List Nat) (after : PageFile)
    (cells : List HeldCell) : Prop where
  short : ∀ held ∈ cells, held.cell.key.length ≤ maxKey
  holds : ∀ held ∈ cells, held.Holds after tree
  kept : ∀ id ∈ cells.flatMap HeldCell.owned, id ∈ old ∨ file.pageCount ≤ id
  distinct : (cells.flatMap HeldCell.owned).Nodup
  bounded : headerSize + (cells.map fun held => leafSize held.cell).sum ≤ pageSize + 3110

/-- What a leaf update returns. -/
def UpdatesLeaf (file : PageFile) (tree : TreeId) (key : Bytes) (value : Option Bytes)
    (cells : List HeldCell) (result : Option (List LeafCell) × PageFile) : Prop :=
  file.Extends result.2 ∧ result.2.pageCount ≤ file.pageCount + valuePages ∧
    match result.1 with
    | none => changeEntry key value (cells.map HeldCell.entry) = cells.map HeldCell.entry
    | some new => ∃ held : List HeldCell, new = held.map HeldCell.cell ∧
        held.map HeldCell.entry = changeEntry key value (cells.map HeldCell.entry) ∧
        NewCells file tree (cells.flatMap HeldCell.owned) result.2 held

variable {left mid right : List HeldCell}

theorem changeEntry_cells (value : Option Bytes) (mid : List HeldCell) (before : ∀ held ∈ left, held.cell.key < key)
    (after : ∀ held ∈ right, key < held.cell.key) :
    changeEntry key value ((left ++ mid ++ right).map HeldCell.entry) =
      left.map HeldCell.entry ++ changeEntry key value (mid.map HeldCell.entry) ++
        right.map HeldCell.entry := by
  rw [List.map_append, List.map_append]
  apply changeEntry_append
  · simpa [HeldCell.entry] using before
  · simpa [HeldCell.entry] using after

/-- Removing the cells at the key. -/
theorem NewCells.remove (short : ∀ held ∈ left ++ mid ++ right, held.cell.key.length ≤ maxKey)
    (holds : ∀ held ∈ left ++ mid ++ right, held.Holds file tree)
    (distinct : ((left ++ mid ++ right).flatMap HeldCell.owned).Nodup)
    (fits : headerSize + ((left ++ mid ++ right).map fun held => leafSize held.cell).sum ≤
      pageSize) :
    NewCells file tree ((left ++ mid ++ right).flatMap HeldCell.owned) file (left ++ right) := by
  have inside : ∀ held ∈ left ++ right, held ∈ left ++ mid ++ right := by
    intro held member
    rcases List.mem_append.mp member with inLeft | inRight
    · simp [inLeft]
    · simp [inRight]
  refine ⟨fun held member => short held (inside held member),
    fun held member => holds held (inside held member), ?_, ?_, ?_⟩
  · intro id member
    obtain ⟨held, inCells, owned⟩ := List.mem_flatMap.mp member
    exact .inl (List.mem_flatMap.mpr ⟨held, inside held inCells, owned⟩)
  · rw [List.flatMap_append, List.flatMap_append] at distinct
    rw [List.flatMap_append]
    exact distinct.sublist ((List.sublist_append_left _ _).append_right _)
  · simp only [List.map_append, List.sum_append] at fits ⊢
    omega

/-- Storing a new cell at the key. -/
theorem NewCells.store {after : PageFile} {new : HeldCell} (grows : file.Extends after)
    (short : ∀ held ∈ left ++ mid ++ right, held.cell.key.length ≤ maxKey)
    (holds : ∀ held ∈ left ++ mid ++ right, held.Holds file tree)
    (distinct : ((left ++ mid ++ right).flatMap HeldCell.owned).Nodup)
    (fits : headerSize + ((left ++ mid ++ right).map fun held => leafSize held.cell).sum ≤ pageSize)
    (newShort : new.cell.key.length ≤ maxKey) (newHolds : new.Holds after tree)
    (newDistinct : new.owned.Nodup) (fresh : ∀ id ∈ new.owned, file.pageCount ≤ id) :
    NewCells file tree ((left ++ mid ++ right).flatMap HeldCell.owned) after
      (left ++ new :: right) := by
  obtain ⟨shortRest, holdsRest, keptRest, distinctRest, -⟩ :=
    NewCells.remove short holds distinct fits
  have each (property : HeldCell → Prop) (ofNew : property new)
      (rest : ∀ held ∈ left ++ right, property held) :
      ∀ held ∈ left ++ new :: right, property held := by
    intro held member
    rcases List.mem_append.mp member with inLeft | inRight
    · exact rest held (List.mem_append_left _ inLeft)
    · rcases List.mem_cons.mp inRight with rfl | inRight
      · exact ofNew
      · exact rest held (List.mem_append_right _ inRight)
  have perm : ((left ++ new :: right).flatMap HeldCell.owned).Perm
      (new.owned ++ (left ++ right).flatMap HeldCell.owned) := by
    rw [← List.flatMap_cons]
    exact List.Perm.flatMap_right _ List.perm_middle
  refine ⟨each _ newShort shortRest,
    each _ newHolds fun held member => (holdsRest held member).extend grows, ?_, ?_, ?_⟩
  · intro id member
    rcases List.mem_append.mp (perm.mem_iff.mp member) with inNew | inRest
    · exact .inr (fresh id inNew)
    · exact keptRest id inRest
  · rw [perm.nodup_iff, List.nodup_append]
    refine ⟨newDistinct, distinctRest, ?_⟩
    rintro id inNew _ inRest rfl
    obtain ⟨held, inCells, owned⟩ := List.mem_flatMap.mp inRest
    have := ((holdsRest held inCells).valid id owned).2
    have := fresh id inNew
    omega
  · have := leafSize_le newShort newHolds
    simp only [List.map_append, List.map_cons, List.sum_append, List.sum_cons] at fits ⊢
    omega

/-- A leaf update changes the cells as the map changes. -/
theorem updateLeaf_safe {cells : List HeldCell} (keyShort : key.length ≤ maxKey)
    (valueShort : ∀ bytes ∈ value, bytes.length ≤ maxValue)
    (increasing : Increasing (cells.map HeldCell.entry))
    (short : ∀ held ∈ cells, held.cell.key.length ≤ maxKey)
    (holds : ∀ held ∈ cells, held.Holds file tree)
    (distinct : (cells.flatMap HeldCell.owned).Nodup)
    (fits : headerSize + (cells.map fun held => leafSize held.cell).sum ≤ pageSize) :
    Safe (updateLeaf file tree key value (cells.map HeldCell.cell))
      (UpdatesLeaf file tree key value cells) (Full (file.pageCount + valuePages)) := by
  obtain ⟨left, right, before, after, same⟩ := search_split increasing key
  -- The search splits off one cell with the key, or none.
  obtain ⟨mid, rfl, here, found⟩ : ∃ mid : List HeldCell, cells = left ++ mid ++ right ∧
      (∀ held ∈ mid, held.cell.key = key) ∧
      ((mid.length = 1 ∧ search (cells.map HeldCell.cell) key = (left.length, true)) ∨
        (mid = [] ∧ search (cells.map HeldCell.cell) key = (left.length, false))) := by
    rcases same with ⟨held, isKey, rfl, searched⟩ | ⟨rfl, searched⟩
    · exact ⟨[held], by simp, by simpa using isKey, .inl ⟨rfl, searched⟩⟩
    · exact ⟨[], by simp, by simp, .inr ⟨rfl, searched⟩⟩
  have changed := changeEntry_cells value mid before after
  cases value with
  | none =>
      have removed : changeEntry key none (mid.map HeldCell.entry) = [] := by
        simpa [changeEntry, HeldCell.entry] using here
      rw [removed, List.append_nil, ← List.map_append] at changed
      simp only [updateLeaf]
      rcases found with ⟨one, searched⟩ | ⟨rfl, searched⟩
      · rw [searched]
        refine Safe.ret ⟨.refl _, by simp, left ++ right, ?_, changed.symm, NewCells.remove short holds
          distinct fits⟩
        obtain ⟨held, rfl⟩ := List.length_eq_one_iff.mp one
        simp [List.eraseIdx_append_of_length_le]
      · rw [searched]
        exact Safe.ret ⟨.refl _, by simp, by simpa using changed⟩
  | some bytes =>
      have replaced : changeEntry key (some bytes) (mid.map HeldCell.entry) = [(key, bytes)] := by
        rcases found with ⟨one, -⟩ | ⟨rfl, -⟩
        · obtain ⟨held, rfl⟩ := List.length_eq_one_iff.mp one
          simp [changeEntry, insertEntry, HeldCell.entry, here held (by simp)]
        · rfl
      rw [replaced] at changed
      simp only [updateLeaf]
      refine Safe.bind (storeValue_safe (valueShort bytes rfl)) ?_
      rintro ⟨stored, later⟩ ⟨grows, counted, owned, newHolds, newDistinct, fresh⟩
      refine Safe.ret ⟨grows, counted, left ++ ⟨⟨key, stored⟩, bytes, owned⟩ :: right, ?_, ?_,
        NewCells.store grows short holds distinct fits keyShort newHolds newDistinct fresh⟩
      · rcases found with ⟨one, searched⟩ | ⟨rfl, searched⟩
        · obtain ⟨held, rfl⟩ := List.length_eq_one_iff.mp one
          rw [searched]
          simp
        · have inserted := insertIdx_length_append (left.map HeldCell.cell)
            (right.map HeldCell.cell) ⟨key, stored⟩
          rw [List.length_map] at inserted
          rw [searched]
          simpa using inserted
      · rw [changed]
        simp [HeldCell.entry]

end Leaves

/-! ## Replaced children -/

section Replacing

variable {file middle : PageFile} {tree : TreeId} {level : Nat} {key : Bytes}
variable {value : Option Bytes} {left right : List Part} {child : Part}

theorem ownedOf_append (left right : List Part) :
    Part.ownedOf (left ++ right) = Part.ownedOf left ++ Part.ownedOf right :=
  List.flatMap_append

theorem ownedOf_cons (part : Part) (rest : List Part) :
    Part.ownedOf (part :: rest) = part.owned ++ Part.ownedOf rest := rfl

/-- The children of a node after one of them was replaced. -/
def ReplacesChild (file : PageFile) (tree : TreeId) (level : Nat) (old : List Nat)
    (entries : List Entry) (room : Nat) (before : PageFile) (result : List Child × PageFile) :
    Prop :=
  ∃ parts : List Part, result.1 = parts.map Part.child ∧
    Written file tree level old entries result.2 parts ∧ parts ≠ [] ∧
    separatorSize parts ≤ room + 2 * 2082 ∧ result.2.pageCount ≤ before.pageCount + 2

/-- The parts of a held sibling, loaded from a later file. -/
theorem load_sibling {part : Part} (holds : Holds file tree (level + 1) part)
    (ordered : Ordered part.entries part.owned) (grows : file.Extends middle) :
    ∃ parts : List Part, load middle tree part.id (some (level + 1)) =
        .ok (.internal (level + 1) (parts.tail.map Part.min) (parts.map Part.id)) ∧
      2 ≤ parts.length ∧ part.entries = Part.entriesOf parts ∧
      part.owned = part.id :: Part.ownedOf parts ∧
      headerSize + separatorSize parts ≤ pageSize ∧
      childList middle tree (level + 1) (parts.tail.map Part.min) (parts.map Part.id) =
        .ok (parts.map Part.child) ∧
      ∀ child ∈ parts, Holds file tree level child := by
  obtain ⟨node, found, fits, holds⟩ := holds
  have loaded := load_of_found (grows.page? found) (holds.extend grows) ordered
    (some (level + 1)) (by simp)
  obtain ⟨parts, rfl, two, entries, owned, each⟩ := NodeHolds.children holds ordered
  rw [nodeSize, List.map_map] at fits
  refine ⟨parts, loaded, two, entries, owned, fits, ?_, fun child member => (each child member).1⟩
  exact childList_of_holds two fun child member =>
    ⟨(each child member).1.extend grows, (each child member).2⟩

/-- A write beside the children of a held sibling merges into one or two nodes. -/
theorem merge_safe (before after : List Part) {old : List Nat} {entries : List Entry}
    {parts : List Part} (written : Written file tree level old entries middle parts) (one : parts.length = 1)
    (two : 2 ≤ (before ++ after).length)
    (fits : headerSize + separatorSize (before ++ after) ≤ pageSize)
    (holds : ∀ part ∈ before ++ after, Holds file tree level part)
    (distinct : (Part.ownedOf before ++ old ++ Part.ownedOf after).Nodup)
    (short : ∀ entry ∈ Part.entriesOf before ++ entries ++ Part.entriesOf after,
      entry.1.length ≤ maxKey) :
    Safe (writeInternal middle tree (level + 1) ((before ++ parts ++ after).map Part.child))
      (fun result => ∃ merged : List Part, result.1 = ⟨level + 1, merged.map Part.child⟩ ∧
        Written file tree (level + 1) (Part.ownedOf before ++ old ++ Part.ownedOf after)
          (Part.entriesOf before ++ entries ++ Part.entriesOf after) result.2 merged ∧
        merged.length ≤ 2 ∧ result.2.pageCount ≤ middle.pageCount + 2)
      (Full (middle.pageCount + 1)) := by
  have framed := written.frame holds distinct
  rw [← framed.entries] at short
  have mins := min_short short framed.holds
  have full : fullSize parts ≤ 2082 := by
    have bound := fullSize_le fun part (member : part ∈ parts) => mins part (by simp [member])
    rwa [one, Nat.one_mul] at bound
  have sized := separatorSize_insert before after parts fun part member => mins part (by simp [member])
  refine (writeInternal_safe ?_ mins framed.holds framed.distinct (by omega)).weaken ?_
  · simp only [List.length_append] at two ⊢
    omega
  · rintro ⟨edit, after⟩ ⟨merged, isEdit, writtenMerged, few, counted⟩
    exact ⟨merged, isEdit, framed.trans writtenMerged, few, counted⟩

/-- Written parts in the place of some children, one or two of them. -/
theorem replaces_of_written (before : PageFile) {after : PageFile} (pre pair post : List Part)
    {merged : List Part} {entries : List Entry} (some' : pair ≠ [])
    (holds : ∀ part ∈ pre ++ post, Holds file tree level part)
    (distinct : (Part.ownedOf (pre ++ pair ++ post)).Nodup)
    (short : ∀ entry ∈ entries, entry.1.length ≤ maxKey)
    (written : Written file tree level (Part.ownedOf pair) entries after merged)
    (nonempty : pre ++ merged ++ post ≠ []) (few : merged.length ≤ 2)
    (counted : after.pageCount ≤ before.pageCount + 2) :
    ReplacesChild file tree level (Part.ownedOf (pre ++ pair ++ post))
      (Part.entriesOf pre ++ entries ++ Part.entriesOf post) (separatorSize (pre ++ pair ++ post))
      before ((pre ++ merged ++ post).map Part.child, after) := by
  have small : fullSize merged ≤ 2 * 2082 := by
    rw [← written.entries] at short
    exact (fullSize_le (min_short short written.holds)).trans (Nat.mul_le_mul_right _ few)
  have grown := separatorSize_replace pre post some' merged
  rw [ownedOf_append, ownedOf_append] at distinct ⊢
  exact ⟨_, rfl, written.frame holds distinct, nonempty, by omega, counted⟩

/-- Merging the only child of a collapsed first child into its right sibling. -/
theorem repair_first {sibling : Part} {entries : List Entry} {only : Part}
    (each : ∀ part ∈ child :: sibling :: right, Holds file tree (level + 1) part ∧
      Ordered part.entries part.owned)
    (distinct : (Part.ownedOf (child :: sibling :: right)).Nodup)
    (short : ∀ entry ∈ entries ++ sibling.entries, entry.1.length ≤ maxKey)
    (written : Written file tree level child.owned entries middle [only]) :
    Safe (repair middle tree (level + 1 + 1) ((child :: sibling :: right).map Part.child) 0
        [only.child])
      (ReplacesChild file tree (level + 1) (Part.ownedOf (child :: sibling :: right))
        (entries ++ sibling.entries ++ Part.entriesOf right)
        (separatorSize (child :: sibling :: right)) middle)
      (Full (middle.pageCount + 1)) := by
  obtain ⟨held, ordered⟩ := each sibling (by simp)
  obtain ⟨parts, loaded, two, entriesEq, owned, fits, listed, below⟩ :=
    load_sibling held ordered written.grows
  have pages : (child.owned ++ Part.ownedOf parts).Nodup := by
    rw [ownedOf_cons, ownedOf_cons, owned, ← List.append_assoc] at distinct
    exact distinct.sublist ((List.Sublist.append_left (List.sublist_cons_self _ _) _).trans
      (List.sublist_append_left _ _))
  have merged := merge_safe [] parts written rfl two fits below pages (by rwa [← entriesEq])
  rw [repair]
  refine Safe.bind_index (show _ = some sibling.child from rfl) ?_
  refine Safe.bind_of_eq (show raise id (load middle tree sibling.id (some (level + 1))) = _ by
    rw [loaded, raise_ok]) ?_
  refine Safe.bind_of_eq listed (Safe.bind merged ?_)
  rintro ⟨edit, after⟩ ⟨new, rfl, writtenNew, few, counted⟩
  have kept : Written file tree (level + 1) (Part.ownedOf [child, sibling])
      (entries ++ sibling.entries) after new := by
    rw [entriesEq]
    refine writtenNew.mono ?_
    intro id member
    rw [ownedOf_cons, ownedOf_cons, owned]
    rcases List.mem_append.mp member with inChild | inParts
    · exact List.mem_append_left _ (by simpa [Part.ownedOf] using inChild)
    · exact List.mem_append_right _ (by simp [inParts])
  have nonempty : [] ++ new ++ right ≠ [] := by
    intro empty
    have none := kept.entries
    rw [show new = [] from (List.append_eq_nil_iff.mp empty).1] at none
    exact held.nonempty (List.append_eq_nil_iff.mp none.symm).2
  have replaced := replaces_of_written middle [] [child, sibling] right (by simp)
    (fun part member => (each part (by simpa using .inr (.inr member))).1) distinct short kept
    nonempty few counted
  refine Safe.ret ?_
  simpa [splice, Part.entriesOf] using replaced

/-- Merging the only child of a collapsed later child into its left sibling. -/
theorem repair_later {sibling : Part} {entries : List Entry} {only : Part}
    (each : ∀ part ∈ left ++ sibling :: child :: right, Holds file tree (level + 1) part ∧
      Ordered part.entries part.owned)
    (distinct : (Part.ownedOf (left ++ sibling :: child :: right)).Nodup)
    (short : ∀ entry ∈ sibling.entries ++ entries, entry.1.length ≤ maxKey)
    (written : Written file tree level child.owned entries middle [only]) :
    Safe (repair middle tree (level + 1 + 1) ((left ++ sibling :: child :: right).map Part.child)
        (left.length + 1) [only.child])
      (ReplacesChild file tree (level + 1) (Part.ownedOf (left ++ sibling :: child :: right))
        (Part.entriesOf left ++ (sibling.entries ++ entries) ++ Part.entriesOf right)
        (separatorSize (left ++ sibling :: child :: right)) middle)
      (Full (middle.pageCount + 1)) := by
  obtain ⟨held, ordered⟩ := each sibling (by simp)
  obtain ⟨parts, loaded, two, entriesEq, owned, fits, listed, below⟩ :=
    load_sibling held ordered written.grows
  have pages : (Part.ownedOf parts ++ child.owned ++ []).Nodup := by
    rw [ownedOf_append, ownedOf_cons, ownedOf_cons, owned, ← List.append_assoc _ child.owned]
      at distinct
    rw [List.append_nil]
    exact distinct.sublist (((List.Sublist.append_right (List.sublist_cons_self _ _) _).trans
      (List.sublist_append_left _ _)).trans (List.sublist_append_right _ _))
  have merged := merge_safe parts [] written rfl (by simpa using two) (by simpa using fits)
    (by simpa using below) pages (by
      rw [← entriesEq]
      simpa [Part.entriesOf] using short)
  have isSibling : ((left ++ sibling :: child :: right).map Part.child)[left.length]? =
      some sibling.child := by simp
  rw [repair, if_neg (Nat.succ_ne_zero _), Nat.add_sub_cancel]
  refine Safe.bind_index isSibling ?_
  refine Safe.bind_of_eq (show raise id (load middle tree sibling.id (some (level + 1))) = _ by
    rw [loaded, raise_ok]) ?_
  refine Safe.bind_of_eq listed ?_
  rw [if_pos (Nat.lt_succ_self _)]
  rw [List.append_nil, List.map_append] at merged
  refine Safe.bind merged ?_
  rintro ⟨edit, after⟩ ⟨new, rfl, writtenNew, few, counted⟩
  have kept : Written file tree (level + 1) (Part.ownedOf [sibling, child])
      (sibling.entries ++ entries) after new := by
    rw [entriesEq, ← List.append_nil (Part.entriesOf parts ++ entries)]
    refine writtenNew.mono ?_
    intro id member
    rw [ownedOf_cons, ownedOf_cons, owned]
    rw [show Part.ownedOf [] = [] from rfl, List.append_nil] at member
    rcases List.mem_append.mp member with inParts | inChild
    · exact List.mem_append_left _ (List.mem_cons_of_mem _ inParts)
    · exact List.mem_append_right _ (List.mem_append_left _ inChild)
  have nonempty : left ++ new ++ right ≠ [] := by
    intro empty
    have none := kept.entries
    rw [(List.append_eq_nil_iff.mp (List.append_eq_nil_iff.mp empty).1).2] at none
    exact held.nonempty (List.append_eq_nil_iff.mp none.symm).1
  have shape : left ++ sibling :: child :: right = left ++ [sibling, child] ++ right := by simp
  have spliced : splice ((left ++ sibling :: child :: right).map Part.child)
      (min (left.length + 1) left.length) (max (left.length + 1) left.length)
      (new.map Part.child) = (left ++ new ++ right).map Part.child := by
    rw [Nat.min_eq_right (Nat.le_succ _), Nat.max_eq_left (Nat.le_succ _)]
    have two := splice_two (left.map Part.child) (right.map Part.child) sibling.child child.child
      (new.map Part.child)
    simpa using two
  refine Safe.ret ?_
  rw [shape] at distinct each ⊢
  have replaced := replaces_of_written middle left [sibling, child] right (by simp)
    (fun part member => (each part (by
      rcases List.mem_append.mp member with inLeft | inRight
      · simp [inLeft]
      · simp [inRight])).1) distinct short kept nonempty few counted
  rw [← shape] at replaced ⊢
  rw [← spliced] at replaced
  exact replaced

/-- The parts that replace an updated part: up to two of its level, none for an
emptied leaf, or the only child of a collapsed node. -/
def Replacement (level : Nat) (edit : Edit) (parts : List Part) : Prop :=
  edit.children = parts.map Part.child ∧
    ((edit.level = level ∧ parts.length ≤ 2 ∧ (parts = [] → level = 0)) ∨
      (edit.level + 1 = level ∧ parts.length = 1))

/-- Replacing the updated child of a held node. -/
theorem replaceChild_safe {entries : List Entry} {edit : Edit} {parts : List Part}
    (two : 2 ≤ (left ++ child :: right).length)
    (each : ∀ part ∈ left ++ child :: right, Holds file tree level part ∧
      Ordered part.entries part.owned)
    (distinct : (Part.ownedOf (left ++ child :: right)).Nodup)
    (short : ∀ entry ∈ Part.entriesOf left ++ entries ++ Part.entriesOf right,
      entry.1.length ≤ maxKey)
    (replacement : Replacement level edit parts)
    (written : Written file tree edit.level child.owned entries middle parts) :
    Safe (replaceChild middle tree (level + 1) ((left ++ child :: right).map Part.child) left.length
        edit)
      (ReplacesChild file tree level (Part.ownedOf (left ++ child :: right))
        (Part.entriesOf left ++ entries ++ Part.entriesOf right)
        (separatorSize (left ++ child :: right)) middle)
      (Full (middle.pageCount + 1)) := by
  obtain ⟨editLevel, children⟩ := edit
  obtain ⟨rfl, ⟨rfl, few, -⟩ | ⟨rfl, one⟩⟩ := replacement
  · -- The new nodes have the level of the replaced child and take its place.
    have plain : ¬ (parts.map Part.child ≠ [] ∧ editLevel ≠ editLevel + 1 - 1) := by simp
    have shape : left ++ child :: right = left ++ [child] ++ right := by simp
    have spliced : splice ((left ++ child :: right).map Part.child) left.length left.length
        (parts.map Part.child) = (left ++ parts ++ right).map Part.child := by
      have middle := splice_middle (left.map Part.child) (right.map Part.child) child.child
        (parts.map Part.child)
      simpa using middle
    rw [replaceChild, if_neg plain, spliced]
    have nonempty : left ++ parts ++ right ≠ [] := by
      intro empty
      obtain ⟨empty, rightEmpty⟩ := List.append_eq_nil_iff.mp empty
      obtain ⟨leftEmpty, -⟩ := List.append_eq_nil_iff.mp empty
      simp [leftEmpty, rightEmpty] at two
    have kept : Written file tree editLevel (Part.ownedOf [child]) entries middle parts := by
      simpa [Part.ownedOf] using written
    rw [shape] at distinct each ⊢
    exact Safe.ret (replaces_of_written middle left [child] right (by simp)
      (fun part member => (each part (by
        rcases List.mem_append.mp member with inLeft | inRight
        · simp [inLeft]
        · simp [inRight])).1) distinct (fun entry member => short entry (by simp [member])) kept
      nonempty few (Nat.le_add_right _ _))
  · -- The child collapsed to its only child, which a sibling takes.
    obtain ⟨only, rfl⟩ := List.length_eq_one_iff.mp one
    have collapsed : [only].map Part.child ≠ [] ∧ editLevel ≠ editLevel + 1 + 1 - 1 := by simp
    have transition : ¬ (editLevel + 1 + 1 < 2 ∨ editLevel ≠ editLevel + 1 + 1 - 2 ∨
        ([only].map Part.child).length ≠ 1) := by simp
    rw [replaceChild, if_pos collapsed, refuse_of_not _ transition, raise_ok, ok_bind]
    rcases List.eq_nil_or_concat left with rfl | ⟨left, sibling, rfl⟩
    · cases right with
      | nil => simp at two
      | cons sibling right =>
          have repaired := repair_first each distinct
            (fun entry member => short entry (by
              rcases List.mem_append.mp member with inChild | inSibling
              · simp [inChild]
              · simp [entriesOf_cons, inSibling])) written
          simpa [entriesOf_cons, Part.entriesOf] using repaired
    · have shape : left.concat sibling ++ child :: right = left ++ sibling :: child :: right := by
        simp
      rw [shape] at distinct each ⊢
      have repaired := repair_later each distinct
        (fun entry member => short entry (by
          rcases List.mem_append.mp member with inSibling | inChild
          · simp [List.concat_eq_append, entriesOf_append, entriesOf_cons, inSibling]
          · simp [inChild])) written
      simpa [List.concat_eq_append, entriesOf_append, entriesOf_cons, Part.entriesOf] using repaired

end Replacing

/-! ## Updates by induction on the level -/

/-- The most pages that an update of a part of a level takes. -/
def updatePages (level : Nat) : Nat := valuePages + 2 + 4 * level

/-- What an update of a part returns. -/
def Updates (file : PageFile) (tree : TreeId) (level : Nat) (part : Part) (key : Bytes)
    (value : Option Bytes) (result : Option Edit × PageFile) : Prop :=
  file.Extends result.2 ∧ result.2.pageCount ≤ file.pageCount + updatePages level ∧
    match result.1 with
    | none => changeEntry key value part.entries = part.entries
    | some edit => ∃ parts, Replacement level edit parts ∧
        Written file tree edit.level part.owned (changeEntry key value part.entries) result.2 parts

section Updating

variable {file : PageFile} {tree : TreeId} {level : Nat} {node : Node} {part : Part} {key : Bytes}
variable {value : Option Bytes}

/-- An update of a held leaf. -/
theorem updateNode_leaf (keyShort : key.length ≤ maxKey)
    (valueShort : ∀ bytes ∈ value, bytes.length ≤ maxValue)
    (holds : NodeHolds file tree 0 node part) (fits : nodeSize node ≤ pageSize)
    (ordered : Ordered part.entries part.owned) :
    Safe (updateNode tree key value 0 file node) (Updates file tree 0 part key value)
      (Full (file.pageCount + updatePages 0)) := by
  obtain ⟨cells, rfl, nonempty, entries, owned, each⟩ := holds
  obtain ⟨increasing, short, distinct⟩ := ordered
  rw [owned, List.nodup_cons] at distinct
  rw [entries] at increasing short
  rw [nodeSize, List.map_map] at fits
  have keysShort : ∀ held ∈ cells, held.cell.key.length ≤ maxKey :=
    fun held member => short held.entry (List.mem_map_of_mem member)
  simp only [updateNode]
  refine Safe.bind ((updateLeaf_safe keyShort valueShort increasing keysShort each distinct.2
    fits).mono (fun _ => id) fun _ => Full.mono (by unfold updatePages; omega)) ?_
  rintro ⟨new, middle⟩ ⟨grows, counted, updated⟩
  have counted : middle.pageCount ≤ file.pageCount + valuePages := counted
  cases new with
  | none =>
      refine Safe.ret ⟨grows, ?_, ?_⟩
      · simp only [updatePages]
        omega
      · simp only [entries]
        exact updated
  | some cells' =>
      obtain ⟨held, rfl, changed, newShort, newHolds, kept, newDistinct, bounded⟩ := updated
      refine Safe.bind ((writeLeaves_safe newShort newHolds newDistinct bounded).mono (fun _ => id)
        fun _ => Full.mono (by unfold updatePages; omega)) ?_
      rintro ⟨edit, after⟩ ⟨parts, rfl, written, few, counted'⟩
      have counted' : after.pageCount ≤ middle.pageCount + 2 := counted'
      refine Safe.ret ⟨grows.trans written.grows, ?_, parts, ⟨rfl, .inl ⟨rfl, few, fun _ => rfl⟩⟩,
        ?_⟩
      · simp only [updatePages]
        omega
      · rw [entries, ← changed]
        refine ⟨grows.trans written.grows, written.holds, written.entries, ?_, written.distinct⟩
        intro id member
        rcases written.kept id member with inCells | fresh
        · rw [owned]
          exact (kept id inCells).imp_left (List.mem_cons_of_mem _)
        · exact .inr (grows.pageCount_le.trans fresh)

/-- An update of a held part changes its entries as the map changes. -/
theorem updateNode_safe (keyShort : key.length ≤ maxKey)
    (valueShort : ∀ bytes ∈ value, bytes.length ≤ maxValue)
    (holds : NodeHolds file tree level node part) (fits : nodeSize node ≤ pageSize)
    (ordered : Ordered part.entries part.owned) :
    Safe (updateNode tree key value level file node) (Updates file tree level part key value)
      (Full (file.pageCount + updatePages level)) := by
  induction level generalizing node part with
  | zero => exact updateNode_leaf keyShort valueShort holds fits ordered
  | succ level ih =>
      obtain ⟨parts, rfl, two, entries, owned, each⟩ := NodeHolds.children holds ordered
      obtain ⟨increasing, short, distinct⟩ := ordered
      rw [owned, List.nodup_cons] at distinct
      rw [entries] at increasing short
      have separators : headerSize + separatorSize parts ≤ pageSize := by
        rwa [nodeSize, List.map_map] at fits
      have listed := childList_of_holds two each
      obtain ⟨left, child, right, rfl, routed, before, after⟩ :=
        route_split (by rintro rfl; simp at two) increasing
          (fun child member => (each child member).1.nonempty) key
      obtain ⟨held, childOrdered⟩ := each child (by simp)
      obtain ⟨below, loaded, ⟨-, belowFits⟩, belowHolds⟩ :=
        load_of_holds held childOrdered (some level) (by simp)
      have changed : changeEntry key value part.entries =
          Part.entriesOf left ++ changeEntry key value child.entries ++ Part.entriesOf right := by
        rw [entries, entriesOf_append, entriesOf_cons, ← List.append_assoc]
        exact changeEntry_append value child.entries before after
      have changedShort : ∀ entry ∈ Part.entriesOf left ++ changeEntry key value child.entries ++
          Part.entriesOf right, entry.1.length ≤ maxKey := by
        rw [← changed, entries]
        intro entry member
        rcases mem_changeEntry member with ⟨stored, -, rfl⟩ | old
        · exact keyShort
        · exact short entry old
      have routedChild : ((left ++ child :: right).map Part.id)[route
          ((left ++ child :: right).tail.map Part.min) key]? = some child.id := by
        rw [routed]
        simp
      simp only [updateNode, Nat.add_sub_cancel]
      refine Safe.bind_index routedChild ?_
      refine Safe.bind_of_eq (by rw [loaded, raise_ok]) ?_
      refine Safe.bind ((ih belowHolds belowFits childOrdered).mono (fun _ => id)
        fun _ => Full.mono (by unfold updatePages; omega)) ?_
      rintro ⟨edit, middle⟩ ⟨grows, counted, updated⟩
      have counted : middle.pageCount ≤ file.pageCount + updatePages level := counted
      cases edit with
      | none =>
          refine Safe.ret ⟨grows, ?_, ?_⟩
          · simp only [updatePages] at counted ⊢
            omega
          · simp only [changed]
            rw [show changeEntry key value child.entries = child.entries from updated, entries,
              entriesOf_append, entriesOf_cons, List.append_assoc]
      | some edit =>
          obtain ⟨new, replacement, written⟩ := updated
          refine Safe.bind_of_eq listed ?_
          rw [routed]
          refine Safe.bind ((replaceChild_safe two each distinct.2 changedShort replacement
            written).mono (fun _ => id) fun _ => Full.mono (by unfold updatePages at *; omega)) ?_
          rintro ⟨children, later⟩ ⟨all, rfl, writtenAll, nonempty, bounded, counted'⟩
          have counted' : later.pageCount ≤ middle.pageCount + 2 := counted'
          have kept : Written file tree level part.owned (changeEntry key value part.entries) later
              all := by
            rw [changed, owned]
            exact writtenAll.mono fun id member => List.mem_cons_of_mem _ member
          dsimp only
          split_ifs with one
          · rw [List.length_map] at one
            refine Safe.ret ⟨kept.grows, ?_, all, ⟨rfl, .inr ⟨rfl, one⟩⟩, kept⟩
            simp only [updatePages] at counted ⊢
            omega
          · rw [List.length_map] at one
            have many : 2 ≤ all.length := by
              have := List.length_pos_of_ne_nil nonempty
              omega
            have mins : ∀ part ∈ all, part.min.length ≤ maxKey := by
              rw [← writtenAll.entries] at changedShort
              exact min_short changedShort writtenAll.holds
            refine Safe.bind ((writeInternal_safe many mins kept.holds kept.distinct
              (by omega)).mono (fun _ => id) fun _ => Full.mono (by unfold updatePages at *; omega)) ?_
            rintro ⟨edit, after⟩ ⟨parts, rfl, writtenParts, few, counted''⟩
            have counted'' : after.pageCount ≤ later.pageCount + 2 := counted''
            have final := kept.trans writtenParts
            refine Safe.ret ⟨final.grows, ?_, parts, ⟨rfl, .inl ⟨rfl, few, ?_⟩⟩, final⟩
            · simp only [updatePages] at counted ⊢
              omega
            · rintro rfl
              exact absurd writtenParts.entries.symm (entriesOf_ne_nil nonempty kept.holds)

end Updating


end BlopDb.Storage.BTree
