/-
# The content of page images

The content of a page image: the node or the overflow chunk that its bytes hold,
independent of any prefix.  Reading nodes and overflow chunks from a file of page
images succeeds exactly when reading its contents does, with the same result.  The
contents are those of node pages: they fit a page.
-/

import BlopDb.Storage.BTreeValid
import BlopDb.Storage.PageReader

namespace BlopDb.Storage.PageCodec

open BlopDb.Lib
open PageFile (validRef validStored checkInternal checkCells checkChildren unordered)

/-! ## Contents -/

/-- The tree with a number. -/
def treeOf : Nat → Option TreeId
  | 1 => some .state
  | 2 => some .catalogue
  | 3 => some .policy
  | 4 => some .outcomes
  | 5 => some .cursors
  | _ => none

theorem treeOf_eq_some {number : Nat} {tree : TreeId} :
    treeOf number = some tree ↔ number = tree.number := by
  constructor
  · intro found
    unfold treeOf at found
    split at found <;> cases found <;> rfl
  · rintro rfl
    cases tree <;> rfl

/-- The content that no reader accepts. -/
def unreadable : Page := .overflow .state 0 []

/-- A file of page images, page zero included. -/
structure Images where
  pages : List Bytes
  sized : ∀ bytes ∈ pages, bytes.length = pageSize
  nonempty : pages ≠ []
  /-- The number of pages stays within its ceiling. -/
  bounded : pages.length ≤ maxPages

section Contents

variable [Crc32c]

/-- What a page image holds, in a file of any length. -/
def contentOf (page : Nat) (bytes : Bytes) : Page :=
  match treeOf (uintAt 4 bytes 16) with
  | none => unreadable
  | some tree =>
      match validateHeader bytes page (some tree) (2 ^ 64) with
      | .error _ => unreadable
      | .ok () =>
          if uintAt 1 bytes 6 = 3 then
            .overflow tree (uintAt 8 bytes 32) (slice bytes 64 (uintAt 4 bytes 40))
          else
            match decodeNode bytes (2 ^ 64) with
            | .ok node => .node tree node
            | .error _ => unreadable

/-- The contents of a file of page images. -/
def Images.contents (images : Images) : PageFile where
  pages := images.pages.tail.mapIdx fun position bytes => contentOf (position + 1) bytes
  bounded := by
    have := images.bounded
    have := List.length_pos_of_ne_nil images.nonempty
    simp only [List.length_mapIdx, List.length_tail]
    omega

theorem Images.pageCount_contents (images : Images) :
    images.contents.pageCount = images.pages.length := by
  have := List.length_pos_of_ne_nil images.nonempty
  simp only [PageFile.pageCount, Images.contents, List.length_mapIdx, List.length_tail]
  omega

theorem Images.page?_contents {images : Images} {page : Nat} {content : Page} :
    images.contents.page? page = some content ↔
      page ≠ 0 ∧ ∃ bytes, images.pages[page]? = some bytes ∧ contentOf page bytes = content := by
  rw [PageFile.page?_eq_some]
  refine and_congr_right fun positive => ?_
  simp only [Images.contents, List.getElem?_mapIdx, List.getElem?_tail, Option.map_eq_some_iff,
    Nat.sub_add_cancel (Nat.pos_of_ne_zero positive)]

end Contents

theorem Images.counted (images : Images) : images.pages.length ≤ 2 ^ 64 :=
  images.bounded.trans (by norm_num [maxPages])

/-! ## Node contents -/

section Nodes

variable [Crc32c] {bytes : Bytes} {page count : Nat} {tree : TreeId} {node : Node}

theorem contentOf_eq_node (size : bytes.length = pageSize) :
    contentOf page bytes = .node tree node ↔ HoldsNode bytes page tree (2 ^ 64) node := by
  constructor
  · intro isNode
    unfold contentOf at isNode
    split at isNode
    · cases isNode
    · rename_i tree' _
      split at isNode
      · cases isNode
      · rename_i valid
        split_ifs at isNode with overflow
        split at isNode
        · rename_i decoded
          cases isNode
          exact ⟨valid, decoded⟩
        · cases isNode
  · intro holds
    obtain ⟨kind, level, cells, upper, link, rest, header, -⟩ := holds.inspect size
    have isTree : treeOf (uintAt 4 bytes 16) = some tree := treeOf_eq_some.mpr header.reads.tree
    have notOverflow : uintAt 1 bytes 6 ≠ 3 := by
      rw [header.reads.kind]
      rcases header.kinds with ⟨leaf, -⟩ | ⟨internal, -⟩ <;> omega
    simp only [contentOf, isTree, holds.valid, if_neg notOverflow, holds.decoded]

/-- The content of a page is the node that a prefix decodes. -/
theorem HoldsNode.content (size : bytes.length = pageSize) (counted : count ≤ 2 ^ 64)
    (holds : HoldsNode bytes page tree count node) : contentOf page bytes = .node tree node := by
  apply (contentOf_eq_node size).mpr
  apply holds.recount size le_rfl
  intro other member
  exact (holds.validRefs size other member).2.trans_le counted

/-- What a decoded page is admissible for. -/
theorem HoldsNode.admissible (size : bytes.length = pageSize)
    (holds : HoldsNode bytes page tree count node) :
    node.slotKeys.Pairwise (· < ·) ∧ ∀ slot ∈ slots node, slot.Valid count := by
  obtain ⟨kind, level, cells, upper, link, rest, header, length, reads, meets, rfl⟩ := holds.inspect size
  obtain ⟨isSlots, -, -, -, shape⟩ := nodeOf_shape header.kinds reads.sound
  have sorted := reads.sorted List.Pairwise.nil
  rw [List.nil_append] at sorted
  rw [← key_slots shape, isSlots]
  exact ⟨sorted, fun slot member => (reads.sound slot member).2.2⟩

end Nodes

section Checks

variable {count : Nat}

theorem checkCells_of {cells : List LeafCell} {previous : Option Bytes}
    (above : ∀ key ∈ previous, ∀ cell ∈ cells, key < cell.key)
    (sorted : (cells.map LeafCell.key).Pairwise (· < ·))
    (each : ∀ cell ∈ cells, cell.key.length ≤ maxKey ∧ validStored count cell.value = true) :
    checkCells count previous cells = .ok () := by
  induction cells generalizing previous with
  | nil => rfl
  | cons cell cells ih =>
      obtain ⟨short, stored⟩ := each cell List.mem_cons_self
      rw [List.map_cons, List.pairwise_cons] at sorted
      have ordered : unordered previous cell.key = false := by
        cases previous with
        | none => rfl
        | some key => simpa [unordered] using above key rfl cell List.mem_cons_self
      rw [checkCells, refuse_of_not _ (by omega), ok_bind, refuse_of_not _ (by simp [ordered]), ok_bind,
        refuse_of_not _ (by simp [stored]), ok_bind]
      refine ih ?_ sorted.2 fun other member => each other (List.mem_cons_of_mem _ member)
      intro key isKey other member
      cases isKey
      exact sorted.1 _ (List.mem_map_of_mem member)

theorem checkChildren_of {pairs : List (Bytes × Nat)} {previous : Option Bytes}
    (above : ∀ key ∈ previous, ∀ pair ∈ pairs, key < pair.1)
    (sorted : (pairs.map Prod.fst).Pairwise (· < ·))
    (each : ∀ pair ∈ pairs, pair.1.length ≤ maxKey ∧ validRef pair.2 count) :
    checkChildren count previous pairs = .ok () := by
  induction pairs generalizing previous with
  | nil => rfl
  | cons pair pairs ih =>
      obtain ⟨key, child⟩ := pair
      obtain ⟨short, refers⟩ := each _ List.mem_cons_self
      rw [List.map_cons, List.pairwise_cons] at sorted
      have ordered : unordered previous key = false := by
        cases previous with
        | none => rfl
        | some other => simpa [unordered] using above other rfl _ List.mem_cons_self
      rw [checkChildren, refuse_of_not _ (by simpa using short), ok_bind,
        refuse_of_not _ (by simp [ordered]), ok_bind, refuse_of_not _ (by simp [refers]), ok_bind]
      refine ih ?_ sorted.2 fun other member => each other (List.mem_cons_of_mem _ member)
      intro key' isKey other member
      cases isKey
      exact sorted.1 _ (List.mem_map_of_mem member)

theorem checkChildren_valid {pairs : List (Bytes × Nat)} {previous : Option Bytes}
    (checked : checkChildren count previous pairs = .ok ()) : ∀ pair ∈ pairs, validRef pair.2 count := by
  induction pairs generalizing previous with
  | nil => simp
  | cons pair pairs ih =>
      obtain ⟨key, child⟩ := pair
      obtain ⟨⟨⟩, -, checked⟩ := bind_eq_ok.mp checked
      obtain ⟨⟨⟩, -, checked⟩ := bind_eq_ok.mp checked
      obtain ⟨⟨⟩, refers, checked⟩ := bind_eq_ok.mp checked
      intro other member
      rcases List.mem_cons.mp member with rfl | later
      · exact not_not.mp (refuse_eq_ok.mp refers)
      · exact ih checked other later

/-- The references that a reader of contents accepts lie inside its prefix. -/
theorem references_of_checks {tree : TreeId} {node : Node} (shape : checkInternal node = .ok ())
    (header : PageFile.checkHeader count (.node tree node) = .ok ())
    (decoded : PageFile.decodeNode count (.node tree node) = .ok node) :
    ∀ other ∈ references node, validRef other count := by
  intro other member
  cases node with
  | leaf cells =>
      obtain ⟨⟨⟩, checked, -⟩ := bind_eq_ok.mp decoded
      obtain ⟨-, -, each⟩ := BTree.checkCells_eq_ok checked
      rcases (mem_references shape).mp member with ⟨internal, -⟩ | ⟨slot, inSlots, refers⟩
      · simp [nodeKind] at internal
      · obtain ⟨cell, inCells, rfl⟩ := List.mem_map.mp inSlots
        have valid : (Slot.cell cell).Valid count := (each cell inCells).2
        exact valid.reference refers
  | internal level keys children =>
      obtain ⟨⟨⟩, -, first⟩ := bind_eq_ok.mp header
      have first := refuse_eq_ok.mp first
      simp only [not_or, not_not] at first
      obtain ⟨⟨⟩, checked, -⟩ := bind_eq_ok.mp decoded
      rcases (mem_references shape).mp member with ⟨-, rfl⟩ | ⟨slot, inSlots, refers⟩
      · exact first.2
      · obtain ⟨pair, inPairs, rfl⟩ := List.mem_map.mp inSlots
        cases refers
        exact checkChildren_valid checked pair inPairs

end Checks

section Reads

variable [Crc32c] {images : Images} {page : Nat} {tree : TreeId} {node : Node}

/-- A reader of contents accepts a node whose references lie inside its prefix. -/
theorem checks_of_holds {bytes : Bytes} {count : Nat} (size : bytes.length = pageSize)
    (holds : HoldsNode bytes page tree count node) :
    PageFile.checkHeader count (.node tree node) = .ok () ∧
      PageFile.decodeNode count (.node tree node) = .ok node := by
  obtain ⟨sorted, valid⟩ := holds.admissible size
  have accepted := holds.encodable size
  have refers := holds.validRefs size
  cases node with
  | leaf cells =>
      have checked : checkCells count none cells = .ok () :=
        checkCells_of (by simp) sorted fun cell member =>
          ⟨accepted.short _ (List.mem_map_of_mem member), valid _ (List.mem_map_of_mem member)⟩
      refine ⟨?_, by simp [PageFile.decodeNode, checked]⟩
      simp only [PageFile.checkHeader, refuse_of_not _ accepted.nonempty]
      rfl
  | internal level keys children =>
      have shape := refuse_eq_ok.mp accepted.shape
      simp only [not_or, not_not] at shape
      obtain ⟨leveled, length, -⟩ := shape
      have first : validRef (children.headD 0) count :=
        refers _ ((mem_references accepted.shape).mpr (.inl ⟨rfl, rfl⟩))
      have keysOf : (keys.zip children.tail).map Prod.fst = keys := by
        rw [List.map_fst_zip]
        simp [length]
      have checked : checkChildren count none (keys.zip children.tail) = .ok () := by
        refine checkChildren_of (by simp) ?_ fun pair member => ?_
        · rw [keysOf]
          exact sorted
        · have inSlots : Slot.child pair.1 pair.2 ∈ slots (.internal level keys children) :=
            List.mem_map_of_mem member
          exact ⟨accepted.short _ inSlots, valid _ inSlots⟩
      refine ⟨?_, by simp [PageFile.decodeNode, checked]⟩
      simp only [PageFile.checkHeader, refuse_of_not _ accepted.nonempty, ok_bind]
      exact refuse_of_not _ (not_or.mpr ⟨leveled, not_not.mpr first⟩)

/-- Reading a node from page images is reading it from their contents. -/
theorem Images.node_contents :
    images.contents.node tree page = .ok node ↔
      readNode images.pages images.pages.length tree page = .ok node := by
  rw [readNode_eq_ok]
  constructor
  · intro read
    have loaded : BTree.load images.contents tree page none = .ok node := by
      simp [BTree.load, read]
    obtain ⟨found, header, decoded, -⟩ := BTree.load_eq_ok loaded
    rw [images.pageCount_contents] at header decoded
    obtain ⟨positive, bytes, stored, isNode⟩ := Images.page?_contents.mp found
    have size := images.sized bytes (List.mem_of_getElem? stored)
    have holds := (contentOf_eq_node size).mp isNode
    refine ⟨positive, (List.getElem?_eq_some_iff.mp stored).1, bytes, stored, ?_⟩
    exact holds.recount size images.counted fun other member =>
      (references_of_checks (holds.encodable size).shape header decoded other member).2
  · rintro ⟨positive, inside, bytes, stored, holds⟩
    have size := images.sized bytes (List.mem_of_getElem? stored)
    have found := Images.page?_contents.mpr ⟨positive, bytes, stored, holds.content size images.counted⟩
    obtain ⟨header, decoded⟩ := checks_of_holds size holds
    have read : images.contents.read tree page = .ok (.node tree node) := by
      simp only [PageFile.read, found, images.pageCount_contents, header, ok_bind, pure_eq_ok]
      rw [refuse_of_not _ (by simp [Page.tree])]
      rfl
    rw [PageFile.node, read, ok_bind, images.pageCount_contents]
    exact decoded

/-- The contents of page images are nodes that fit a page. -/
theorem Images.laid (images : Images) : images.contents.Laid := by
  intro page tree node found
  obtain ⟨-, bytes, stored, isNode⟩ := Images.page?_contents.mp found
  have size := images.sized bytes (List.mem_of_getElem? stored)
  have accepted := ((contentOf_eq_node size).mp isNode).encodable size
  refine ⟨accepted.fits, ?_⟩
  cases node with
  | leaf cells => trivial
  | internal level keys children => exact children_of_shape accepted.shape _ _ _ rfl

/-- An overflow page passes its header check in every prefix that contains its
link. -/
theorem validateHeader_overflow {bytes : Bytes} {count : Nat} (overflow : uintAt 1 bytes 6 = 3) :
    validateHeader bytes page (some tree) count = .ok () ↔
      validateHeader bytes page (some tree) (2 ^ 64) = .ok () ∧
        (uintAt 8 bytes 32 ≠ 0 → validRef (uintAt 8 bytes 32) count) := by
  have large : uintAt 8 bytes 32 < 2 ^ 64 := by simpa using uintAt_lt 8 bytes 32
  have whole : uintAt 8 bytes 32 ≠ 0 → validRef (uintAt 8 bytes 32) (2 ^ 64) := fun linked => ⟨linked, large⟩
  by_cases positive : page = 0
  · simp [validateHeader, bind_eq_ok, overflow, positive]
  · simp only [validateHeader, bind_eq_ok, refuse_eq_ok, overflow, positive, OfNat.ofNat_ne_zero, false_and,
      or_self, if_false, ne_eq, not_false_eq_true, and_self, if_true, Nat.reduceEqDiff]
    constructor
    · rintro ⟨u, intact, u₁, version, u₂, identity, u₃, reserved, body⟩
      simp only [not_or, not_and, not_not] at body
      obtain ⟨level, cells, lower, upper, payload, link, rest⟩ := body
      refine ⟨⟨u, intact, u₁, version, u₂, identity, u₃, reserved, ?_⟩, link⟩
      simp only [not_or, not_and, not_not]
      exact ⟨level, cells, lower, upper, payload, whole, rest⟩
    · rintro ⟨⟨u, intact, u₁, version, u₂, identity, u₃, reserved, body⟩, link⟩
      simp only [not_or, not_and, not_not] at body
      obtain ⟨level, cells, lower, upper, payload, -, rest⟩ := body
      refine ⟨u, intact, u₁, version, u₂, identity, u₃, reserved, ?_⟩
      simp only [not_or, not_and, not_not]
      exact ⟨level, cells, lower, upper, payload, link, rest⟩

theorem readPage_eq_ok {bytes : Bytes} {pages : List Bytes} {count : Nat} :
    readPage pages count page (some tree) = .ok bytes ↔
      page ≠ 0 ∧ page < count ∧ pages[page]? = some bytes ∧
        validateHeader bytes page (some tree) count = .ok () := by
  simp only [readPage, bind_eq_ok, refuse_eq_ok]
  constructor
  · rintro ⟨-, inside, read⟩
    simp only [Option.isNone_some, ne_eq, decide_eq_false_iff_not, not_not, not_or, not_le,
      ge_iff_le] at inside
    cases found : pages[page]? with
    | none =>
        rw [found] at read
        cases read
    | some stored =>
        rw [found] at read
        obtain ⟨⟨⟩, valid, same⟩ := bind_eq_ok.mp read
        cases same
        exact ⟨inside.2, inside.1, rfl, valid⟩
  · rintro ⟨positive, inside, found, valid⟩
    refine ⟨(), by simp [positive, inside], ?_⟩
    rw [found]
    simp only [valid, ok_bind, pure_eq_ok]

/-- What the header of an overflow page says of its chunk. -/
theorem overflowHeader {bytes : Bytes} {count : Nat} (overflow : uintAt 1 bytes 6 = 3)
    (valid : validateHeader bytes page (some tree) count = .ok ()) :
    uintAt 4 bytes 16 = tree.number ∧ 1 ≤ uintAt 4 bytes 40 ∧ uintAt 4 bytes 40 ≤ payloadSize := by
  simp only [validateHeader, bind_eq_ok, refuse_eq_ok, overflow] at valid
  obtain ⟨-, -, -, -, -, identity, -, -, valid⟩ := valid
  simp only [not_or, not_not, Option.elim_some] at identity
  by_cases positive : page = 0
  · simp [positive] at valid
  · simp only [OfNat.ofNat_ne_zero, Nat.reduceEqDiff, false_and, or_self, if_false, ne_eq, positive,
      not_false_eq_true, and_self, if_true, refuse_eq_ok, not_or, not_not] at valid
    exact ⟨identity.2, valid.2.2.2.2.1⟩

/-- Reading an overflow chunk from page images is reading it from their contents. -/
theorem Images.read_overflow {link : Nat} {chunk : Bytes} :
    images.contents.read tree page = .ok (.overflow tree link chunk) ↔
      ∃ bytes, readPage images.pages images.pages.length page (some tree) = .ok bytes ∧
        uintAt 1 bytes 6 = 3 ∧ uintAt 8 bytes 32 = link ∧ slice bytes 64 (uintAt 4 bytes 40) = chunk := by
  constructor
  · intro read
    obtain ⟨found, -, checked⟩ := PageFile.read_eq_ok read
    obtain ⟨positive, bytes, stored, isContent⟩ := Images.page?_contents.mp found
    have size := images.sized bytes (List.mem_of_getElem? stored)
    have checked := refuse_eq_ok.mp checked
    simp only [not_or, not_and, not_not] at checked
    obtain ⟨filled, -, linked⟩ := checked
    rw [images.pageCount_contents] at linked
    have readable : unreadable ≠ .overflow tree link chunk := by
      intro same
      cases same
      exact filled rfl
    unfold contentOf at isContent
    split at isContent
    · exact absurd isContent readable
    · rename_i isTree
      split at isContent
      · exact absurd isContent readable
      · rename_i valid
        split_ifs at isContent with overflow
        · cases isContent
          refine ⟨bytes, readPage_eq_ok.mpr ⟨positive, (List.getElem?_eq_some_iff.mp stored).1, stored, ?_⟩,
            overflow, rfl, rfl⟩
          exact (validateHeader_overflow overflow).mpr ⟨valid, linked⟩
        · split at isContent
          · cases isContent
          · exact absurd isContent readable
  · rintro ⟨bytes, read, overflow, rfl, rfl⟩
    obtain ⟨positive, inside, stored, valid⟩ := readPage_eq_ok.mp read
    have size := images.sized bytes (List.mem_of_getElem? stored)
    obtain ⟨whole, linked⟩ := (validateHeader_overflow overflow).mp valid
    obtain ⟨isTree, filled, short⟩ := overflowHeader overflow valid
    have content : contentOf page bytes =
        .overflow tree (uintAt 8 bytes 32) (slice bytes 64 (uintAt 4 bytes 40)) := by
      simp only [contentOf, treeOf_eq_some.mpr isTree, whole, if_pos overflow]
    have found := Images.page?_contents.mpr ⟨positive, bytes, stored, content⟩
    have length : (slice bytes 64 (uintAt 4 bytes 40)).length = uintAt 4 bytes 40 := by
      rw [length_slice, size]
      unfold payloadSize headerSize at short
      omega
    simp only [PageFile.read, found, PageFile.checkHeader, length, images.pageCount_contents]
    rw [refuse_of_not _ (by simp [Page.tree]), ok_bind, refuse_of_not _ (by
      simp only [not_or, not_and, not_not]
      exact ⟨by omega, by omega, linked⟩)]
    rfl

end Reads

end BlopDb.Storage.PageCodec
