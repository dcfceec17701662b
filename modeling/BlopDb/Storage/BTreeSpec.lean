/-
# What a tree holds

A part of a tree is a page with the entries below it and the pages it owns.  A
page holds a part of a level when its node is a leaf with those entries, or an
internal node over at least two parts of the level below whose separators are
their exact minima.  Pages never change, so a part stays held in every later
file.  Reading, validation and scans are specified on held parts.
-/

import BlopDb.Lib.Safe
import BlopDb.Storage.BTree

namespace BlopDb.Storage

open BlopDb.Lib

/-! ## Growing files -/

namespace PageFile

/-- A later file of the same pages. -/
def Extends (file later : PageFile) : Prop := file.pages <+: later.pages

theorem Extends.refl (file : PageFile) : file.Extends file := List.prefix_rfl

theorem Extends.trans {first second third : PageFile} (h : first.Extends second)
    (h' : second.Extends third) : first.Extends third := List.IsPrefix.trans h h'

theorem Extends.pageCount_le {file later : PageFile} (extends' : file.Extends later) :
    file.pageCount ≤ later.pageCount := by
  have := extends'.length_le
  unfold pageCount
  omega

theorem page?_eq_some {file : PageFile} {id : Nat} {page : Page} :
    file.page? id = some page ↔ id ≠ 0 ∧ file.pages[id - 1]? = some page := by
  unfold page?
  split_ifs with zero <;> simp [zero]

theorem Extends.page? {file later : PageFile} (extends' : file.Extends later) {id : Nat} {page : Page}
    (found : file.page? id = some page) : later.page? id = some page := by
  obtain ⟨positive, stored⟩ := page?_eq_some.mp found
  obtain ⟨more, grown⟩ := extends'
  refine page?_eq_some.mpr ⟨positive, ?_⟩
  rw [← grown, List.getElem?_append_left (List.getElem?_eq_some_iff.mp stored).1]
  exact stored

theorem validRef_of_page? {file : PageFile} {id : Nat} {page : Page}
    (found : file.page? id = some page) : validRef id file.pageCount := by
  obtain ⟨positive, stored⟩ := page?_eq_some.mp found
  have inside := (List.getElem?_eq_some_iff.mp stored).1
  exact ⟨positive, by unfold pageCount; omega⟩

/-- The only failure of an append: the file reaches its ceiling within a number
of pages. -/
def Full (limit : Nat) (error : Error) : Prop := error = .exhausted ∧ maxPages ≤ limit

theorem Full.mono {limit limit' : Nat} (le : limit ≤ limit') {error : Error}
    (full : Full limit error) : Full limit' error := ⟨full.1, full.2.trans le⟩

/-- Appending a page gives it the next identity. -/
theorem append_safe (file : PageFile) (page : Page) :
    Safe (raise id (file.append page))
      (fun result => result.1 = file.pageCount ∧ file.Extends result.2 ∧
        result.2.page? result.1 = some page ∧ result.2.pageCount = file.pageCount + 1)
      (Full (file.pageCount)) := by
  unfold append
  split_ifs with room
  · refine Safe.ok ⟨rfl, ⟨[page], rfl⟩, ?_, ?_⟩
    · exact page?_eq_some.mpr ⟨by simp [pageCount], by simp [pageCount]⟩
    · simp [pageCount]
  · refine Safe.raised ⟨rfl, ?_⟩
    unfold pageCount
    omega

/-! ## Stored values -/

/-- The chain from a page holds bytes, over the listed pages. -/
inductive ChainHolds (file : PageFile) (tree : TreeId) : Nat → Bytes → List Nat → Prop
  | nil : ChainHolds file tree 0 [] []
  | cons {id link : Nat} {chunk rest : Bytes} {owned : List Nat} :
      file.page? id = some (.overflow tree link chunk) → chunk ≠ [] →
      chunk.length = min (chunk.length + rest.length) payloadSize →
      ChainHolds file tree link rest owned →
      ChainHolds file tree id (chunk ++ rest) (id :: owned)

section Chains

variable {file later : PageFile} {tree : TreeId} {head : Nat} {bytes : Bytes} {owned : List Nat}

theorem ChainHolds.extend (extends' : file.Extends later)
    (holds : ChainHolds file tree head bytes owned) : ChainHolds later tree head bytes owned := by
  induction holds with
  | nil => exact .nil
  | cons found nonempty full _ ih => exact .cons (extends'.page? found) nonempty full ih

theorem ChainHolds.valid (holds : ChainHolds file tree head bytes owned) :
    ∀ id ∈ owned, validRef id file.pageCount := by
  induction holds with
  | nil => simp
  | cons found _ _ _ ih =>
      intro id member
      rcases List.mem_cons.mp member with rfl | inRest
      · exact validRef_of_page? found
      · exact ih id inRest

theorem ChainHolds.head_eq_zero (holds : ChainHolds file tree head bytes owned) :
    head = 0 ↔ bytes = [] := by
  cases holds with
  | nil => simp
  | cons found nonempty _ _ => simp [(page?_eq_some.mp found).1, nonempty]

theorem ChainHolds.head_valid (holds : ChainHolds file tree head bytes owned)
    (positive : head ≠ 0) : validRef head file.pageCount := by
  cases holds with
  | nil => exact absurd rfl positive
  | cons found _ _ _ => exact validRef_of_page? found

/-- A page of a chain is read with its links checked. -/
theorem read_overflow {link : Nat} {chunk rest : Bytes}
    (found : file.page? head = some (.overflow tree link chunk)) (nonempty : chunk ≠ [])
    (short : chunk.length ≤ payloadSize) (holds : ChainHolds file tree link rest owned) :
    file.read tree head = .ok (.overflow tree link chunk) := by
  have links : ¬ (chunk.length = 0 ∨ chunk.length > payloadSize ∨
      (link ≠ 0 ∧ ¬ validRef link file.pageCount)) := by
    rintro (empty | long | ⟨positive, outside⟩)
    · exact nonempty (List.length_eq_zero_iff.mp empty)
    · omega
    · exact outside (holds.head_valid positive)
  simp only [read, found, Page.tree, ne_eq, not_true_eq_false, refuse_false, ok_bind, checkHeader,
    refuse_of_not _ links]
  rfl

/-- Walking a chain over unowned pages returns its bytes and owns its pages. -/
theorem walkChain_of_holds (holds : ChainHolds file tree head bytes owned) {fuel : Nat}
    (enough : bytes.length ≤ fuel) {before : List Nat} (fresh : ∀ id ∈ owned, id ∉ before)
    (distinct : owned.Nodup) :
    ∃ after, file.walkChain tree fuel head bytes.length before = .ok (bytes, after) ∧
      ∀ id, id ∈ after ↔ id ∈ owned ∨ id ∈ before := by
  induction holds generalizing fuel before with
  | nil =>
      refine ⟨before, ?_, by simp⟩
      cases fuel <;> rfl
  | @cons id link chunk rest owned found nonempty full holds ih =>
      obtain ⟨notOwned, distinct⟩ := List.nodup_cons.mp distinct
      have width : 0 < chunk.length := List.length_pos_of_ne_nil nonempty
      have sizes : (chunk ++ rest).length = chunk.length + rest.length := List.length_append
      cases fuel with
      | zero => omega
      | succ fuel =>
          have freshRest : ∀ other ∈ owned, other ∉ id :: before := by
            intro other member inBefore
            rcases List.mem_cons.mp inBefore with rfl | old
            · exact notOwned member
            · exact fresh other (List.mem_cons_of_mem _ member) old
          obtain ⟨after, walked, members⟩ :=
            ih (show rest.length ≤ fuel by omega) freshRest distinct
          have rested : (chunk ++ rest).length - min (chunk ++ rest).length payloadSize =
              rest.length := by
            rw [sizes, ← full]
            omega
          have linked : (decide (link = 0)) = decide (rest.length = 0) := by
            rw [decide_eq_decide, holds.head_eq_zero, List.length_eq_zero_iff]
          refine ⟨after, ?_, ?_⟩
          · simp only [walkChain, rested]
            rw [if_neg (by omega)]
            simp only [own, refuse_of_not _ (fresh id List.mem_cons_self), ok_bind, pure_eq_ok,
              read_overflow found nonempty (by omega) holds]
            rw [refuse_of_not _ (by rw [sizes, ← full]; simp), refuse_of_not _ (by simp [linked])]
            simp only [ok_bind, walked]
          · intro other
            rw [members other]
            simp only [List.mem_cons]
            tauto

end Chains

/-- A stored value holds bytes, over the listed overflow pages. -/
def ValueHolds (file : PageFile) (tree : TreeId) (stored : StoredValue) (bytes : Bytes)
    (owned : List Nat) : Prop :=
  match stored with
  | .inline held => held = bytes ∧ bytes.length ≤ inlineLimit ∧ owned = []
  | .overflow length head => length = bytes.length ∧ inlineLimit < bytes.length ∧
      bytes.length ≤ maxValue ∧ ChainHolds file tree head bytes owned

section Values

variable {file later : PageFile} {tree : TreeId} {stored : StoredValue} {bytes : Bytes}
variable {owned : List Nat}

theorem ValueHolds.extend (extends' : file.Extends later)
    (holds : ValueHolds file tree stored bytes owned) : ValueHolds later tree stored bytes owned := by
  cases stored with
  | inline held => exact holds
  | overflow length head => exact ⟨holds.1, holds.2.1, holds.2.2.1, holds.2.2.2.extend extends'⟩

theorem ValueHolds.valid (holds : ValueHolds file tree stored bytes owned) :
    ∀ id ∈ owned, validRef id file.pageCount := by
  cases stored with
  | inline held => simp [holds.2.2]
  | overflow length head => exact holds.2.2.2.valid

theorem ValueHolds.validStored (holds : ValueHolds file tree stored bytes owned) :
    validStored file.pageCount stored = true := by
  cases stored with
  | inline held =>
      obtain ⟨rfl, short, -⟩ := holds
      simpa [PageFile.validStored] using short
  | overflow length head =>
      obtain ⟨rfl, long, short, chain⟩ := holds
      have positive : head ≠ 0 := by
        rw [ne_eq, chain.head_eq_zero]
        intro empty
        simp [empty] at long
      simp only [PageFile.validStored, Bool.and_eq_true, decide_eq_true_eq]
      exact ⟨⟨long, short⟩, chain.head_valid positive⟩

/-- A held value is read back, and validation owns its pages. -/
theorem ValueHolds.read (holds : ValueHolds file tree stored bytes owned) (distinct : owned.Nodup) :
    file.value tree stored = .ok bytes := by
  cases stored with
  | inline held =>
      obtain ⟨rfl, -⟩ := holds
      rfl
  | overflow length head =>
      obtain ⟨rfl, long, short, chain⟩ := holds
      obtain ⟨after, walked, -⟩ :=
        walkChain_of_holds chain le_rfl (show ∀ id ∈ owned, id ∉ [] by simp) distinct
      simp only [value, walkOverflow, refuse_of_not _ (show ¬ ¬ (inlineLimit + 1 ≤ bytes.length ∧
        bytes.length ≤ maxValue) by omega), ok_bind, walked, pure_eq_ok]

theorem ValueHolds.validate (holds : ValueHolds file tree stored bytes owned) {before : List Nat}
    (fresh : ∀ id ∈ owned, id ∉ before) (distinct : owned.Nodup) :
    ∃ after, file.validateValue tree before stored = .ok after ∧
      ∀ id, id ∈ after ↔ id ∈ owned ∨ id ∈ before := by
  cases stored with
  | inline held =>
      obtain ⟨-, -, rfl⟩ := holds
      exact ⟨before, rfl, by simp⟩
  | overflow length head =>
      obtain ⟨rfl, long, short, chain⟩ := holds
      obtain ⟨after, walked, members⟩ := walkChain_of_holds chain le_rfl fresh distinct
      refine ⟨after, ?_, members⟩
      simp only [validateValue, walkOverflow, refuse_of_not _ (show ¬ ¬ (inlineLimit + 1 ≤
        bytes.length ∧ bytes.length ≤ maxValue) by omega), ok_bind, walked, pure_eq_ok]

end Values

end PageFile

/-! ## Parts of a tree -/

namespace BTree

open PageFile (ValueHolds validRef nodeSize leafSize)

/-- A page with the entries below it and the pages it owns, itself first. -/
structure Part where
  /-- The page. -/
  id : Nat
  /-- The entries below it in key order. -/
  entries : List Entry
  /-- The pages of its nodes and overflow chains. -/
  owned : List Nat

namespace Part

/-- The least key of a part. -/
def min (part : Part) : Bytes := (part.entries.head?.map Prod.fst).getD []

/-- A part as its parent lists it. -/
def child (part : Part) : Child := ⟨part.id, part.min⟩

/-- The entries of parts in order. -/
def entriesOf (parts : List Part) : List Entry := parts.flatMap entries

/-- The pages of parts in order. -/
def ownedOf (parts : List Part) : List Nat := parts.flatMap owned

theorem min_mem {part : Part} (nonempty : part.entries ≠ []) :
    ∃ value, (part.min, value) ∈ part.entries := by
  obtain ⟨id, entries, owned⟩ := part
  cases entries with
  | nil => exact absurd rfl nonempty
  | cons entry entries => exact ⟨entry.2, List.mem_cons_self⟩

end Part

theorem min_le_of_mem {part : Part} (sorted : Increasing part.entries) {entry : Entry}
    (member : entry ∈ part.entries) : part.min ≤ entry.1 := by
  obtain ⟨id, entries, owned⟩ := part
  cases entries with
  | nil => cases member
  | cons first entries => exact sorted.head_le rfl member

/-- Entries with ordered short keys over distinct pages. -/
structure Ordered (entries : List Entry) (owned : List Nat) : Prop where
  increasing : Increasing entries
  short : ∀ entry ∈ entries, entry.1.length ≤ maxKey
  distinct : owned.Nodup

/-- A leaf cell with the bytes of its value and its overflow pages. -/
structure HeldCell where
  /-- The cell. -/
  cell : LeafCell
  /-- The bytes of its value. -/
  bytes : Bytes
  /-- The pages of its overflow chain. -/
  owned : List Nat

/-- The entry of a cell. -/
def HeldCell.entry (held : HeldCell) : Entry := (held.cell.key, held.bytes)

/-- The cell stores its bytes. -/
def HeldCell.Holds (file : PageFile) (tree : TreeId) (held : HeldCell) : Prop :=
  ValueHolds file tree held.cell.value held.bytes held.owned

/-- What a node of a level holds. -/
def NodeHolds (file : PageFile) (tree : TreeId) : Nat → Node → Part → Prop
  | 0, node, part => ∃ cells : List HeldCell, node = .leaf (cells.map HeldCell.cell) ∧ cells ≠ [] ∧
      part.entries = cells.map HeldCell.entry ∧
      part.owned = part.id :: cells.flatMap HeldCell.owned ∧
      ∀ cell ∈ cells, cell.Holds file tree
  | level + 1, node, part => ∃ parts : List Part, node = internal (level + 1) (parts.map Part.child) ∧
      2 ≤ parts.length ∧ part.entries = Part.entriesOf parts ∧
      part.owned = part.id :: Part.ownedOf parts ∧
      ∀ child ∈ parts, ∃ node, file.page? child.id = some (.node tree node) ∧
        nodeSize node ≤ pageSize ∧ NodeHolds file tree level node child

/-- A page holds a part of a level. -/
def Holds (file : PageFile) (tree : TreeId) (level : Nat) (part : Part) : Prop :=
  ∃ node, file.page? part.id = some (.node tree node) ∧ nodeSize node ≤ pageSize ∧
    NodeHolds file tree level node part

section Parts

variable {file later : PageFile} {tree : TreeId} {level : Nat} {node : Node} {part : Part}
variable {parts : List Part}

theorem NodeHolds.extend (extends' : file.Extends later) (holds : NodeHolds file tree level node part) :
    NodeHolds later tree level node part := by
  induction level generalizing node part with
  | zero =>
      obtain ⟨cells, same, nonempty, entries, owned, each⟩ := holds
      refine ⟨cells, same, nonempty, entries, owned, ?_⟩
      intro cell member
      exact (each cell member).extend extends'
  | succ level ih =>
      obtain ⟨parts, same, two, entries, owned, each⟩ := holds
      refine ⟨parts, same, two, entries, owned, ?_⟩
      intro child member
      obtain ⟨below, found, fits, holds⟩ := each child member
      exact ⟨below, extends'.page? found, fits, ih holds⟩

/-- Pages never change, so a part stays held. -/
theorem Holds.extend (extends' : file.Extends later) (holds : Holds file tree level part) :
    Holds later tree level part := by
  obtain ⟨node, found, fits, holds⟩ := holds
  exact ⟨node, extends'.page? found, fits, holds.extend extends'⟩

theorem Holds.validRef (holds : Holds file tree level part) : validRef part.id file.pageCount := by
  obtain ⟨node, found, -⟩ := holds
  exact PageFile.validRef_of_page? found

theorem NodeHolds.level_eq (holds : NodeHolds file tree level node part) : node.level = level := by
  cases level with
  | zero =>
      obtain ⟨cells, rfl, -⟩ := holds
      rfl
  | succ level =>
      obtain ⟨parts, rfl, -⟩ := holds
      rfl

theorem NodeHolds.nonempty (holds : NodeHolds file tree level node part) : part.entries ≠ [] := by
  induction level generalizing node part with
  | zero =>
      obtain ⟨cells, -, nonempty, entries, -, -⟩ := holds
      rw [entries, ne_eq, List.map_eq_nil_iff]
      exact nonempty
  | succ level ih =>
      obtain ⟨parts, -, two, entries, -, each⟩ := holds
      cases parts with
      | nil => simp at two
      | cons first parts =>
          obtain ⟨below, -, -, holds⟩ := each first List.mem_cons_self
          rw [entries, Part.entriesOf, List.flatMap_cons]
          exact fun empty => ih holds (List.append_eq_nil_iff.mp empty).1

theorem Holds.nonempty (holds : Holds file tree level part) : part.entries ≠ [] := by
  obtain ⟨node, -, -, holds⟩ := holds
  exact holds.nonempty

/-- A part owns its own page first. -/
theorem Holds.owned_eq (holds : Holds file tree level part) :
    ∃ rest, part.owned = part.id :: rest := by
  obtain ⟨node, -, -, holds⟩ := holds
  cases level with
  | zero =>
      obtain ⟨cells, -, -, -, owned, -⟩ := holds
      exact ⟨_, owned⟩
  | succ level =>
      obtain ⟨parts, -, -, -, owned, -⟩ := holds
      exact ⟨_, owned⟩

/-- The pages a part owns are inside the file. -/
theorem Holds.valid (holds : Holds file tree level part) :
    ∀ id ∈ part.owned, PageFile.validRef id file.pageCount := by
  induction level generalizing part with
  | zero =>
      have own := holds.validRef
      obtain ⟨node, -, -, cells, -, -, -, owned, each⟩ := holds
      intro id member
      rw [owned] at member
      rcases List.mem_cons.mp member with rfl | inCells
      · exact own
      · obtain ⟨cell, inside, inCell⟩ := List.mem_flatMap.mp inCells
        exact (each cell inside).valid id inCell
  | succ level ih =>
      have own := holds.validRef
      obtain ⟨node, -, -, parts, -, -, -, owned, each⟩ := holds
      intro id member
      rw [owned] at member
      rcases List.mem_cons.mp member with rfl | inParts
      · exact own
      · obtain ⟨child, inside, inChild⟩ := List.mem_flatMap.mp inParts
        exact ih (each child inside) id inChild

/-- A part of a level owns at least two to the level pages. -/
theorem Holds.two_pow_le (holds : Holds file tree level part) : 2 ^ level ≤ part.owned.length := by
  induction level generalizing part with
  | zero =>
      obtain ⟨node, -, -, cells, -, -, -, owned, -⟩ := holds
      simp [owned]
  | succ level ih =>
      obtain ⟨node, -, -, parts, -, two, -, owned, each⟩ := holds
      match parts, two, each with
      | first :: second :: rest, _, each =>
          have left := ih (each first (by simp))
          have right := ih (each second (by simp))
          simp only [owned, Part.ownedOf, List.flatMap_cons, List.length_cons, List.length_append]
          omega

/-- A part has no more pages than its file. -/
theorem Holds.owned_length_le (holds : Holds file tree level part) (distinct : part.owned.Nodup) :
    part.owned.length ≤ file.pages.length := by
  have subset : part.owned ⊆ List.range' 1 file.pages.length := by
    intro id member
    obtain ⟨positive, inside⟩ := holds.valid id member
    unfold PageFile.pageCount at inside
    rw [List.mem_range'_1]
    omega
  simpa using (distinct.subperm subset).length_le

/-- A held tree is shallow, because its distinct pages fit the file. -/
theorem Holds.level_lt (holds : Holds file tree level part) (distinct : part.owned.Nodup) :
    level < 48 := by
  have counted := holds.owned_length_le distinct
  have room := file.bounded
  have grown := holds.two_pow_le
  have : 2 ^ level < 2 ^ 48 := by
    unfold maxPages at room
    omega
  exact (Nat.pow_lt_pow_iff_right (by decide)).mp this

/-! ## Parts of parts -/

theorem Ordered.entries_of_mem {owned : List Nat}
    (ordered : Ordered (Part.entriesOf parts) owned) {child : Part} (member : child ∈ parts)
    (distinct : child.owned.Nodup) : Ordered child.entries child.owned := by
  have inside : ∀ entry ∈ child.entries, entry ∈ Part.entriesOf parts :=
    fun entry inChild => List.mem_flatMap.mpr ⟨child, member, inChild⟩
  exact ⟨(List.pairwise_flatMap.mp ordered.increasing).1 child member,
    fun entry inChild => ordered.short entry (inside entry inChild), distinct⟩

theorem Ordered.child {id : Nat}
    (ordered : Ordered (Part.entriesOf parts) (id :: Part.ownedOf parts)) {child : Part}
    (member : child ∈ parts) : Ordered child.entries child.owned := by
  apply ordered.entries_of_mem member
  exact (List.nodup_flatMap.mp (List.nodup_cons.mp ordered.distinct).2).1 child member

/-- Parts with ordered entries are ordered as wholes. -/
theorem pairwise_parts (increasing : Increasing (Part.entriesOf parts)) :
    parts.Pairwise fun left right => ∀ entry ∈ left.entries, ∀ other ∈ right.entries,
      entry.1 < other.1 :=
  (List.pairwise_flatMap.mp increasing).2

theorem pairwise_mins (increasing : Increasing (Part.entriesOf parts))
    (nonempty : ∀ part ∈ parts, part.entries ≠ []) :
    (parts.map Part.min).Pairwise (· < ·) := by
  rw [List.pairwise_map]
  refine (pairwise_parts increasing).imp_of_mem ?_
  intro left right inLeft inRight less
  obtain ⟨value, member⟩ := Part.min_mem (nonempty left inLeft)
  obtain ⟨value', member'⟩ := Part.min_mem (nonempty right inRight)
  exact less _ member _ member'

end Parts

end BTree

end BlopDb.Storage
