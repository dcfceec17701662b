/-
# Exact range reads

The entries of a tree are those of its leaves from left to right.  On a root that
passes validation, a seek finds the first of them at or above its key and a scan
yields those between its bounds, in increasing order; neither reports corruption.
The statement is about page images: what their bytes hold is what validation and
the reads see.
-/

import BlopDb.Storage.PageContent
import BlopDb.Storage.PageView

namespace BlopDb.Storage.BTree

open BlopDb.Lib
open PageCodec (Images)

/-- The cells of the leaves below a page of a level, from left to right. -/
def cellsBelow (file : PageFile) : Nat → Nat → List LeafCell
  | level, page =>
      match file.page? page with
      | some (.node _ (.leaf cells)) => cells
      | some (.node _ (.internal _ _ children)) =>
          match level with
          | 0 => []
          | below + 1 => children.flatMap (cellsBelow file below)
      | _ => []

/-- The cells of a tree. -/
def cellsOf (file : PageFile) (root : Nat) : List LeafCell :=
  match file.page? root with
  | some (.node _ node) => cellsBelow file node.level root
  | _ => []

/-- The entries of a tree: the keys of its cells with the bytes of their values. -/
def EntriesOf (file : PageFile) (tree : TreeId) (root : Nat) (entries : List Entry) : Prop :=
  List.Forall₂ (CellReads file tree) (cellsOf file root) entries

section Entries

variable {file : PageFile} {tree : TreeId} {level : Nat} {part : Part}

theorem cellsBelow_of_holds (holds : Holds file tree level part)
    (ordered : Ordered part.entries part.owned) :
    List.Forall₂ (CellReads file tree) (cellsBelow file level part.id) part.entries := by
  induction level generalizing part with
  | zero =>
      obtain ⟨node, found, -, cells, rfl, -, entries, owned, each⟩ := holds
      have distinct := ordered.distinct
      rw [owned, List.nodup_cons] at distinct
      rw [cellsBelow, found, entries, List.forall₂_map_left_iff, List.forall₂_map_right_iff,
        List.forall₂_same]
      intro cell member
      exact cellReads_of_holds member (each cell member) distinct.2
  | succ level ih =>
      obtain ⟨node, found, -, holds⟩ := holds
      obtain ⟨parts, rfl, -, entries, -, each⟩ := holds.children ordered
      rw [cellsBelow, found, entries, Part.entriesOf]
      simp only [List.flatMap_map]
      clear found entries holds ordered
      induction parts with
      | nil => exact .nil
      | cons child parts rest =>
          obtain ⟨held, childOrdered⟩ := each child List.mem_cons_self
          rw [List.flatMap_cons, List.flatMap_cons]
          exact List.rel_append (ih held childOrdered)
            (rest fun other member => each other (List.mem_cons_of_mem _ member))

/-- The map at a root is made of the entries of its tree. -/
theorem Rooted.entriesOf {root : Nat} {entries : List Entry} (rooted : Rooted file tree root entries) :
    EntriesOf file tree root entries := by
  rcases rooted with ⟨rfl, rfl⟩ | ⟨level, part, rfl, holds, ordered, rfl⟩
  · exact .nil
  · obtain ⟨node, found, -, nodeHolds⟩ := id holds
    have below := cellsBelow_of_holds holds ordered
    rw [EntriesOf, cellsOf, found]
    simp only
    rw [nodeHolds.level_eq]
    exact below

end Entries

/-- The bounds of a scan pass the physical key ceiling. -/
def Physical (bound : Bound Bytes) : Prop := ∀ key ∈ boundKey bound, key.length ≤ maxKey

theorem checkBound_physical {bound : Bound Bytes} (physical : Physical bound) :
    checkBound checkKey bound = .ok () := by
  cases bound with
  | unbounded => rfl
  | included key | excluded key => exact if_neg (Nat.not_lt.mpr (physical key rfl))

theorem checkBound_long {bound : Bound Bytes} (long : ¬ Physical bound) :
    checkBound checkKey bound = .error (.invalidInput "key exceeds 2066 bytes") := by
  cases bound with
  | unbounded => exact absurd (fun _ member => nomatch member) long
  | included key | excluded key =>
      apply if_pos
      by_contra short
      exact long fun other same => by
        cases same
        exact not_lt.mp short

/-- Range reads of a validated root are exact.  A seek finds the first entry at or
above its key; a scan yields the entries between its bounds in strictly increasing
order; keys above the physical ceiling are refused and corruption is never
reported. -/
theorem range_reads_exact [Crc32c] {images : Images} {tree : TreeId} {root : Nat}
    (validated : validate images.contents tree root = .ok ()) :
    ∃ entries, EntriesOf images.contents tree root entries ∧ Increasing entries ∧
      (∀ key : Bytes, key.length ≤ maxKey →
        match entries.find? fun entry => decide (key ≤ entry.1) with
        | none => seek images.contents tree root key = .ok none
        | some entry => ∃ cell, seek images.contents tree root key = .ok (some cell) ∧
            CellReads images.contents tree cell entry) ∧
      (∀ key : Bytes, ¬ key.length ≤ maxKey → seek images.contents tree root key =
        .error (.raised (.invalidInput "key exceeds 2066 bytes"))) ∧
      (∀ lower upper, Physical lower → Physical upper →
        ∃ start, scan images.contents tree root lower upper = .ok start ∧
          start.Yields ((entries.filter fun entry => lower.above entry.1 && upper.below entry.1).map .ok)) ∧
      ∀ lower upper, ¬ (Physical lower ∧ Physical upper) →
        scan images.contents tree root lower upper =
          .error (.raised (.invalidInput "key exceeds 2066 bytes")) := by
  obtain ⟨map, rooted⟩ := rooted_of_validate images.laid validated
  refine ⟨map.entries, rooted.entriesOf, map.increasing, ?_, ?_, ?_, ?_⟩
  · intro key short
    obtain ⟨found, sought, means⟩ := rooted.seeks short
    cases first : map.entries.find? fun entry => decide (key ≤ entry.1) with
    | none =>
        rw [first] at means
        rw [sought, means]
    | some entry =>
        rw [first] at means
        obtain ⟨cell, rfl, reads⟩ := means
        exact ⟨cell, sought, reads⟩
  · intro key long
    simp only [seek, checkKey, if_pos (not_le.mp long)]
    rfl
  · intro lower upper lowerShort upperShort
    exact rooted.yields (checkBound_physical lowerShort) (checkBound_physical upperShort)
  · intro lower upper long
    by_cases lowerShort : Physical lower
    · have upperLong : ¬ Physical upper := fun upperShort => long ⟨lowerShort, upperShort⟩
      simp only [scan, checkBound_physical lowerShort, checkBound_long upperLong]
      rfl
    · simp only [scan, checkBound_long lowerShort]
      rfl

section Sample

open PageCodec (oneCell oneCell_encodable oneCell_admissible layout stamp)

/-- A file of page zero and a leaf of one cell. -/
def oneLeaf : Images where
  pages := [zeros pageSize, @stamp castagnoli 1 (layout .state oneCell 0 0)]
  sized := by
    let _ := castagnoli
    intro bytes member
    rcases List.mem_cons.mp member with rfl | later
    · exact length_zeros _
    · rw [List.mem_singleton.mp later, PageCodec.stamp_layout]
      exact PageCodec.length_layout oneCell_encodable _ _ _
  nonempty := by simp
  bounded := by norm_num [maxPages]

theorem oneLeaf_contents :
    @Images.contents castagnoli oneLeaf = ⟨[.node .state oneCell], by norm_num [maxPages]⟩ := by
  let _ := castagnoli
  have valid (slot) (member : slot ∈ PageCodec.slots oneCell) : slot.Valid (2 ^ 64) := by
    obtain rfl : slot = .cell ⟨[1], .inline [7]⟩ := by simpa [oneCell, PageCodec.slots] using member
    rfl
  have admissible : PageCodec.Admissible (2 ^ 64) oneCell :=
    ⟨oneCell_admissible.sorted, oneCell_admissible.level, valid, by simp [oneCell]⟩
  obtain ⟨valid, decoded⟩ := @PageCodec.decode_stamped castagnoli 1 (2 ^ 64) .state oneCell
    oneCell_encodable admissible le_rfl (by decide) (by norm_num)
  have size : (stamp 1 (layout .state oneCell 0 0)).length = pageSize := by
    rw [PageCodec.stamp_layout]
    exact PageCodec.length_layout oneCell_encodable _ _ _
  have content := (PageCodec.contentOf_eq_node size).mpr ⟨valid, decoded⟩
  simp only [Images.contents, oneLeaf, List.tail_cons, List.mapIdx_cons, List.mapIdx_nil, Nat.zero_add,
    content]

/-- A scan of the leaf between its ends. -/
theorem oneLeaf_range_reads :
    @validate (@Images.contents castagnoli oneLeaf) .state 1 = .ok () ∧
      ∃ entries, EntriesOf (@Images.contents castagnoli oneLeaf) .state 1 entries ∧
        ∃ start, scan (@Images.contents castagnoli oneLeaf) .state 1 (.included [0]) (.excluded [2]) =
            .ok start ∧
          start.Yields ((entries.filter fun entry =>
            (Bound.included [0]).above entry.1 && (Bound.excluded [2]).below entry.1).map .ok) := by
  have validated : validate (@Images.contents castagnoli oneLeaf) .state 1 = .ok () := by
    rw [oneLeaf_contents]
    rfl
  obtain ⟨entries, of, -, -, -, scans, -⟩ := @range_reads_exact castagnoli oneLeaf .state 1 validated
  refine ⟨validated, entries, of, scans _ _ ?_ ?_⟩
  · intro key same
    cases same
    decide
  · intro key same
    cases same
    decide

/-- A key above the physical ceiling is refused, although the tree has no entry
at or above it. -/
theorem long_key_refused :
    ¬ ∀ images : Images, ∀ tree root, validate (@Images.contents castagnoli images) tree root = .ok () →
      ∀ key : Bytes, (∀ cell ∈ cellsOf (@Images.contents castagnoli images) root, ¬ key ≤ cell.key) →
        seek (@Images.contents castagnoli images) tree root key = .ok none := by
  intro always
  have sought := always oneLeaf .state 0 rfl (List.replicate 2067 0)
    (fun cell member => absurd member (by rw [oneLeaf_contents]; exact List.not_mem_nil))
  have long : (List.replicate 2067 (0 : UInt8)).length > maxKey := by
    rw [List.length_replicate]
    decide
  simp only [seek, checkKey, if_pos long] at sought
  cases sought

end Sample

end BlopDb.Storage.BTree
