/-
# Trees refine ordered maps

A root stands for an ordered map when it is zero for the empty map, or the page
of a held part with the entries of the map.  Such a root validates, and reads as
the map.  Every put and delete takes a root of a map to a root of the changed
map in a larger file, where all earlier roots stand for their earlier maps, and
fails only when the file is full.
-/

import BlopDb.Storage.BTreeScan
import BlopDb.Storage.BTreeUpdate

namespace BlopDb.Storage.BTree

open BlopDb.Lib
open PageFile (Full)

/-- A root stands for an ordered map. -/
def Rooted (file : PageFile) (tree : TreeId) (root : Nat) (entries : List Entry) : Prop :=
  (root = 0 ∧ entries = []) ∨ ∃ (level : Nat) (part : Part), part.id = root ∧
    Holds file tree level part ∧ Ordered part.entries part.owned ∧ part.entries = entries

/-- A root validates and reads as an ordered map. -/
structure Reads (file : PageFile) (tree : TreeId) (root : Nat) (map : Tree) : Prop where
  validates : validate file tree root = .ok ()
  gets : ∀ key : Bytes, key.length ≤ maxKey → get file tree root key = .ok (map.find? key)
  scans : ∃ start, BTree.scan file tree root .unbounded .unbounded = .ok start ∧
    start.Yields (map.entries.map .ok)

section Reading

variable {file later : PageFile} {tree : TreeId} {root : Nat} {entries : List Entry} {map : Tree}

theorem Rooted.extend (grows : file.Extends later) (rooted : Rooted file tree root entries) :
    Rooted later tree root entries := by
  rcases rooted with empty | ⟨level, part, isRoot, holds, ordered, same⟩
  · exact .inl empty
  · exact .inr ⟨level, part, isRoot, holds.extend grows, ordered, same⟩

/-- A root of a map validates and reads as the map. -/
theorem Rooted.reads (rooted : Rooted file tree root map.entries) : Reads file tree root map := by
  rcases rooted with ⟨rfl, empty⟩ | ⟨level, part, rfl, holds, ordered, same⟩
  · refine ⟨rfl, ?_, ?_⟩
    · intro key short
      have fits : checkKey key = .ok () := if_neg (Nat.not_lt.mpr short)
      simp [get, fits, OrdMap.find?, empty, lookupEntry]
    · rw [empty]
      exact ⟨_, rfl, .stop rfl⟩
  · have positive : part.id ≠ 0 := holds.validRef.1
    obtain ⟨node, loaded, ⟨isLevel, -⟩, nodeHolds⟩ :=
      load_of_holds holds ordered none (by simp)
    refine ⟨?_, ?_, ?_⟩
    · obtain ⟨rest, owned⟩ := holds.owned_eq
      have fresh : Fresh (part.id :: rest) [] := ⟨owned ▸ ordered.distinct, by simp⟩
      obtain ⟨owns, grown⟩ := own_of_fresh fresh
      have freshRest : Fresh part.owned.tail [part.id] := by
        rw [owned]
        exact Fresh.right (show Fresh ([part.id] ++ rest) [] from fresh) grown
      obtain ⟨after, validated, -⟩ := validateNode_of_holds nodeHolds ordered freshRest
      simp only [validate, positive, if_false, owns, loaded, raise_ok, ok_bind, isLevel, validated,
        pure_eq_ok]
    · intro key short
      have fits : checkKey key = .ok () := if_neg (Nat.not_lt.mpr short)
      simp only [get, fits, positive, if_false, loaded, raise_ok, ok_bind, isLevel,
        getNode_of_holds nodeHolds ordered key, OrdMap.find?, same]
    · obtain ⟨start, started, yields⟩ := scan_of_holds holds ordered
        (show checkBound checkKey .unbounded = .ok () from rfl)
        (show checkBound checkKey .unbounded = .ok () from rfl)
      refine ⟨start, started, ?_⟩
      rw [← same]
      simpa [Bound.above, Bound.below] using yields

end Reading

/-! ## Calls -/

/-- The most pages that a call takes. -/
def callPages : Nat := 8500

section Calls

variable {file : PageFile} {tree : TreeId} {root : Nat} {entries : List Entry} {key : Bytes}
variable {value : Option Bytes}

/-- What a call returns: a root of the changed entries in a later file. -/
def Changes (file : PageFile) (tree : TreeId) (entries : List Entry) (key : Bytes)
    (value : Option Bytes) (result : Nat × PageFile) : Prop :=
  file.Extends result.2 ∧ Rooted result.2 tree result.1 (changeEntry key value entries) ∧
    result.2.pageCount ≤ file.pageCount + callPages

/-- The changed entries of a tree keep their order and short keys. -/
theorem Written.ordered {level : Nat} {old : List Nat} {after : PageFile} {part : Part}
    (increasing : Increasing entries) (short : ∀ entry ∈ entries, entry.1.length ≤ maxKey)
    (written : Written file tree level old entries after [part]) :
    Ordered part.entries part.owned := by
  have same : part.entries = entries := by simpa [Part.entriesOf] using written.entries
  refine ⟨same ▸ increasing, same ▸ short, ?_⟩
  simpa [Part.ownedOf] using written.distinct

/-- A new root over the two halves of a split one. -/
theorem newRoot_safe {level : Nat} {old : List Nat} {middle : PageFile} {first second : Part}
    (increasing : Increasing entries) (short : ∀ entry ∈ entries, entry.1.length ≤ maxKey)
    (written : Written file tree level old entries middle [first, second]) :
    Safe (raise id (middle.appendNode tree (internal (level + 1) [first.child, second.child])))
      (fun result => middle.Extends result.2 ∧ Rooted result.2 tree result.1 entries ∧
        result.2.pageCount = middle.pageCount + 1)
      (Full middle.pageCount) := by
  obtain ⟨-, holds, same, -, distinct⟩ := written
  subst same
  have mins := min_short short holds
  have small : headerSize + separatorSize [first, second] ≤ pageSize := by
    have all := separatorSize_le [first, second]
    have bound := fullSize_le mins
    simp only [List.length_cons, List.length_nil] at bound
    unfold headerSize pageSize
    omega
  have fits : InternalFits middle tree level [first, second] := ⟨by simp, small, mins, holds⟩
  refine (appendNode_internal fits).weaken ?_
  rintro ⟨page, after⟩ ⟨rfl, grows, counted, rooted⟩
  refine ⟨grows, .inr ⟨level + 1, _, rfl, rooted, ⟨increasing, short, ?_⟩, rfl⟩, counted⟩
  refine List.nodup_cons.mpr ⟨?_, distinct⟩
  intro member
  obtain ⟨part, inside, owned⟩ := List.mem_flatMap.mp member
  exact absurd ((holds part inside).valid _ owned).2 (lt_irrefl _)

theorem finish_safe {level : Nat} {part : Part} (keyShort : key.length ≤ maxKey)
    (valueShort : ∀ bytes ∈ value, bytes.length ≤ maxValue) (holds : Holds file tree level part)
    (ordered : Ordered part.entries part.owned) :
    Safe (finish file tree part.id key value) (Changes file tree part.entries key value)
      (Full (file.pageCount + callPages)) := by
  have shallow := holds.level_lt ordered.distinct
  have increasing := ordered.increasing.changeEntry key value
  have short : ∀ entry ∈ changeEntry key value part.entries, entry.1.length ≤ maxKey := by
    intro entry member
    rcases mem_changeEntry member with ⟨stored, -, rfl⟩ | old
    · exact keyShort
    · exact ordered.short entry old
  obtain ⟨node, loaded, ⟨isLevel, fits⟩, nodeHolds⟩ :=
    load_of_holds holds ordered none (by simp)
  rw [finish, loaded, raise_ok, ok_bind, isLevel]
  refine Safe.bind ((updateNode_safe keyShort valueShort nodeHolds fits ordered).mono (fun _ => id)
    fun _ => Full.mono (by unfold updatePages valuePages callPages; omega)) ?_
  rintro ⟨edit, middle⟩ ⟨grows, counted, updated⟩
  have counted : middle.pageCount ≤ file.pageCount + updatePages level := counted
  have few : middle.pageCount + 1 ≤ file.pageCount + callPages := by
    unfold updatePages valuePages at counted
    unfold callPages
    omega
  cases edit with
  | none =>
      refine Safe.ret ⟨grows, .inr ⟨level, part, rfl, holds.extend grows, ordered, ?_⟩,
        (Nat.le_succ _).trans few⟩
      exact (show changeEntry key value part.entries = part.entries from updated).symm
  | some edit =>
      obtain ⟨editLevel, children⟩ := edit
      obtain ⟨parts, ⟨rfl, replacement⟩, written⟩ := updated
      match parts, replacement, written with
      | [], _, written =>
          exact Safe.ret ⟨grows, .inl ⟨rfl, written.entries.symm⟩, (Nat.le_succ _).trans few⟩
      | [only], _, written =>
          refine Safe.ret ⟨grows, .inr ⟨editLevel, only, rfl, written.holds only (by simp),
            written.ordered increasing short, ?_⟩, (Nat.le_succ _).trans few⟩
          simpa [Part.entriesOf] using written.entries
      | first :: second :: rest, replacement, written =>
          obtain ⟨rfl, two, -⟩ : editLevel = level ∧ (first :: second :: rest).length ≤ 2 ∧ _ :=
            replacement.resolve_right fun collapsed => by simp at collapsed
          obtain rfl : rest = [] := by simpa using two
          have shallowEnough : ¬ editLevel ≥ 255 := by omega
          simp only [List.map_cons, List.map_nil, refuse_of_not _ shallowEnough, raise_ok, ok_bind]
          refine (newRoot_safe increasing short written).mono ?_
            fun _ => Full.mono ((Nat.le_succ _).trans few)
          rintro ⟨page, after⟩ ⟨grows', rooted, counted'⟩
          exact ⟨grows.trans grows', rooted, counted'.trans_le few⟩

/-- Changing a key of a root of entries. -/
theorem put_safe {bytes : Bytes} (keyShort : key.length ≤ maxKey)
    (valueShort : bytes.length ≤ maxValue) (rooted : Rooted file tree root entries) :
    Safe (put file tree root key bytes) (Changes file tree entries key (some bytes))
      (Full (file.pageCount + callPages)) := by
  have fits : checkKey key = .ok () := if_neg (Nat.not_lt.mpr keyShort)
  have allowed : ¬ bytes.length > maxValue := Nat.not_lt.mpr valueShort
  rw [put, fits, refuse_of_not _ allowed, raise_ok, ok_bind, ok_bind]
  rcases rooted with ⟨rfl, rfl⟩ | ⟨level, part, rfl, holds, ordered, rfl⟩
  · rw [if_pos rfl]
    refine Safe.bind ((storeValue_safe valueShort).mono (fun _ => id)
      fun _ => Full.mono (by unfold valuePages callPages; omega)) ?_
    rintro ⟨stored, middle⟩ ⟨grows, counted, owned, valueHolds, distinct, fresh⟩
    have counted : middle.pageCount ≤ file.pageCount + valuePages := counted
    have room : middle.pageCount + 1 ≤ file.pageCount + callPages := by
      unfold valuePages at counted
      unfold callPages
      omega
    have leaf : LeafFits middle tree [⟨⟨key, stored⟩, bytes, owned⟩] := by
      refine ⟨by simp, ?_, by simpa using keyShort, by simpa [HeldCell.Holds] using valueHolds⟩
      have small : PageFile.leafSize ⟨key, stored⟩ ≤ 3110 :=
        @leafSize_le middle tree ⟨⟨key, stored⟩, bytes, owned⟩ keyShort valueHolds
      simp only [List.map_cons, List.map_nil, List.sum_cons, List.sum_nil]
      unfold headerSize pageSize
      omega
    refine (appendNode_leaf leaf).mono ?_ fun _ => Full.mono (by omega)
    rintro ⟨page, after⟩ ⟨rfl, grows', counted', holds⟩
    refine ⟨grows.trans grows', .inr ⟨0, _, rfl, holds, ⟨?_, ?_, ?_⟩, rfl⟩, counted'.trans_le room⟩
    · simp [leafPart, Increasing]
    · simpa [leafPart, HeldCell.entry] using keyShort
    · simp only [leafPart, List.flatMap_cons, List.flatMap_nil, List.append_nil]
      refine List.nodup_cons.mpr ⟨?_, distinct⟩
      intro member
      exact absurd (valueHolds.valid _ member).2 (lt_irrefl _)
  · rw [if_neg holds.validRef.1]
    exact finish_safe keyShort (by simpa using valueShort) holds ordered

theorem delete_safe (keyShort : key.length ≤ maxKey) (rooted : Rooted file tree root entries) :
    Safe (delete file tree root key) (Changes file tree entries key none)
      (Full (file.pageCount + callPages)) := by
  have fits : checkKey key = .ok () := if_neg (Nat.not_lt.mpr keyShort)
  rw [delete, fits, raise_ok, ok_bind]
  rcases rooted with ⟨rfl, rfl⟩ | ⟨level, part, rfl, holds, ordered, rfl⟩
  · rw [if_pos rfl]
    exact Safe.ret ⟨.refl _, .inl ⟨rfl, rfl⟩, Nat.le_add_right _ _⟩
  · rw [if_neg holds.validRef.1]
    exact finish_safe keyShort (by simp) holds ordered

end Calls

/-! ## Runs -/

/-- A call that edits a tree. -/
inductive Op
  | put (key value : Bytes)
  | delete (key : Bytes)

namespace Op

/-- The key and value of a call are within their ceilings. -/
def InRange : Op → Prop
  | put key value => key.length ≤ maxKey ∧ value.length ≤ maxValue
  | delete key => key.length ≤ maxKey

/-- The call on a root. -/
def call (file : PageFile) (tree : TreeId) (root : Nat) : Op → Except (Fault Error) (Nat × PageFile)
  | put key value => BTree.put file tree root key value
  | delete key => BTree.delete file tree root key

/-- The same operation on an ordered map. -/
def apply (map : Tree) : Op → Tree
  | put key value => map.insert key value
  | delete key => map.erase key

end Op

/-- The roots after each of a sequence of calls, each on the root before it. -/
def run (tree : TreeId) : List Op → PageFile → Nat → Except (Fault Error) (List Nat × PageFile)
  | [], file, _ => return ([], file)
  | op :: ops, file, root => do
      let (root, file) ← op.call file tree root
      let (roots, file) ← run tree ops file root
      return (root :: roots, file)

/-- The ordered maps after each of a sequence of operations. -/
def maps : List Op → Tree → List Tree
  | [], _ => []
  | op :: ops, map => op.apply map :: maps ops (op.apply map)

section Runs

variable {file : PageFile} {tree : TreeId} {root : Nat} {map : Tree}

theorem call_safe {op : Op} (inRange : op.InRange) (rooted : Rooted file tree root map.entries) :
    Safe (op.call file tree root)
      (fun result => file.Extends result.2 ∧
        Rooted result.2 tree result.1 (op.apply map).entries ∧
        result.2.pageCount ≤ file.pageCount + callPages)
      (Full (file.pageCount + callPages)) := by
  cases op with
  | put key value => exact put_safe inRange.1 inRange.2 rooted
  | delete key => exact delete_safe inRange rooted

theorem run_safe {ops : List Op} (inRange : ∀ op ∈ ops, op.InRange)
    (rooted : Rooted file tree root map.entries) :
    Safe (run tree ops file root)
      (fun result => file.Extends result.2 ∧
        List.Forall₂ (fun root map => Rooted result.2 tree root (OrdMap.entries map)) result.1
          (maps ops map))
      (Full (file.pageCount + callPages * ops.length)) := by
  induction ops generalizing file root map with
  | nil => exact Safe.ret ⟨.refl _, .nil⟩
  | cons op ops ih =>
      rw [run]
      refine Safe.bind ((call_safe (inRange op List.mem_cons_self) rooted).mono (fun _ => id)
        fun _ => Full.mono (by rw [List.length_cons, Nat.mul_succ]; omega)) ?_
      rintro ⟨root, middle⟩ ⟨grows, rooted, counted⟩
      have counted : middle.pageCount ≤ file.pageCount + callPages := counted
      refine Safe.bind ((ih (fun op member => inRange op (List.mem_cons_of_mem _ member))
        rooted).mono (fun _ => id)
        fun _ => Full.mono (by rw [List.length_cons, Nat.mul_succ]; omega)) ?_
      rintro ⟨roots, after⟩ ⟨grows', each⟩
      exact Safe.ret ⟨grows.trans grows', .cons (rooted.extend grows') each⟩

/-- Every sequence of calls from the empty tree succeeds unless the file is full,
and then every root on the way validates and reads as its ordered map. -/
theorem run_refines (tree : TreeId) (file : PageFile) (ops : List Op)
    (inRange : ∀ op ∈ ops, op.InRange) :
    Safe (run tree ops file 0)
      (fun result => List.Forall₂ (Reads result.2 tree) (0 :: result.1) (∅ :: maps ops ∅))
      (fun error => error = .exhausted ∧ maxPages ≤ file.pageCount + callPages * ops.length) := by
  have empty : Rooted file tree 0 (∅ : Tree).entries := .inl ⟨rfl, rfl⟩
  refine (run_safe inRange empty).weaken ?_
  rintro ⟨roots, after⟩ ⟨grows, each⟩
  refine .cons (empty.extend grows).reads ?_
  exact each.imp fun root map rooted => rooted.reads

/-- A put, an overwrite and a delete on an empty file. -/
theorem run_refines_three :
    Safe (run .state [.put [1] [2], .put [1] [3], .delete [1]] ⟨[], by decide⟩ 0)
      (fun result => List.Forall₂ (Reads result.2 .state) (0 :: result.1)
        (∅ :: maps [.put [1] [2], .put [1] [3], .delete [1]] ∅))
      (fun error => error = .exhausted ∧ maxPages ≤ 1 + callPages * 3) :=
  run_refines .state ⟨[], by decide⟩ [.put [1] [2], .put [1] [3], .delete [1]] (by
    simp [Op.InRange, maxKey, maxValue])

end Runs

end BlopDb.Storage.BTree
