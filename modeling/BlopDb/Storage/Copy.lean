/-
# Copying a tree

Compaction writes the reachable nodes of a tree into a new file, children before
their parent and overflow chains before their leaf.  The copy of a root of a map
is a root of the same map: every value keeps its stored form, so every node keeps
its size and its separators.
-/

import BlopDb.Storage.BTreeRefines

namespace BlopDb.Storage

open BlopDb.Lib
open PageFile (Full leafSize)

/-- Make a step for each item in order, threading a state. -/
def thread {α β σ ε : Type} (step : α → σ → Except ε (β × σ)) : List α → σ → Except ε (List β × σ)
  | [], state => .ok ([], state)
  | item :: items, state => do
      let (result, state) ← step item state
      let (results, state) ← thread step items state
      return (result :: results, state)

namespace BTree

/-- Copy a leaf cell with its value. -/
def copyCell (reader : PageFile) (tree : TreeId) (cell : LeafCell) (pages : PageFile) :
    Except (Fault Error) (LeafCell × PageFile) := do
  let bytes ← raise id (reader.value tree cell.value)
  let (value, pages) ← raise id (pages.storeValue tree bytes)
  return (⟨cell.key, value⟩, pages)

/-- Copy the nodes below a root into another file.  The fuel bounds the height of
the tree. -/
def copyNode (reader : PageFile) (tree : TreeId) :
    Nat → Nat → PageFile → Except (Fault Error) (Nat × PageFile)
  | 0, _, _ => throw .panic
  | fuel + 1, root, pages =>
      if root = 0 then return (0, pages)
      else do
        match ← raise id (reader.node tree root) with
        | .leaf cells => do
            let (cells, pages) ← thread (copyCell reader tree) cells pages
            raise id (pages.appendNode tree (.leaf cells))
        | .internal level keys children => do
            let (children, pages) ← thread (copyNode reader tree fuel) children pages
            raise id (pages.appendNode tree (.internal level keys children))

/-- Copy a tree into another file. -/
def copyTree (reader pages : PageFile) (tree : TreeId) (root : Nat) :
    Except (Fault Error) (Nat × PageFile) :=
  copyNode reader tree reader.pageCount root pages

/-! ## Pieces of a copy -/

/-- What a copy of pieces leaves: pieces of the same meaning, held in the grown
file over distinct pages that are all new. -/
structure Copied {γ : Type} (same : γ → γ → Prop) (holds : PageFile → γ → Prop) (owned : γ → List Nat)
    (pages : PageFile) (pieces : List γ) (after : PageFile) (copies : List γ) : Prop where
  grows : pages.Extends after
  same : List.Forall₂ same copies pieces
  holds : ∀ copy ∈ copies, holds after copy
  distinct : (copies.flatMap owned).Nodup
  fresh : ∀ id ∈ copies.flatMap owned, pages.pageCount ≤ id ∧ id < after.pageCount

section Pieces

variable {γ α : Type} {same : γ → γ → Prop} {holds : PageFile → γ → Prop} {owned : γ → List Nat}
variable {pages middle after : PageFile} {piece copy : γ} {pieces copies : List γ}

/-- A copy of one piece and then of the others. -/
theorem Copied.cons (extend : ∀ {file later : PageFile} {piece : γ}, file.Extends later →
      holds file piece → holds later piece)
    (first : Copied same holds owned pages [piece] middle [copy])
    (rest : Copied same holds owned middle pieces after copies) :
    Copied same holds owned pages (piece :: pieces) after (copy :: copies) := by
  have before := first.grows.pageCount_le
  have later := rest.grows.pageCount_le
  have fresh := first.fresh
  have distinct := first.distinct
  rw [List.flatMap_singleton] at fresh distinct
  refine ⟨first.grows.trans rest.grows, ?_, ?_, ?_, ?_⟩
  · cases first.same with
    | cons same _ => exact .cons same rest.same
  · intro copied member
    rcases List.mem_cons.mp member with rfl | inRest
    · exact extend rest.grows (first.holds _ List.mem_cons_self)
    · exact rest.holds copied inRest
  · rw [List.flatMap_cons, List.nodup_append]
    refine ⟨distinct, rest.distinct, ?_⟩
    rintro id inFirst other inRest rfl
    have := (fresh id inFirst).2
    have := (rest.fresh id inRest).1
    omega
  · intro id member
    rw [List.flatMap_cons, List.mem_append] at member
    rcases member with inFirst | inRest
    · have := fresh id inFirst
      omega
    · have := rest.fresh id inRest
      omega

/-- Copying each piece copies them all. -/
theorem thread_safe {code : γ → α} {step : α → PageFile → Except (Fault Error) (α × PageFile)}
    (each : ∀ piece ∈ pieces, ∀ pages, Safe (step (code piece) pages)
      (fun result => ∃ copy, result.1 = code copy ∧
        Copied same holds owned pages [piece] result.2 [copy]) (fun error => error = .exhausted))
    (extend : ∀ {file later : PageFile} {piece : γ}, file.Extends later → holds file piece →
      holds later piece) (pages : PageFile) :
    Safe (thread step (pieces.map code) pages)
      (fun result => ∃ copies, result.1 = copies.map code ∧
        Copied same holds owned pages pieces result.2 copies) (fun error => error = .exhausted) := by
  induction pieces generalizing pages with
  | nil =>
      refine Safe.ok ⟨[], rfl, .refl _, .nil, ?_, List.nodup_nil, ?_⟩
      · exact fun _ member => nomatch member
      · exact fun _ member => nomatch member
  | cons piece pieces ih =>
      rw [List.map_cons, thread]
      refine Safe.bind (each piece List.mem_cons_self pages) ?_
      rintro ⟨_, middle⟩ ⟨copy, rfl, first⟩
      refine Safe.bind (ih (fun piece member => each piece (List.mem_cons_of_mem _ member)) middle) ?_
      rintro ⟨_, after⟩ ⟨copies, rfl, rest⟩
      exact Safe.ret ⟨copy :: copies, rfl, first.cons extend rest⟩

end Pieces

/-! ## Leaves -/

section Leaves

variable {reader : PageFile} {tree : TreeId}

/-- Cells with one entry that take as much of a leaf. -/
def SameCell (copied held : HeldCell) : Prop :=
  copied.entry = held.entry ∧ leafSize copied.cell = leafSize held.cell

/-- A stored value takes as much of its leaf in any file. -/
theorem leafSize_eq {file file' : PageFile} {key bytes : Bytes} {stored stored' : StoredValue}
    {owned owned' : List Nat} (holds : PageFile.ValueHolds file tree stored bytes owned)
    (holds' : PageFile.ValueHolds file' tree stored' bytes owned') :
    leafSize ⟨key, stored⟩ = leafSize ⟨key, stored'⟩ := by
  cases stored with
  | inline held =>
      cases stored' with
      | inline held' =>
          obtain ⟨rfl, -⟩ := holds
          obtain ⟨rfl, -⟩ := holds'
          rfl
      | overflow length head => exact absurd holds.2.1 (not_le.mpr holds'.2.1)
  | overflow length head =>
      cases stored' with
      | inline held' => exact absurd holds'.2.1 (not_le.mpr holds.2.1)
      | overflow length' head' => rfl

theorem HeldCell.Holds.short {held : HeldCell} (holds : held.Holds reader tree) :
    held.bytes.length ≤ maxValue := by
  obtain ⟨⟨key, stored⟩, bytes, owned⟩ := held
  cases stored with
  | inline value => exact holds.2.1.trans (by decide)
  | overflow length head => exact holds.2.2.1

theorem copyCell_safe {held : HeldCell} (holds : held.Holds reader tree) (distinct : held.owned.Nodup)
    (pages : PageFile) :
    Safe (copyCell reader tree held.cell pages)
      (fun result => ∃ copy, result.1 = HeldCell.cell copy ∧
        Copied SameCell (fun file held => held.Holds file tree) HeldCell.owned pages [held] result.2
          [copy])
      (fun error => error = .exhausted) := by
  have read : reader.value tree held.cell.value = .ok held.bytes := PageFile.ValueHolds.read holds distinct
  rw [copyCell, read, raise_ok, ok_bind]
  refine Safe.bind ((storeValue_safe holds.short).mono (fun _ => id) fun error full => full.1) ?_
  rintro ⟨value, after⟩ ⟨grows, -, owned, stored, nodup, fresh⟩
  refine Safe.ret ⟨⟨⟨held.cell.key, value⟩, held.bytes, owned⟩, rfl, grows, ?_, ?_, ?_, ?_⟩
  · exact .cons ⟨rfl, leafSize_eq stored holds⟩ .nil
  · intro copy member
    obtain rfl := List.mem_singleton.mp member
    exact stored
  · rw [List.flatMap_singleton]
    exact nodup
  · rw [List.flatMap_singleton]
    exact fun id member => ⟨fresh id member, (PageFile.ValueHolds.valid stored id member).2⟩

end Leaves

/-! ## Nodes -/

section Nodes

variable {reader : PageFile} {tree : TreeId}

/-- Parts with the same entries. -/
def SamePart (copied part : Part) : Prop := copied.entries = part.entries

theorem entriesOf_of_same {parts copies : List Part} (same : List.Forall₂ SamePart copies parts) :
    Part.entriesOf copies = Part.entriesOf parts := by
  induction same with
  | nil => rfl
  | cons first _ ih => rw [entriesOf_cons, entriesOf_cons, ih, first]

theorem mins_of_same {parts copies : List Part} (same : List.Forall₂ SamePart copies parts) :
    copies.map Part.min = parts.map Part.min := by
  induction same with
  | nil => rfl
  | cons first _ ih => rw [List.map_cons, List.map_cons, ih, Part.min, Part.min, first]

theorem cells_of_same {cells copies : List HeldCell} (same : List.Forall₂ SameCell copies cells) :
    copies.map HeldCell.entry = cells.map HeldCell.entry ∧
      (copies.map fun held => leafSize held.cell) = cells.map fun held => leafSize held.cell := by
  induction same with
  | nil => exact ⟨rfl, rfl⟩
  | cons first _ ih =>
      rw [List.map_cons, List.map_cons, List.map_cons, List.map_cons, ih.1, ih.2, first.1, first.2]
      exact ⟨rfl, rfl⟩

/-- A new node over copied pieces is one copied piece. -/
theorem copied_node {γ : Type} {same : γ → γ → Prop} {holds : PageFile → γ → Prop}
    {owned : γ → List Nat} {pages middle after : PageFile} {pieces copies : List γ} {part copy : Part}
    {level : Nat} (copied : Copied same holds owned pages pieces middle copies)
    (grows : middle.Extends after) (counted : after.pageCount = middle.pageCount + 1)
    (held : Holds after tree level copy) (entries : copy.entries = part.entries)
    (isOwned : copy.owned = middle.pageCount :: copies.flatMap owned) :
    Copied SamePart (fun file part => Holds file tree level part) Part.owned pages [part] after
      [copy] := by
  have before := copied.grows.pageCount_le
  refine ⟨copied.grows.trans grows, .cons entries .nil, ?_, ?_, ?_⟩
  · intro other member
    obtain rfl := List.mem_singleton.mp member
    exact held
  · rw [List.flatMap_singleton, isOwned, List.nodup_cons]
    exact ⟨fun member => absurd (copied.fresh _ member).2 (lt_irrefl _), copied.distinct⟩
  · intro id member
    rw [List.flatMap_singleton, isOwned, List.mem_cons] at member
    rcases member with rfl | inside
    · omega
    · have := copied.fresh id inside
      omega

/-- The copy of a held part is a part of the same entries over new pages. -/
theorem copyNode_safe {level fuel : Nat} (enough : level < fuel) {part : Part}
    (held : Holds reader tree level part) (ordered : Ordered part.entries part.owned)
    (pages : PageFile) :
    Safe (copyNode reader tree fuel part.id pages)
      (fun result => ∃ copy, result.1 = Part.id copy ∧
        Copied SamePart (fun file part => Holds file tree level part) Part.owned pages [part] result.2
          [copy])
      (fun error => error = .exhausted) := by
  induction level generalizing fuel part pages with
  | zero =>
      obtain ⟨fuel, rfl⟩ := Nat.exists_eq_succ_of_ne_zero (show fuel ≠ 0 by omega)
      have positive : part.id ≠ 0 := held.validRef.1
      obtain ⟨node, found, size, holds⟩ := held
      have read := node_of_holds found holds ordered
      obtain ⟨cells, rfl, nonempty, entries, owned, each⟩ := holds
      have distinct : (cells.flatMap HeldCell.owned).Nodup := by
        have := ordered.distinct
        rw [owned, List.nodup_cons] at this
        exact this.2
      rw [copyNode, if_neg positive, read, raise_ok, ok_bind]
      refine Safe.bind (thread_safe (fun cell member pages => copyCell_safe (each cell member)
        ((List.nodup_flatMap.mp distinct).1 cell member) pages)
        (fun grows holds => PageFile.ValueHolds.extend grows holds) pages) ?_
      rintro ⟨_, middle⟩ ⟨copies, rfl, copied⟩
      obtain ⟨sameEntries, sameSizes⟩ := cells_of_same copied.same
      have fits : LeafFits middle tree copies := by
        refine ⟨?_, ?_, ?_, copied.holds⟩
        · rintro rfl
          exact nonempty (List.map_eq_nil_iff.mp sameEntries.symm)
        · rw [sameSizes]
          simpa [PageFile.nodeSize, Function.comp_def] using size
        · intro held member
          have inside : held.entry ∈ part.entries := by
            rw [entries, ← sameEntries]
            exact List.mem_map_of_mem member
          exact ordered.short _ inside
      refine ((appendNode_leaf fits).mono ?_ fun error full => full.1)
      rintro ⟨page, after⟩ ⟨rfl, grows, counted, held⟩
      refine ⟨leafPart middle.pageCount copies, rfl, ?_⟩
      exact copied_node copied grows counted held (sameEntries.trans entries.symm) rfl
  | succ level ih =>
      obtain ⟨fuel, rfl⟩ := Nat.exists_eq_succ_of_ne_zero (show fuel ≠ 0 by omega)
      have positive : part.id ≠ 0 := held.validRef.1
      obtain ⟨node, found, size, holds⟩ := held
      have read := node_of_holds found holds ordered
      obtain ⟨parts, rfl, two, entries, owned, each⟩ := NodeHolds.children holds ordered
      rw [copyNode, if_neg positive, read, raise_ok, ok_bind]
      refine Safe.bind (thread_safe (fun child member pages => ih (Nat.lt_of_succ_lt_succ enough)
        (each child member).1 (each child member).2 pages)
        (fun grows holds => Holds.extend grows holds) pages) ?_
      rintro ⟨_, middle⟩ ⟨copies, rfl, copied⟩
      have sameEntries := entriesOf_of_same copied.same
      have sameMins := mins_of_same copied.same
      have separators : copies.tail.map Part.min = parts.tail.map Part.min := by
        rw [List.map_tail, List.map_tail, sameMins]
      have fits : InternalFits middle tree level copies := by
        refine ⟨copied.same.length_eq ▸ two, ?_, ?_, copied.holds⟩
        · have size : headerSize + ((parts.tail.map Part.min).map fun key => 16 + key.length).sum ≤
              pageSize := size
          rw [← separators, List.map_map] at size
          exact size
        · refine min_short ?_ copied.holds
          rw [sameEntries, ← entries]
          exact ordered.short
      dsimp only
      rw [← separators, ← internal_child]
      refine ((appendNode_internal fits).mono ?_ fun error full => full.1)
      rintro ⟨page, after⟩ ⟨rfl, grows, counted, held⟩
      refine ⟨internalPart middle.pageCount copies, rfl, ?_⟩
      exact copied_node copied grows counted held (sameEntries.trans entries.symm) rfl

/-- The copy of a root of a map is a root of the map in a grown file. -/
theorem copyTree_safe {root : Nat} {entries : List Entry} (rooted : Rooted reader tree root entries)
    (pages : PageFile) :
    Safe (copyTree reader pages tree root)
      (fun result => pages.Extends result.2 ∧ Rooted result.2 tree result.1 entries)
      (fun error => error = .exhausted) := by
  rcases rooted with ⟨rfl, rfl⟩ | ⟨level, part, rfl, holds, ordered, rfl⟩
  · exact Safe.ok ⟨.refl _, .inl ⟨rfl, rfl⟩⟩
  · have enough : level < reader.pageCount := by
      have := holds.two_pow_le
      have := holds.owned_length_le ordered.distinct
      have : level < 2 ^ level := Nat.lt_two_pow_self
      rw [PageFile.pageCount]
      omega
    refine (copyNode_safe enough holds ordered pages).weaken ?_
    rintro ⟨_, after⟩ ⟨copy, rfl, copied⟩
    have same : copy.entries = part.entries := by
      cases copied.same with
      | cons same _ => exact same
    have distinct := copied.distinct
    rw [List.flatMap_singleton] at distinct
    refine ⟨copied.grows, .inr ⟨level, copy, rfl, copied.holds _ List.mem_cons_self, ?_, same⟩⟩
    exact ⟨same ▸ ordered.increasing, same ▸ ordered.short, distinct⟩

end Nodes

end BTree

end BlopDb.Storage
