/-
# Readers of page images

A reader is pinned to a prefix of a page file.  It reads a page image inside its
prefix, checks the header and decodes the node; every reference of the node must
lie inside the same prefix.  Apart from that, what a page holds does not depend on
the prefix.
-/

import BlopDb.Storage.PageCodecSound

namespace BlopDb.Storage.PageCodec

open BlopDb.Lib
open PageFile (validRef validStored checkInternal unordered)

section Reading

variable [Crc32c]

/-- Read the image of a page inside a prefix. -/
def readPage (pages : List Bytes) (pageCount page : Nat) (tree : Option TreeId) :
    Except Error Bytes := do
  refuse (page ≥ pageCount ∨ decide (page = 0) ≠ tree.isNone)
    (.corrupt "page reference outside tree prefix")
  match pages[page]? with
  | none => throw (.corrupt "truncated page")
  | some bytes => do
      validateHeader bytes page tree pageCount
      return bytes

/-- Read a node inside a prefix, bypassing any cache. -/
def readNode (pages : List Bytes) (pageCount : Nat) (tree : TreeId) (page : Nat) :
    Except (Fault Error) Node := do
  let bytes ← raise id (readPage pages pageCount page (some tree))
  decodeNode bytes pageCount

end Reading

/-! ## References -/

/-- The pages that a node refers to. -/
def references : Node → List Nat
  | .leaf cells => cells.filterMap fun cell =>
      match cell.value with
      | .inline _ => none
      | .overflow _ head => some head
  | .internal _ _ children => children

/-- The page that a slot refers to. -/
def Slot.reference? : Slot → Option Nat
  | .cell ⟨_, .inline _⟩ => none
  | .cell ⟨_, .overflow _ head⟩ => some head
  | .child _ page => some page

theorem mem_references {node : Node} (shape : checkInternal node = .ok ()) {page : Nat} :
    page ∈ references node ↔
      nodeKind node = 2 ∧ page = firstChild node ∨ ∃ slot ∈ slots node, slot.reference? = some page := by
  cases node with
  | leaf cells =>
      have kinds : nodeKind (.leaf cells) ≠ 2 := by simp [nodeKind]
      simp only [references, List.mem_filterMap, slots, List.mem_map, kinds, false_and, false_or]
      constructor
      · rintro ⟨⟨key, stored⟩, member, refers⟩
        refine ⟨_, ⟨_, member, rfl⟩, ?_⟩
        cases stored with
        | inline bytes => cases refers
        | overflow length head => exact refers
      · rintro ⟨slot, ⟨⟨key, stored⟩, member, rfl⟩, refers⟩
        refine ⟨_, member, ?_⟩
        cases stored with
        | inline bytes => cases refers
        | overflow length head => exact refers
  | internal level keys children =>
      have length := children_of_shape shape _ _ _ rfl
      cases children with
      | nil => simp at length
      | cons first children =>
          simp only [List.length_cons, Nat.add_right_cancel_iff] at length
          have seconds : (keys.zip children).map Prod.snd = children := by
            rw [List.map_snd_zip]
            omega
          simp only [references, List.mem_cons, nodeKind, firstChild, List.headD_cons, true_and, slots,
            List.tail_cons, List.mem_map]
          refine or_congr_right ?_
          constructor
          · intro member
            rw [← seconds] at member
            obtain ⟨pair, inPairs, rfl⟩ := List.mem_map.mp member
            exact ⟨_, ⟨pair, inPairs, rfl⟩, rfl⟩
          · rintro ⟨slot, ⟨pair, inPairs, rfl⟩, refers⟩
            cases refers
            rw [← seconds]
            exact List.mem_map_of_mem inPairs

/-- A valid slot is valid in every prefix that contains what it refers to. -/
theorem Slot.Valid.recount {slot : Slot} {count count' : Nat} (valid : slot.Valid count)
    (inside : ∀ page, slot.reference? = some page → page < count') : slot.Valid count' := by
  match slot with
  | .cell ⟨key, .inline bytes⟩ => exact valid
  | .cell ⟨key, .overflow length head⟩ =>
      simp only [Slot.Valid, validStored, Bool.and_eq_true, decide_eq_true_eq] at valid ⊢
      exact ⟨valid.1, valid.2.1, inside head rfl⟩
  | .child key page => exact ⟨And.left valid, inside page rfl⟩

theorem Slot.Valid.reference {slot : Slot} {count page : Nat} (valid : slot.Valid count)
    (refers : slot.reference? = some page) : validRef page count := by
  match slot with
  | .cell ⟨key, .inline bytes⟩ => cases refers
  | .cell ⟨key, .overflow length head⟩ =>
      cases refers
      simp only [Slot.Valid, validStored, Bool.and_eq_true, decide_eq_true_eq] at valid
      exact valid.2
  | .child key page =>
      cases refers
      exact valid

theorem ReadsAll.recount {leaf : Bool} {bytes : Bytes} {upper count count' position : Nat}
    {state : Decoding} {rest : List Slot} (reads : ReadsAll leaf bytes upper count position state rest)
    (valid : ∀ slot ∈ rest, slot.Valid count') :
    ReadsAll leaf bytes upper count' position state rest := by
  induction rest generalizing position state with
  | nil => trivial
  | cons slot rest ih =>
      obtain ⟨kind, first, others⟩ := reads
      exact ⟨kind, ⟨first.room, first.above, first.entry, first.held, first.short, first.ordered,
        valid slot List.mem_cons_self⟩, ih others fun other member =>
          valid other (List.mem_cons_of_mem _ member)⟩

/-- The keys that a decoder has read increase. -/
theorem ReadsAll.sorted {leaf : Bool} {bytes : Bytes} {upper count position : Nat} {state : Decoding} {rest : List Slot}
    (reads : ReadsAll leaf bytes upper count position state rest)
    (before : state.keys.Pairwise (· < ·)) :
    (state.keys ++ rest.map Slot.key).Pairwise (· < ·) := by
  induction rest generalizing position state with
  | nil => simpa using before
  | cons slot rest ih =>
      obtain ⟨-, first, others⟩ := reads
      have less : ∀ key ∈ state.keys, key < slot.key := by
        intro key member
        obtain ⟨last, isLast⟩ := List.getLast?_eq_some_iff.mp
          (List.getLast?_eq_some_getLast (List.ne_nil_of_mem member))
        have ordered := first.ordered
        rw [List.getLast?_eq_some_getLast (List.ne_nil_of_mem member)] at ordered
        have lastLess : state.keys.getLast (List.ne_nil_of_mem member) < slot.key := by
          simpa [unordered] using ordered
        rw [isLast, List.mem_append, List.mem_singleton] at member
        rcases member with earlier | isKey
        · rw [isLast] at before
          exact ((List.pairwise_append.mp before).2.2 key earlier _ List.mem_cons_self).trans lastLess
        · rw [isKey]
          exact lastLess
      have grown : (state.push slot).keys.Pairwise (· < ·) := by
        rw [Decoding.push_keys]
        refine List.pairwise_append.mpr ⟨before, List.pairwise_singleton _ _, ?_⟩
        intro key member other isSlot
        rw [List.mem_singleton.mp isSlot]
        exact less key member
      have all := ih others grown
      rw [Decoding.push_keys, List.append_assoc] at all
      exact all

section Pages

variable [Crc32c] {bytes : Bytes} {page count count' : Nat} {tree : TreeId} {node : Node}

/-- A page image that a prefix accepts and decodes to a node. -/
structure HoldsNode (bytes : Bytes) (page : Nat) (tree : TreeId) (count : Nat) (node : Node) : Prop where
  valid : validateHeader bytes page (some tree) count = .ok ()
  decoded : decodeNode bytes count = .ok node

/-- The header and the slots behind a decoded page. -/
theorem HoldsNode.inspect (size : bytes.length = pageSize) (holds : HoldsNode bytes page tree count node) :
    ∃ kind level cells upper link rest,
      NodeHeader bytes page (some tree) count kind level cells upper link ∧
      rest.length = cells ∧ ReadsAll (kind = 1) bytes upper count 0 ⟨pageSize, [], [], [link]⟩ rest ∧
      (rest.foldl Decoding.push ⟨pageSize, [], [], [link]⟩).stop = upper ∧
      node = nodeOf kind level link rest := by
  obtain ⟨valid, decoded⟩ := holds
  by_cases isNode : uintAt 1 bytes 6 = 1 ∨ uintAt 1 bytes 6 = 2
  · have header := nodeHeader_of_validate size valid isNode
    rcases decodeNode_cases size header with ⟨error, failed⟩ | ⟨rest, length, reads, meets, decoded'⟩
    · rw [failed] at decoded
      cases decoded
    · rw [decoded] at decoded'
      exact ⟨_, _, _, _, _, rest, header, length, reads, meets, Except.ok.inj decoded'⟩
  · simp only [decodeNode] at decoded
    rw [numberAt_of_le (by rw [size]; norm_num [pageSize]), ok_bind, refuse_of _ (by omega)] at decoded
    cases decoded

/-- The references of a decoded node lie inside the prefix. -/
theorem HoldsNode.validRefs (size : bytes.length = pageSize)
    (holds : HoldsNode bytes page tree count node) : ∀ other ∈ references node, validRef other count := by
  obtain ⟨kind, level, cells, upper, link, rest, header, length, reads, meets, rfl⟩ := holds.inspect size
  obtain ⟨isSlots, isKind, -, isLink, shape⟩ := nodeOf_shape header.kinds reads.sound
  intro other member
  rcases (mem_references shape).mp member with ⟨internal, rfl⟩ | ⟨slot, inSlots, refers⟩
  · rw [isKind] at internal
    rw [isLink]
    rcases header.kinds with ⟨leaf, -⟩ | ⟨-, -, valid⟩
    · omega
    · exact valid
  · rw [isSlots] at inSlots
    exact (reads.sound slot inSlots).2.2.reference refers

/-- A page holds the same node in every prefix that contains its references. -/
theorem HoldsNode.recount (size : bytes.length = pageSize) (counted : count' ≤ 2 ^ 64)
    (holds : HoldsNode bytes page tree count node) (inside : ∀ other ∈ references node, other < count') :
    HoldsNode bytes page tree count' node := by
  obtain ⟨kind, level, cells, upper, link, rest, header, length, reads, meets, rfl⟩ := holds.inspect size
  obtain ⟨isSlots, isKind, -, isLink, shape⟩ := nodeOf_shape header.kinds reads.sound
  have kinds : kind = 1 ∧ level = 0 ∧ link = 0 ∨ kind = 2 ∧ level ≠ 0 ∧ validRef link count' := by
    rcases header.kinds with leaf | ⟨rfl, leveled, refers⟩
    · exact .inl leaf
    · refine .inr ⟨rfl, leveled, refers.1, inside link ((mem_references shape).mpr (.inl ⟨isKind, ?_⟩))⟩
      exact isLink.symm
  have header' : NodeHeader bytes page (some tree) count' kind level cells upper link :=
    ⟨header.reads, header.positive, header.nonempty, header.ordered, header.inside, header.gap, kinds⟩
  have reads' := reads.recount fun slot member =>
    (reads.sound slot member).2.2.recount fun other refers =>
      inside other ((mem_references shape).mpr (.inr ⟨slot, by rwa [isSlots], refers⟩))
  exact ⟨header'.validate, decodeNode_of_reads size counted header' length reads' meets⟩

/-- A decoded node fits a page, and an internal one has a child more than
separators. -/
theorem HoldsNode.encodable (size : bytes.length = pageSize)
    (holds : HoldsNode bytes page tree count node) : Encodable node := by
  obtain ⟨kind, level, cells, upper, link, rest, header, length, reads, meets, rfl⟩ := holds.inspect size
  exact (layout_of_reads size header length reads meets).1

theorem readNode_eq_ok {pages : List Bytes} :
    readNode pages count tree page = .ok node ↔
      page ≠ 0 ∧ page < count ∧ ∃ bytes, pages[page]? = some bytes ∧
        HoldsNode bytes page tree count node := by
  simp only [readNode, readPage, bind_eq_ok, raise_eq_ok, refuse_eq_ok]
  constructor
  · rintro ⟨bytes, ⟨-, inside, read⟩, decoded⟩
    simp only [Option.isNone_some, ne_eq, decide_eq_false_iff_not, not_not, not_or, not_le,
      ge_iff_le] at inside
    cases found : pages[page]? with
    | none =>
        rw [found] at read
        cases read
    | some bytes' =>
        rw [found] at read
        obtain ⟨⟨⟩, valid, same⟩ := bind_eq_ok.mp read
        cases same
        exact ⟨inside.2, inside.1, bytes, rfl, valid, decoded⟩
  · rintro ⟨positive, inside, bytes, found, valid, decoded⟩
    refine ⟨bytes, ⟨(), by simp [positive, inside], ?_⟩, decoded⟩
    rw [found]
    simp only [valid, ok_bind, pure_eq_ok]

end Pages

end BlopDb.Storage.PageCodec
