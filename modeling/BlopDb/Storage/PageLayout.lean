/-
# What encoding a node writes

The bytes of a node page in closed form: the header, the table of slots, a gap of
zeros, and the cells in reverse order.  Encoding a node that fits a page writes
exactly these bytes, one slot after the other.
-/

import BlopDb.Storage.PageCodec

namespace BlopDb.Storage.PageCodec

open BlopDb.Lib
open PageFile (validRef validStored leafSize nodeSize checkInternal)

/-! ## Cells -/

/-- What one slot of a node holds. -/
inductive Slot
  | cell (cell : LeafCell)
  | child (key : Bytes) (id : Nat)
  deriving DecidableEq, Repr

/-- The key of a slot. -/
def Slot.key : Slot → Bytes
  | .cell held => held.key
  | .child key _ => key

/-- The bytes of the cell of a slot. -/
def Slot.image : Slot → Bytes
  | .cell ⟨key, .inline value⟩ =>
      leBytes 2 key.length ++ (zeros 1 ++ (zeros 1 ++ (leBytes 4 value.length ++
        (zeros 8 ++ (key ++ value)))))
  | .cell ⟨key, .overflow length head⟩ =>
      leBytes 2 key.length ++ (leBytes 1 1 ++ (zeros 1 ++ (leBytes 4 length ++
        (leBytes 8 head ++ key))))
  | .child key id => leBytes 2 key.length ++ (zeros 2 ++ (leBytes 8 id ++ key))

/-- A slot of a leaf. -/
def Slot.isLeaf : Slot → Bool
  | .cell _ => true
  | .child _ _ => false

/-- What a decoder checks of the value or the child of a slot. -/
def Slot.Valid (count : Nat) : Slot → Prop
  | .cell held => validStored count held.value = true
  | .child _ id => validRef id count

/-- The slots of a node in order. -/
def slots : Node → List Slot
  | .leaf cells => cells.map .cell
  | .internal _ keys children => (keys.zip children.tail).map fun pair => .child pair.1 pair.2

/-- The bytes of all cells. -/
def total (images : List Bytes) : Nat := (images.map List.length).sum

/-- The table of slots for cells that end at a position, one below the other. -/
def slotTable : Nat → List Bytes → Bytes
  | _, [] => []
  | stop, image :: images =>
      leBytes 2 (stop - image.length) ++ (leBytes 2 image.length ++
        slotTable (stop - image.length) images)

/-- The cells, the first at the end. -/
def heap (images : List Bytes) : Bytes := images.reverse.flatten

/-- A page of a header and cells. -/
def pageBytes (head : Bytes) (images : List Bytes) : Bytes :=
  head ++ (slotTable pageSize images ++
    (zeros (payloadSize - 4 * images.length - total images) ++ heap images))

/-- The first child of an internal node; a leaf has none. -/
def firstChild : Node → Nat
  | .leaf _ => 0
  | .internal _ _ children => children.headD 0

/-- The header of a node page. -/
def nodeHead (tree : TreeId) (node : Node) (id crc : Nat) : Bytes :=
  headBytes (nodeKind node) node.level id tree.number (slots node).length
    (64 + 4 * (slots node).length) (pageSize - total ((slots node).map Slot.image)) (firstChild node)
    0 crc

/-- The bytes of a node page. -/
def layout (tree : TreeId) (node : Node) (id crc : Nat) : Bytes :=
  pageBytes (nodeHead tree node id crc) ((slots node).map Slot.image)

section Sizes

@[simp]
theorem length_magic : magic.length = 4 := rfl

@[simp]
theorem length_headBytes (kind level id tree cells lower upper link payload crc : Nat) :
    (headBytes kind level id tree cells lower upper link payload crc).length = 64 := by
  simp [headBytes]

@[simp]
theorem length_slotTable (stop : Nat) (images : List Bytes) :
    (slotTable stop images).length = 4 * images.length := by
  induction images generalizing stop with
  | nil => rfl
  | cons image images ih =>
      simp only [slotTable, List.length_append, length_leBytes, ih, List.length_cons]
      omega

@[simp]
theorem length_heap (images : List Bytes) : (heap images).length = total images := by
  simp [heap, total, List.length_flatten, List.map_reverse, List.sum_reverse]

theorem total_append (left right : List Bytes) : total (left ++ right) = total left + total right := by
  simp [total]

theorem total_cons (image : Bytes) (images : List Bytes) :
    total (image :: images) = image.length + total images := by
  simp [total]

@[simp]
theorem total_nil : total [] = 0 := rfl

theorem slotTable_append (stop : Nat) (left right : List Bytes) :
    slotTable stop (left ++ right) = slotTable stop left ++ slotTable (stop - total left) right := by
  induction left generalizing stop with
  | nil => simp [slotTable, total]
  | cons image left ih =>
      simp only [List.cons_append, slotTable, ih, List.append_assoc, total_cons, Nat.sub_sub]

theorem heap_append (left right : List Bytes) : heap (left ++ right) = heap right ++ heap left := by
  simp [heap]

@[simp]
theorem heap_singleton (image : Bytes) : heap [image] = image := by simp [heap]

theorem length_pageBytes {head : Bytes} {images : List Bytes} (exact : head.length = 64)
    (room : 4 * images.length + total images ≤ payloadSize) :
    (pageBytes head images).length = pageSize := by
  simp only [pageBytes, List.length_append, exact, length_slotTable, length_zeros, length_heap]
  simp only [payloadSize, pageSize, headerSize] at room ⊢
  omega

theorem length_image (slot : Slot) :
    slot.image.length = match slot with
      | .cell cell => leafSize cell - 4
      | .child key _ => 12 + key.length := by
  match slot with
  | .cell ⟨key, .inline value⟩ =>
      simp [Slot.image, leafSize]
      omega
  | .cell ⟨key, .overflow length head⟩ =>
      simp [Slot.image, leafSize]
      omega
  | .child key id =>
      simp [Slot.image]
      omega

/-- The cells and slots of a node take what its size says. -/
theorem nodeSize_eq {node : Node} (shaped : ∀ level keys children, node = .internal level keys children →
      children.length = keys.length + 1) :
    nodeSize node = headerSize + (4 * (slots node).length + total ((slots node).map Slot.image)) := by
  have sums {α : Type} (list : List α) (size image : α → Nat)
      (each : ∀ item, size item = 4 + image item) :
      (list.map size).sum = 4 * list.length + (list.map image).sum := by
    induction list with
    | nil => rfl
    | cons item list ih =>
        simp only [List.map_cons, List.sum_cons, ih, each, List.length_cons]
        omega
  cases node with
  | leaf cells =>
      simp only [nodeSize, slots, List.length_map, total, List.map_map]
      rw [sums cells leafSize (List.length ∘ Slot.image ∘ Slot.cell)]
      intro cell
      have := length_image (.cell cell)
      simp only [Function.comp_apply, this, leafSize]
      omega
  | internal level keys children =>
      have lengths := shaped level keys children rfl
      have keysOf : keys = (keys.zip children.tail).map Prod.fst := by
        rw [List.map_fst_zip]
        simp [lengths]
      simp only [nodeSize, slots, List.length_map, total, List.map_map]
      conv_lhs => rw [keysOf]
      rw [List.map_map, sums _ _ (List.length ∘ Slot.image ∘ fun pair => Slot.child pair.1 pair.2)]
      intro pair
      have := length_image (.child pair.1 pair.2)
      simp only [Function.comp_apply, this]
      omega

theorem length_slots {node : Node} (shaped : ∀ level keys children,
    node = .internal level keys children → children.length = keys.length + 1) :
    (slots node).length = node.slotKeys.length := by
  cases node with
  | leaf cells => simp [slots, Node.slotKeys]
  | internal level keys children => simp [slots, Node.slotKeys, shaped level keys children rfl]

end Sizes

/-! ## Writing one cell -/

section Cells

variable {node : Node} {position : Nat} {slot : Slot}

/-- Where a node keeps what a slot holds. -/
theorem slots_getElem? (held : (slots node)[position]? = some slot) :
    (∃ cells cell, node = .leaf cells ∧ slot = .cell cell ∧ cells[position]? = some cell) ∨
    ∃ level keys children key id, node = .internal level keys children ∧ slot = .child key id ∧
      keys[position]? = some key ∧ children[position + 1]? = some id := by
  cases node with
  | leaf cells =>
      simp only [slots, List.getElem?_map, Option.map_eq_some_iff] at held
      obtain ⟨cell, isCell, rfl⟩ := held
      exact .inl ⟨cells, cell, rfl, rfl, isCell⟩
  | internal level keys children =>
      simp only [slots, List.getElem?_map, Option.map_eq_some_iff] at held
      obtain ⟨⟨key, id⟩, isPair, rfl⟩ := held
      rw [List.getElem?_zip_eq_some] at isPair
      refine .inr ⟨level, keys, children, key, id, rfl, rfl, isPair.1, ?_⟩
      rw [← List.getElem?_tail]
      exact isPair.2

theorem slotShape_eq (held : (slots node)[position]? = some slot) :
    slotShape node position = .ok (slot.key, slot.image.length) := by
  rw [length_image]
  rcases slots_getElem? held with ⟨cells, cell, rfl, rfl, found⟩ |
    ⟨level, keys, children, key, id, rfl, rfl, found, -⟩
  · have long : 4 ≤ leafSize cell := by
      unfold leafSize
      omega
    simp only [slotShape, index_eq_ok.mpr found, ok_bind, subChecked_of_le long, pure_eq_ok, Slot.key]
  · simp only [slotShape, index_eq_ok.mpr found, ok_bind, pure_eq_ok, Slot.key]

/-- Writing the cell of a slot into zeros gives its bytes. -/
theorem writeCell_eq (held : (slots node)[position]? = some slot) :
    writeCell node position slot.key (zeros slot.image.length) = .ok slot.image := by
  rcases slots_getElem? held with ⟨cells, ⟨key, stored⟩, rfl, rfl, found⟩ |
    ⟨level, keys, children, key, id, rfl, rfl, -, found⟩
  · cases stored with
    | inline value =>
        have length : (Slot.cell ⟨key, .inline value⟩).image.length =
            2 + (1 + (1 + (4 + (8 + (key.length + value.length))))) := by
          simp [Slot.image]
        have whole : 16 + key.length + value.length =
            2 + (1 + (1 + (4 + (8 + (key.length + value.length))))) := by omega
        have tail : 16 + key.length = 2 + (1 + (1 + (4 + (8 + key.length)))) := by omega
        rw [length, zeros_add 2, zeros_add 1, zeros_add 1, zeros_add 4, zeros_add 8, zeros_add key.length]
        simp only [writeCell, Slot.key, index_eq_ok.mpr found, writeAt_append_right, writeAt_zero_append,
          Except.map, writeTail, Slot.image, length_leBytes, length_zeros, ok_bind, List.length_append,
          Nat.reduceLeDiff, Nat.reduceSub, whole, if_true]
        rw [tail]
        simp [writeAt_append_right, writeAt_self, Except.map]
    | overflow stored head =>
        have length : (Slot.cell ⟨key, .overflow stored head⟩).image.length =
            2 + (1 + (1 + (4 + (8 + key.length)))) := by
          simp [Slot.image]
        rw [length, zeros_add 2, zeros_add 1, zeros_add 1, zeros_add 4, zeros_add 8]
        simp [writeCell, Slot.key, index_eq_ok.mpr found, writeAt_append_right, writeAt_zero_append,
          Except.map, writeAt_self, Slot.image]
  · have length : (Slot.child key id).image.length = 2 + (2 + (8 + key.length)) := by
      simp [Slot.image]
    have whole : 12 + key.length = 2 + (2 + (8 + key.length)) := by omega
    rw [length, zeros_add 2, zeros_add 2, zeros_add 8]
    simp [writeCell, Slot.key, index_eq_ok.mpr found, writeAt_append_right, writeAt_zero_append,
      Except.map, writeTail, writeAt_self, Slot.image, whole]

end Cells

/-! ## Writing all slots -/

section Slots

variable {node : Node} {head : Bytes}

/-- A page has room for the slots and cells. -/
def Roomy (images : List Bytes) : Prop := 4 * images.length + total images ≤ payloadSize

theorem Roomy.left {left right : List Bytes} (room : Roomy (left ++ right)) : Roomy left := by
  simp only [Roomy, List.length_append, total_append] at room ⊢
  omega

/-- A slot is written at the end of the table, and its cell below the cells. -/
theorem encodeSlot_eq {done rest : List Slot} {slot : Slot} (split : slots node = done ++ slot :: rest)
    (exact : head.length = 64) (room : Roomy ((done ++ [slot]).map Slot.image))
    (short : slot.key.length ≤ maxKey) :
    encodeSlot node done.length
        (pageBytes head (done.map Slot.image), pageSize - total (done.map Slot.image)) =
      .ok (pageBytes head ((done ++ [slot]).map Slot.image),
        pageSize - total ((done ++ [slot]).map Slot.image)) := by
  have held : (slots node)[done.length]? = some slot := by simp [split]
  have shape := slotShape_eq held
  have written := writeCell_eq held
  rw [List.map_append, List.map_singleton] at room ⊢
  have count : (done.map Slot.image).length = done.length := List.length_map ..
  generalize done.map Slot.image = images at room count ⊢
  generalize slot.image = image at room shape written ⊢
  rw [← count] at shape written ⊢
  obtain ⟨gap, isGap⟩ : ∃ gap, payloadSize = 4 * images.length + 4 + total images + image.length + gap := by
    simp only [Roomy, List.length_append, List.length_singleton, total_append, total_cons, total_nil] at room
    exact ⟨payloadSize - (4 * images.length + 4 + total images + image.length), by omega⟩
  have size : pageSize = payloadSize + 64 := by simp [pageSize, payloadSize, headerSize]
  have gaps : payloadSize - 4 * images.length - total images = 2 + (2 + (gap + image.length)) := by omega
  have gaps' : payloadSize - 4 * (images ++ [image]).length - total (images ++ [image]) = gap := by
    simp only [List.length_append, List.length_singleton, total_append, total_cons, total_nil]
    omega
  have start : pageSize - total images - image.length = 64 + 4 * images.length + 4 + gap := by omega
  have table : (slotTable pageSize images).length = 4 * images.length := length_slotTable _ _
  simp only [encodeSlot, shape, ok_bind]
  rw [refuse_of_not _ (by omega), raise_ok, ok_bind, subChecked_of_le (by omega), ok_bind, start]
  -- The two fields of the slot are the first four bytes of the gap.
  have first : (writeAt (pageBytes head images) (64 + 4 * images.length)
      (leBytes 2 (64 + 4 * images.length + 4 + gap)) : Except (Fault Error) Bytes) =
      .ok ((head ++ slotTable pageSize images) ++ (leBytes 2 (64 + 4 * images.length + 4 + gap) ++
        (zeros (2 + (gap + image.length)) ++ heap images))) := by
    rw [pageBytes, gaps, zeros_add 2, List.append_assoc (zeros 2), ← List.append_assoc head]
    exact writeAt_field _ _ (by simp [exact, table]) (by simp)
  have second : (writeAt ((head ++ slotTable pageSize images) ++
        (leBytes 2 (64 + 4 * images.length + 4 + gap) ++ (zeros (2 + (gap + image.length)) ++ heap images)))
      (66 + 4 * images.length) (leBytes 2 image.length) : Except (Fault Error) Bytes) =
      .ok ((head ++ slotTable pageSize images ++ leBytes 2 (64 + 4 * images.length + 4 + gap)) ++
        (leBytes 2 image.length ++ (zeros (gap + image.length) ++ heap images))) := by
    rw [zeros_add 2, List.append_assoc (zeros 2), ← List.append_assoc (head ++ _)]
    exact writeAt_field _ _ (by simp [exact, table]; omega) (by simp)
  rw [first, ok_bind, second, ok_bind]
  -- The cell is the last part of the rest of the gap.
  have regroup (cell : Bytes) : (head ++ slotTable pageSize images ++
        leBytes 2 (64 + 4 * images.length + 4 + gap)) ++ (leBytes 2 image.length ++
          ((zeros gap ++ cell) ++ heap images)) =
      (head ++ slotTable pageSize images ++ leBytes 2 (64 + 4 * images.length + 4 + gap) ++
        leBytes 2 image.length ++ zeros gap) ++ (cell ++ heap images) := by
    simp only [List.append_assoc]
  have before : (head ++ slotTable pageSize images ++ leBytes 2 (64 + 4 * images.length + 4 + gap) ++
      leBytes 2 image.length ++ zeros gap).length = 64 + 4 * images.length + 4 + gap := by
    simp only [List.length_append, exact, table, length_leBytes, length_zeros]
  have width : pageSize - total images - (64 + 4 * images.length + 4 + gap) = image.length := by omega
  rw [zeros_add gap, regroup, readAt_of_le (by simp only [List.length_append, before, length_zeros]; omega),
    width, slice_append_right _ _ before.le, before, Nat.sub_self, slice_zero_append _ (length_zeros _),
    ok_bind, written, ok_bind, writeAt_field _ _ before.symm (length_zeros _), ok_bind, pure_eq_ok]
  refine congrArg Except.ok (Prod.ext ?_ ?_)
  · rw [pageBytes, gaps', slotTable_append, heap_append, heap_singleton]
    simp only [slotTable, start, List.append_assoc, List.nil_append]
  · simp only [total_append, total_cons, total_nil]
    omega

theorem encodeSlot_long {done rest : List Slot} {slot : Slot} (split : slots node = done ++ slot :: rest)
    (long : ¬ slot.key.length ≤ maxKey) (state : Bytes × Nat) :
    encodeSlot node done.length state = .error (.raised (.invalidInput "key exceeds 2066 bytes")) := by
  have held : (slots node)[done.length]? = some slot := by simp [split]
  simp only [encodeSlot, slotShape_eq held, ok_bind]
  rw [refuse_of _ (not_le.mp long)]
  rfl

/-- The slots are all written exactly when no key is too long. -/
theorem encodeSlots_eq_ok {done rest : List Slot} (split : slots node = done ++ rest)
    (exact : head.length = 64) (room : Roomy ((slots node).map Slot.image)) {state : Bytes × Nat} :
    encodeSlots node rest.length done.length
        (pageBytes head (done.map Slot.image), pageSize - total (done.map Slot.image)) = .ok state ↔
      (∀ slot ∈ rest, slot.key.length ≤ maxKey) ∧
        state = (pageBytes head ((slots node).map Slot.image),
          pageSize - total ((slots node).map Slot.image)) := by
  induction rest generalizing done with
  | nil =>
      rw [List.append_nil] at split
      simp [encodeSlots, split, eq_comm]
  | cons slot rest ih =>
      rw [List.length_cons, encodeSlots]
      by_cases short : slot.key.length ≤ maxKey
      · have split' : slots node = (done ++ [slot]) ++ rest := by simp [split]
        have room' : Roomy ((done ++ [slot]).map Slot.image) := by
          rw [split', List.map_append] at room
          exact room.left
        rw [encodeSlot_eq split exact room' short, ok_bind]
        have next := ih split'
        rw [List.length_append, List.length_singleton] at next
        rw [next]
        simp [short]
      · rw [encodeSlot_long split short]
        simp [short]

end Slots

/-! ## Writing the header -/

section Headers

variable (kind level id tree cells lower upper link payload crc : Nat) (number : Nat) (rest : Bytes)

theorem writeAt_cells :
    (writeAt (headBytes kind level id tree cells lower upper link payload crc ++ rest) 20
      (leBytes 2 number) : Except (Fault Error) Bytes) =
      .ok (headBytes kind level id tree number lower upper link payload crc ++ rest) := by
  simp only [headBytes, List.append_assoc]
  rw [writeAt_append_right _ _ (by simp)]
  simp [writeAt_append_right, writeAt_zero_append, Except.map]

theorem writeAt_lower :
    (writeAt (headBytes kind level id tree cells lower upper link payload crc ++ rest) 24
      (leBytes 2 number) : Except (Fault Error) Bytes) =
      .ok (headBytes kind level id tree cells number upper link payload crc ++ rest) := by
  simp only [headBytes, List.append_assoc]
  rw [writeAt_append_right _ _ (by simp)]
  simp [writeAt_append_right, writeAt_zero_append, Except.map]

theorem writeAt_upper :
    (writeAt (headBytes kind level id tree cells lower upper link payload crc ++ rest) 26
      (leBytes 2 number) : Except (Fault Error) Bytes) =
      .ok (headBytes kind level id tree cells lower number link payload crc ++ rest) := by
  simp only [headBytes, List.append_assoc]
  rw [writeAt_append_right _ _ (by simp)]
  simp [writeAt_append_right, writeAt_zero_append, Except.map]

theorem writeAt_link :
    (writeAt (headBytes kind level id tree cells lower upper link payload crc ++ rest) 32
      (leBytes 8 number) : Except (Fault Error) Bytes) =
      .ok (headBytes kind level id tree cells lower upper number payload crc ++ rest) := by
  simp only [headBytes, List.append_assoc]
  rw [writeAt_append_right _ _ (by simp)]
  simp [writeAt_append_right, writeAt_zero_append, Except.map]

theorem overwrite_id :
    overwrite (headBytes kind level id tree cells lower upper link payload crc ++ rest) 8
      (leBytes 8 number) = headBytes kind level number tree cells lower upper link payload crc ++ rest := by
  simp only [headBytes, List.append_assoc]
  rw [overwrite_append_right _ _ (by simp)]
  simp [overwrite_append_right, overwrite_zero_append]

theorem overwrite_crc :
    overwrite (headBytes kind level id tree cells lower upper link payload crc ++ rest) 60
      (leBytes 4 number) = headBytes kind level id tree cells lower upper link payload number ++ rest := by
  simp only [headBytes, List.append_assoc]
  rw [overwrite_append_right _ _ (by simp)]
  simp [overwrite_append_right, overwrite_zero_append]

end Headers

/-! ## Writing a node -/

/-- A node that fits a page and whose keys are not too long. -/
structure Encodable (node : Node) : Prop where
  shape : checkInternal node = .ok ()
  nonempty : node.slotKeys.length ≠ 0
  fits : nodeSize node ≤ pageSize
  short : ∀ slot ∈ slots node, slot.key.length ≤ maxKey

theorem children_of_shape {node : Node} (shape : checkInternal node = .ok ()) :
    ∀ level keys children, node = .internal level keys children →
      children.length = keys.length + 1 := by
  rintro level keys children rfl
  have checked := refuse_eq_ok.mp shape
  simp only [not_or, not_not] at checked
  exact checked.2.1

theorem Encodable.roomy {node : Node} (shape : checkInternal node = .ok ())
    (fits : nodeSize node ≤ pageSize) : Roomy ((slots node).map Slot.image) := by
  rw [nodeSize_eq (children_of_shape shape)] at fits
  simp only [Roomy, List.length_map, payloadSize, pageSize, headerSize] at fits ⊢
  omega

/-- The header after all slots are written, once the link is. -/
theorem writeLink_eq {node : Node} (shape : checkInternal node = .ok ())
    (kind level id tree cells lower upper payload crc : Nat) (rest : Bytes) :
    writeLink node (headBytes kind level id tree cells lower upper 0 payload crc ++ rest) =
      .ok (headBytes kind level id tree cells lower upper (firstChild node) payload crc ++ rest) := by
  cases node with
  | leaf cells => rfl
  | internal _ keys children =>
      have length := children_of_shape shape _ _ _ rfl
      cases children with
      | nil => simp at length
      | cons first children =>
          simp only [writeLink, index_eq_ok.mpr List.getElem?_cons_zero, ok_bind, firstChild,
            List.headD_cons]
          exact writeAt_link ..

/-- Encoding accepts the encodable nodes and writes their layout. -/
theorem encodeNode_eq_ok {tree : TreeId} {node : Node} {bytes : Bytes} :
    encodeNode tree node = .ok bytes ↔ Encodable node ∧ bytes = layout tree node 0 0 := by
  simp only [encodeNode]
  cases shape : checkInternal node with
  | error error =>
      refine iff_of_false (by simp) fun accepted => ?_
      have := accepted.1.shape
      rw [shape] at this
      cases this
  | ok done =>
      obtain ⟨⟩ := done
      rw [raise_ok, ok_bind]
      by_cases bad : node.slotKeys.length = 0 ∨ nodeSize node > pageSize
      · refine iff_of_false (by rw [refuse_of _ bad]; simp) fun accepted => ?_
        rcases bad with empty | large
        · exact accepted.1.nonempty empty
        · exact absurd accepted.1.fits (not_le.mpr large)
      · rw [refuse_of_not _ bad, raise_ok, ok_bind]
        simp only [not_or, not_lt] at bad
        obtain ⟨nonempty, fits⟩ := bad
        have room := Encodable.roomy shape fits
        have count := length_slots (children_of_shape shape)
        simp only [header, writeAt_cells, ok_bind, writeAt_lower]
        have start : zeros payloadSize = slotTable pageSize [] ++
            (zeros (payloadSize - 4 * ([] : List Bytes).length - total []) ++ heap []) := by
          simp [slotTable, heap]
        have loop := @encodeSlots_eq_ok node (headBytes (nodeKind node) node.level 0 tree.number
          node.slotKeys.length (64 + 4 * node.slotKeys.length) pageSize 0 0 0) [] (slots node) rfl
          (length_headBytes ..) room
        rw [count] at loop
        simp only [List.map_nil, total_nil, Nat.sub_zero, List.length_nil] at loop
        rw [start, ← pageBytes]
        constructor
        · intro written
          obtain ⟨state, slotsWritten, written⟩ := bind_eq_ok.mp written
          obtain ⟨short, rfl⟩ := loop.mp slotsWritten
          simp only [pageBytes, writeLink_eq shape, ok_bind, writeAt_upper, Except.ok.injEq] at written
          refine ⟨⟨shape, nonempty, fits, short⟩, ?_⟩
          rw [← written, layout, nodeHead, pageBytes, count]
        · rintro ⟨accepted, rfl⟩
          rw [loop.mpr ⟨accepted.short, rfl⟩, ok_bind]
          simp only [pageBytes, writeLink_eq shape, ok_bind, writeAt_upper]
          rw [layout, nodeHead, pageBytes, count]

end BlopDb.Storage.PageCodec
