/-
# Node pages are canonical

A decoder reads a slot exactly when the slot and its cell are the ones an encoder
writes.  Hence a stamped page decodes to the node that was encoded, and a page
that decodes is the stamped page of its node.  No range of a page whose header
passed leaves the page.
-/

import BlopDb.Storage.PageLayout

namespace BlopDb.Storage.PageCodec

open BlopDb.Lib
open PageFile (validRef validStored leafSize nodeSize checkInternal unordered)

/-! ## Cells -/

theorem leBytes_zero (width : Nat) : leBytes width 0 = zeros width := by
  induction width with
  | zero => rfl
  | succ width ih =>
      rw [leBytes, Nat.zero_div, ih]
      rfl

section Cells

variable {cell key : Bytes} {count : Nat}

/-- The fields of a leaf cell. -/
theorem leafCell_split (long : 16 + key.length ≤ cell.length) (keyAt : slice cell 16 key.length = key) :
    cell = leBytes 2 (uintAt 2 cell 0) ++ (leBytes 1 (uintAt 1 cell 2) ++ (leBytes 1 (uintAt 1 cell 3) ++
      (leBytes 4 (uintAt 4 cell 4) ++ (leBytes 8 (uintAt 8 cell 8) ++ (key ++
        slice cell (16 + key.length) (cell.length - (16 + key.length))))))) := by
  rw [leBytes_uintAt (by omega), leBytes_uintAt (by omega), leBytes_uintAt (by omega),
    leBytes_uintAt (by omega), leBytes_uintAt (by omega)]
  conv_rhs => rw [← keyAt, length_slice, min_eq_left (by omega)]
  rw [← slice_add, ← slice_add cell 8, ← slice_add cell 4, ← slice_add cell 3, ← slice_add cell 2,
    ← slice_add cell 0, slice_self (by omega)]

/-- The fields of an internal cell. -/
theorem childCell_split (exact : cell.length = 12 + key.length) (keyAt : slice cell 12 key.length = key) :
    cell = leBytes 2 (uintAt 2 cell 0) ++ (leBytes 2 (uintAt 2 cell 2) ++
      (leBytes 8 (uintAt 8 cell 4) ++ key)) := by
  rw [leBytes_uintAt (by omega), leBytes_uintAt (by omega), leBytes_uintAt (by omega)]
  conv_rhs => rw [← keyAt]
  rw [← slice_add, ← slice_add cell 2, ← slice_add cell 0, slice_self (by omega)]

/-- A leaf value is read from the image of its cell, or an error is reported. -/
theorem decodeValue_cases (long : 16 + key.length ≤ cell.length)
    (keyAt : slice cell 16 key.length = key) (isLength : uintAt 2 cell 0 = key.length) :
    (∃ error, decodeValue cell key.length count = .error (.raised error)) ∨
    ∃ value, decodeValue cell key.length count = .ok value ∧ validStored count value = true ∧
      cell = (Slot.cell ⟨key, value⟩).image := by
  have split := leafCell_split long keyAt
  rw [isLength] at split
  simp only [decodeValue]
  rw [numberAt_of_le (by omega), ok_bind, numberAt_of_le (by omega), ok_bind, numberAt_of_le (by omega),
    ok_bind]
  by_cases bad : uintAt 1 cell 3 ≠ 0 ∨ uintAt 4 cell 4 > maxValue
  · exact .inl ⟨_, by rw [refuse_of _ bad]; rfl⟩
  rw [refuse_of_not _ bad, raise_ok, ok_bind, numberAt_of_le (by omega), ok_bind]
  simp only [not_or, not_not, not_lt] at bad
  rw [bad.1, leBytes_zero] at split
  by_cases inline : uintAt 1 cell 2 = 0 ∧ uintAt 4 cell 4 ≤ inlineLimit ∧ uintAt 8 cell 8 = 0 ∧
      cell.length = 16 + key.length + uintAt 4 cell 4
  · obtain ⟨tag, small, head, length⟩ := inline
    rw [if_pos ⟨tag, small, head, length⟩, readAt_of_le (by omega)]
    have exact : (slice cell (16 + key.length) (cell.length - (16 + key.length))).length =
        uintAt 4 cell 4 := by
      rw [length_slice]
      omega
    refine .inr ⟨_, rfl, decide_eq_true (exact ▸ small), ?_⟩
    rw [Slot.image, exact]
    rw [tag, head, leBytes_zero, leBytes_zero] at split
    exact split
  · rw [if_neg inline]
    by_cases overflow : uintAt 1 cell 2 = 1 ∧ uintAt 4 cell 4 > inlineLimit ∧
        validRef (uintAt 8 cell 8) count ∧ cell.length = 16 + key.length
    · obtain ⟨tag, large, head, length⟩ := overflow
      rw [if_pos ⟨tag, large, head, length⟩]
      refine .inr ⟨_, rfl, ?_, ?_⟩
      · simp [validStored, head, bad.2, large]
      · rw [Slot.image]
        rw [tag, length, Nat.sub_self, slice_zero_width, List.append_nil] at split
        exact split
    · rw [if_neg overflow]
      exact .inl ⟨_, rfl⟩

/-- A leaf value is read back from the image of its cell. -/
theorem decodeValue_image {value : StoredValue} (counted : count ≤ 2 ^ 64)
    (valid : validStored count value = true) :
    decodeValue (Slot.cell ⟨key, value⟩).image key.length count = .ok value := by
  cases value with
  | inline bytes =>
      have small : bytes.length ≤ inlineLimit := of_decide_eq_true valid
      have fits : bytes.length < 256 ^ 4 := by
        unfold inlineLimit at small
        omega
      have length : (Slot.cell ⟨key, .inline bytes⟩).image.length = 16 + key.length + bytes.length := by
        simp [Slot.image]
        omega
      have tag : uintAt 1 (Slot.cell ⟨key, .inline bytes⟩).image 2 = 0 :=
        uintAt_of_field (by
          simp [Slot.image, slice_append_right, slice_zero_append, leBytes_zero]) (by norm_num)
      have reserved : uintAt 1 (Slot.cell ⟨key, .inline bytes⟩).image 3 = 0 :=
        uintAt_of_field (by
          simp [Slot.image, slice_append_right, slice_zero_append, leBytes_zero]) (by norm_num)
      have size : uintAt 4 (Slot.cell ⟨key, .inline bytes⟩).image 4 = bytes.length :=
        uintAt_of_field (by simp [Slot.image, slice_append_right, slice_zero_append]) fits
      have head : uintAt 8 (Slot.cell ⟨key, .inline bytes⟩).image 8 = 0 :=
        uintAt_of_field (by
          simp [Slot.image, slice_append_right, slice_zero_append, leBytes_zero]) (by norm_num)
      have tail : slice (Slot.cell ⟨key, .inline bytes⟩).image (16 + key.length) bytes.length = bytes := by
        have offset : 16 + key.length = 2 + (1 + (1 + (4 + (8 + key.length)))) := by omega
        rw [offset]
        simp [Slot.image, slice_append_right, slice_self]
      simp only [decodeValue]
      rw [numberAt_of_le (by omega), ok_bind, numberAt_of_le (by omega), ok_bind,
        numberAt_of_le (by omega), ok_bind, reserved, size, refuse_of_not _ (by
          unfold inlineLimit at small
          unfold maxValue
          omega), raise_ok, ok_bind, numberAt_of_le (by omega), ok_bind, tag, head,
        if_pos ⟨rfl, small, rfl, length⟩, readAt_of_le (by omega), length, Nat.add_sub_cancel_left, tail]
      rfl
  | overflow stored head =>
      simp only [validStored, Bool.and_eq_true, decide_eq_true_eq] at valid
      obtain ⟨⟨large, bounded⟩, refers⟩ := valid
      have fits : stored < 256 ^ 4 := by
        unfold maxValue at bounded
        omega
      have headFits : head < 256 ^ 8 := by
        have := refers.2
        norm_num at counted ⊢
        omega
      have length : (Slot.cell ⟨key, .overflow stored head⟩).image.length = 16 + key.length := by
        simp [Slot.image]
        omega
      have tag : uintAt 1 (Slot.cell ⟨key, .overflow stored head⟩).image 2 = 1 :=
        uintAt_of_field (by simp [Slot.image, slice_append_right, slice_zero_append]) (by norm_num)
      have reserved : uintAt 1 (Slot.cell ⟨key, .overflow stored head⟩).image 3 = 0 :=
        uintAt_of_field (by
          simp [Slot.image, slice_append_right, slice_zero_append, leBytes_zero]) (by norm_num)
      have size : uintAt 4 (Slot.cell ⟨key, .overflow stored head⟩).image 4 = stored :=
        uintAt_of_field (by simp [Slot.image, slice_append_right, slice_zero_append]) fits
      have isHead : uintAt 8 (Slot.cell ⟨key, .overflow stored head⟩).image 8 = head :=
        uintAt_of_field (by simp [Slot.image, slice_append_right, slice_zero_append]) headFits
      simp only [decodeValue]
      rw [numberAt_of_le (by omega), ok_bind, numberAt_of_le (by omega), ok_bind,
        numberAt_of_le (by omega), ok_bind, reserved, size, refuse_of_not _ (by omega), raise_ok, ok_bind,
        numberAt_of_le (by omega), ok_bind, tag, isHead, if_neg (by omega),
        if_pos ⟨rfl, large, refers, length⟩]
      rfl

/-- A child is read from the image of its cell, or an error is reported. -/
theorem decodeChild_cases (long : 12 + key.length ≤ cell.length)
    (keyAt : slice cell 12 key.length = key) (isLength : uintAt 2 cell 0 = key.length) :
    (∃ error, decodeChild cell key.length count = .error (.raised error)) ∨
    ∃ child, decodeChild cell key.length count = .ok child ∧ validRef child count ∧
      cell = (Slot.child key child).image := by
  simp only [decodeChild]
  rw [numberAt_of_le (by omega), ok_bind, numberAt_of_le (by omega), ok_bind]
  by_cases bad : uintAt 2 cell 2 ≠ 0 ∨ cell.length ≠ 12 + key.length ∨ ¬ validRef (uintAt 8 cell 4) count
  · exact .inl ⟨_, by rw [refuse_of _ bad]; rfl⟩
  · rw [refuse_of_not _ bad]
    simp only [not_or, not_not] at bad
    obtain ⟨reserved, exact, refers⟩ := bad
    refine .inr ⟨_, rfl, refers, ?_⟩
    have split := childCell_split exact keyAt
    rw [isLength, reserved, leBytes_zero] at split
    exact split

/-- A child is read back from the image of its cell. -/
theorem decodeChild_image {child : Nat} (counted : count ≤ 2 ^ 64) (refers : validRef child count) :
    decodeChild (Slot.child key child).image key.length count = .ok child := by
  have fits : child < 256 ^ 8 := by
    have := refers.2
    norm_num at counted ⊢
    omega
  have length : (Slot.child key child).image.length = 12 + key.length := by
    simp [Slot.image]
    omega
  have reserved : uintAt 2 (Slot.child key child).image 2 = 0 :=
    uintAt_of_field (by
      simp [Slot.image, slice_append_right, slice_zero_append, leBytes_zero]) (by norm_num)
  have isChild : uintAt 8 (Slot.child key child).image 4 = child :=
    uintAt_of_field (by simp [Slot.image, slice_append_right, slice_zero_append]) fits
  simp only [decodeChild]
  rw [numberAt_of_le (by omega), ok_bind, numberAt_of_le (by omega), ok_bind, reserved, isChild,
    refuse_of_not _ (by simp [length, refers])]
  rfl

end Cells

/-! ## Slots -/

/-- A page holds a slot: its table entry, and its cell right below a position. -/
structure Reads (bytes : Bytes) (upper count position stop : Nat) (keys : List Bytes) (slot : Slot) :
    Prop where
  room : slot.image.length ≤ stop
  above : upper ≤ stop - slot.image.length
  entry : slice bytes (64 + 4 * position) 4 =
    leBytes 2 (stop - slot.image.length) ++ leBytes 2 slot.image.length
  held : slice bytes (stop - slot.image.length) slot.image.length = slot.image
  short : slot.key.length ≤ maxKey
  ordered : unordered keys.getLast? slot.key = false
  valid : slot.Valid count

/-- What a decoder has read after one more slot. -/
def Decoding.push (state : Decoding) (slot : Slot) : Decoding :=
  match slot with
  | .cell cell => ⟨state.stop - slot.image.length, state.keys ++ [cell.key], state.cells ++ [cell],
      state.children⟩
  | .child key child => ⟨state.stop - slot.image.length, state.keys ++ [key], state.cells,
      state.children ++ [child]⟩

section Slots

variable {bytes : Bytes} {upper count position : Nat} {state : Decoding} {slot : Slot} {leaf : Bool}

theorem fixed_le_image (slot : Slot) :
    fixedLength slot.isLeaf + slot.key.length ≤ slot.image.length := by
  match slot with
  | .cell ⟨key, .inline value⟩ =>
      simp [Slot.image, fixedLength, Slot.isLeaf, Slot.key]
      omega
  | .cell ⟨key, .overflow length head⟩ =>
      simp [Slot.image, fixedLength, Slot.isLeaf, Slot.key]
      omega
  | .child key id =>
      simp [Slot.image, fixedLength, Slot.isLeaf, Slot.key]
      omega

theorem keyLength_image (slot : Slot) (short : slot.key.length ≤ maxKey) :
    uintAt 2 slot.image 0 = slot.key.length := by
  have fits : slot.key.length < 256 ^ 2 := by
    unfold maxKey at short
    omega
  refine uintAt_of_field ?_ fits
  match slot with
  | .cell ⟨key, .inline value⟩ => simp [Slot.image, Slot.key, slice_zero_append]
  | .cell ⟨key, .overflow length head⟩ => simp [Slot.image, Slot.key, slice_zero_append]
  | .child key id => simp [Slot.image, Slot.key, slice_zero_append]

theorem key_image (slot : Slot) :
    slice slot.image (fixedLength slot.isLeaf) slot.key.length = slot.key := by
  match slot with
  | .cell ⟨key, .inline value⟩ =>
      simp [Slot.image, Slot.key, Slot.isLeaf, fixedLength, slice_append_right, slice_zero_append]
  | .cell ⟨key, .overflow length head⟩ =>
      simp [Slot.image, Slot.key, Slot.isLeaf, fixedLength, slice_append_right, slice_self]
  | .child key id =>
      simp [Slot.image, Slot.key, Slot.isLeaf, fixedLength, slice_append_right, slice_self]

/-- The two fields of a table entry. -/
theorem entry_iff {start length : Nat} (inside : 64 + 4 * position + 4 ≤ bytes.length)
    (startFits : start < 256 ^ 2) (lengthFits : length < 256 ^ 2) :
    slice bytes (64 + 4 * position) 4 = leBytes 2 start ++ leBytes 2 length ↔
      uintAt 2 bytes (64 + 4 * position) = start ∧ uintAt 2 bytes (66 + 4 * position) = length := by
  have next : 64 + 4 * position + 2 = 66 + 4 * position := by omega
  rw [slice_add bytes (64 + 4 * position) 2 2, next]
  constructor
  · intro same
    obtain ⟨first, second⟩ := List.append_inj same (by rw [length_slice, length_leBytes]; omega)
    exact ⟨uintAt_of_field first startFits, uintAt_of_field second lengthFits⟩
  · rintro ⟨rfl, rfl⟩
    rw [leBytes_uintAt (by omega), leBytes_uintAt (by omega)]

/-- Reading a slot that a page holds. -/
theorem decodeSlot_of_reads (size : bytes.length = pageSize) (stops : state.stop ≤ pageSize)
    (counted : count ≤ 2 ^ 64) (inside : 64 + 4 * position + 4 ≤ pageSize)
    (reads : Reads bytes upper count position state.stop state.keys slot) :
    decodeSlot slot.isLeaf bytes upper count position state = .ok (state.push slot) := by
  have room := reads.room
  have above := reads.above
  have fixed := fixed_le_image slot
  have widths : pageSize < 256 ^ 2 := by norm_num [pageSize]
  obtain ⟨isOffset, isLength⟩ := (entry_iff (by omega) (by omega) (by omega)).mp reads.entry
  have cut : state.stop - (state.stop - slot.image.length) = slot.image.length := by omega
  simp only [decodeSlot]
  rw [numberAt_of_le (by omega), ok_bind, numberAt_of_le (by omega), ok_bind, isOffset, isLength,
    refuse_of_not _ (by omega), raise_ok, ok_bind, readAt_of_le (by omega), ok_bind, cut,
    reads.held, numberAt_of_le (by unfold fixedLength at fixed; split at fixed <;> omega), ok_bind,
    keyLength_image slot reads.short]
  have short := reads.short
  rw [refuse_of_not _ (by omega), raise_ok, ok_bind, readAt_of_le fixed, ok_bind, key_image,
    refuse_of_not _ (by simp [reads.ordered]), raise_ok, ok_bind]
  have valid := reads.valid
  cases slot with
  | cell cell =>
      simp only [Slot.isLeaf, if_true, Slot.key, decodeValue_image counted valid, ok_bind, pure_eq_ok,
        Decoding.push]
  | child key child =>
      simp only [Slot.isLeaf, if_neg Bool.false_ne_true, Slot.key, decodeChild_image counted valid,
        ok_bind, pure_eq_ok, Decoding.push]

/-- Reading a slot reports an error or reads one that the page holds. -/
theorem decodeSlot_cases (size : bytes.length = pageSize) (stops : state.stop ≤ pageSize)
    (inside : 64 + 4 * position + 4 ≤ pageSize) :
    (∃ error, decodeSlot leaf bytes upper count position state = .error (.raised error)) ∨
    ∃ slot : Slot, slot.isLeaf = leaf ∧ Reads bytes upper count position state.stop state.keys slot ∧
      decodeSlot leaf bytes upper count position state = .ok (state.push slot) := by
  have offsetFits := uintAt_lt 2 bytes (64 + 4 * position)
  have lengthFits := uintAt_lt 2 bytes (66 + 4 * position)
  have entry := (@entry_iff bytes position _ _ (by omega) offsetFits lengthFits).mpr ⟨rfl, rfl⟩
  simp only [decodeSlot]
  rw [numberAt_of_le (by omega), ok_bind, numberAt_of_le (by omega), ok_bind]
  generalize uintAt 2 bytes (64 + 4 * position) = offset at entry ⊢
  generalize uintAt 2 bytes (66 + 4 * position) = length at entry ⊢
  by_cases noncanonical : offset < upper ∨ offset + length ≠ state.stop ∨ length < fixedLength leaf
  · exact .inl ⟨_, by rw [refuse_of _ noncanonical]; rfl⟩
  rw [refuse_of_not _ noncanonical, raise_ok, ok_bind]
  simp only [not_or, not_not, not_lt] at noncanonical
  obtain ⟨above, meets, long⟩ := noncanonical
  have twelve : 12 ≤ fixedLength leaf := by
    unfold fixedLength
    split <;> omega
  have width : state.stop - offset = length := by omega
  rw [readAt_of_le (by omega), ok_bind, width]
  obtain ⟨cell, isCell⟩ : ∃ cell, slice bytes offset length = cell := ⟨_, rfl⟩
  have exact : cell.length = length := by
    rw [← isCell, length_slice]
    omega
  rw [isCell, numberAt_of_le (by omega), ok_bind]
  by_cases badKey : uintAt 2 cell 0 > maxKey ∨ fixedLength leaf + uintAt 2 cell 0 > length
  · exact .inl ⟨_, by rw [refuse_of _ badKey]; rfl⟩
  rw [refuse_of_not _ badKey, raise_ok, ok_bind, readAt_of_le (by omega), ok_bind]
  simp only [not_or, not_lt] at badKey
  obtain ⟨short, fits⟩ := badKey
  obtain ⟨key, keyAt⟩ : ∃ key, slice cell (fixedLength leaf) (uintAt 2 cell 0) = key := ⟨_, rfl⟩
  have isLength : uintAt 2 cell 0 = key.length := by
    rw [← keyAt, length_slice]
    omega
  rw [keyAt]
  rw [isLength] at keyAt short fits ⊢
  by_cases disordered : unordered state.keys.getLast? key = true
  · exact .inl ⟨_, by rw [refuse_of _ disordered]; rfl⟩
  rw [refuse_of_not _ disordered, raise_ok, ok_bind]
  have ordered : unordered state.keys.getLast? key = false := by simpa using disordered
  have holds {slot : Slot} (same : cell = slot.image) (isKey : slot.key = key) (valid : slot.Valid count) :
      Reads bytes upper count position state.stop state.keys slot := by
    have start : state.stop - slot.image.length = offset := by
      rw [← same]
      omega
    refine ⟨by rw [← same]; omega, by rw [start]; exact above, ?_, ?_, isKey ▸ short, isKey ▸ ordered,
      valid⟩
    · rw [start, ← same, exact]
      exact entry
    · rw [start, ← same, exact]
      exact isCell
  have starts {slot : Slot} (same : cell = slot.image) : state.stop - slot.image.length = offset := by
    rw [← same]
    omega
  cases leaf with
  | true =>
      rcases @decodeValue_cases cell key count (exact ▸ fits) keyAt isLength with
        ⟨error, failed⟩ | ⟨value, decoded, valid, same⟩
      · exact .inl ⟨error, by simp only [if_true, failed, error_bind]⟩
      · refine .inr ⟨.cell ⟨key, value⟩, rfl, holds same rfl valid, ?_⟩
        simp only [if_true, decoded, ok_bind, pure_eq_ok, Decoding.push, starts same]
  | false =>
      rcases @decodeChild_cases cell key count (exact ▸ fits) keyAt isLength with
        ⟨error, failed⟩ | ⟨child, decoded, valid, same⟩
      · exact .inl ⟨error, by simp only [if_neg Bool.false_ne_true, failed, error_bind]⟩
      · refine .inr ⟨.child key child, rfl, holds same rfl valid, ?_⟩
        simp only [if_neg Bool.false_ne_true, decoded, ok_bind, pure_eq_ok, Decoding.push, starts same]

/-! ## All slots -/

@[simp]
theorem Decoding.push_stop (state : Decoding) (slot : Slot) :
    (state.push slot).stop = state.stop - slot.image.length := by
  cases slot <;> rfl

@[simp]
theorem Decoding.push_keys (state : Decoding) (slot : Slot) :
    (state.push slot).keys = state.keys ++ [slot.key] := by
  cases slot <;> rfl

/-- A page holds slots one after the other from a position on. -/
def ReadsAll (leaf : Bool) (bytes : Bytes) (upper count : Nat) : Nat → Decoding → List Slot → Prop
  | _, _, [] => True
  | position, state, slot :: rest =>
      slot.isLeaf = leaf ∧ Reads bytes upper count position state.stop state.keys slot ∧
        ReadsAll leaf bytes upper count (position + 1) (state.push slot) rest

theorem decodeSlots_of_reads (size : bytes.length = pageSize) (counted : count ≤ 2 ^ 64)
    {rest : List Slot} (stops : state.stop ≤ pageSize)
    (inside : 64 + 4 * (position + rest.length) ≤ pageSize)
    (reads : ReadsAll leaf bytes upper count position state rest) :
    decodeSlots leaf bytes upper count rest.length position state =
      .ok (rest.foldl Decoding.push state) := by
  induction rest generalizing position state with
  | nil => rfl
  | cons slot rest ih =>
      obtain ⟨rfl, first, others⟩ := reads
      rw [List.length_cons] at inside
      have stops' : (state.push slot).stop ≤ pageSize := by
        rw [Decoding.push_stop]
        omega
      rw [List.length_cons, decodeSlots,
        decodeSlot_of_reads size stops counted (by omega) first, ok_bind, List.foldl_cons]
      exact ih stops' (by omega) others

/-- Reading slots reports an error or reads those that the page holds. -/
theorem decodeSlots_cases (size : bytes.length = pageSize) {remaining : Nat}
    (stops : state.stop ≤ pageSize) (inside : 64 + 4 * (position + remaining) ≤ pageSize) :
    (∃ error, decodeSlots leaf bytes upper count remaining position state = .error (.raised error)) ∨
    ∃ rest : List Slot, rest.length = remaining ∧ ReadsAll leaf bytes upper count position state rest ∧
      decodeSlots leaf bytes upper count remaining position state =
        .ok (rest.foldl Decoding.push state) := by
  induction remaining generalizing position state with
  | zero => exact .inr ⟨[], rfl, trivial, rfl⟩
  | succ remaining ih =>
      rw [decodeSlots]
      rcases @decodeSlot_cases bytes upper count position state leaf size stops (by omega) with
        ⟨error, failed⟩ | ⟨slot, kind, reads, decoded⟩
      · exact .inl ⟨error, by rw [failed]; rfl⟩
      · have stops' : (state.push slot).stop ≤ pageSize := by
          rw [Decoding.push_stop]
          omega
        rw [decoded, ok_bind]
        rcases @ih (position + 1) (state.push slot) stops' (by omega) with
          ⟨error, failed⟩ | ⟨rest, length, all, decoded⟩
        · exact .inl ⟨error, failed⟩
        · exact .inr ⟨slot :: rest, by rw [List.length_cons, length], ⟨kind, reads, all⟩, decoded⟩

/-- The table and the cells that were read are those of the slots. -/
theorem ReadsAll.layout {rest : List Slot} (reads : ReadsAll leaf bytes upper count position state rest) :
    slice bytes (64 + 4 * position) (4 * rest.length) = slotTable state.stop (rest.map Slot.image) ∧
      total (rest.map Slot.image) ≤ state.stop ∧
      slice bytes (state.stop - total (rest.map Slot.image)) (total (rest.map Slot.image)) =
        heap (rest.map Slot.image) := by
  induction rest generalizing position state with
  | nil => simp [slotTable, heap]
  | cons slot rest ih =>
      obtain ⟨-, first, others⟩ := reads
      obtain ⟨table, room, cells⟩ := ih others
      rw [Decoding.push_stop] at table room cells
      have enough := first.room
      refine ⟨?_, ?_, ?_⟩
      · rw [List.length_cons, Nat.mul_succ, Nat.add_comm (4 * rest.length), slice_add, first.entry,
          show 64 + 4 * position + 4 = 64 + 4 * (position + 1) by omega, table, List.map_cons, slotTable,
          List.append_assoc]
      · rw [List.map_cons, total_cons]
        omega
      · rw [List.map_cons, total_cons, Nat.add_comm, slice_add,
          show state.stop - (total (rest.map Slot.image) + slot.image.length) =
            state.stop - slot.image.length - total (rest.map Slot.image) by omega, cells,
          show state.stop - slot.image.length - total (rest.map Slot.image) + total (rest.map Slot.image) =
            state.stop - slot.image.length by omega, first.held]
        simp [heap]

/-- The slots that a decoder reads are short, ordered and valid, and stay above
the boundary. -/
theorem ReadsAll.sound {rest : List Slot} (reads : ReadsAll leaf bytes upper count position state rest) :
    (∀ slot ∈ rest, slot.isLeaf = leaf ∧ slot.key.length ≤ maxKey ∧ slot.Valid count) := by
  induction rest generalizing position state with
  | nil => simp
  | cons slot rest ih =>
      obtain ⟨kind, first, others⟩ := reads
      intro other member
      rcases List.mem_cons.mp member with rfl | later
      · exact ⟨kind, first.short, first.valid⟩
      · exact ih others other later

/-- A page of a header and the cells of slots holds these slots. -/
theorem readsAll_pageBytes {head : Bytes} {done rest : List Slot} (exact : head.length = 64)
    (room : Roomy ((done ++ rest).map Slot.image))
    (above : upper ≤ pageSize - total ((done ++ rest).map Slot.image))
    (sorted : ((done ++ rest).map Slot.key).Pairwise (· < ·))
    (each : ∀ slot ∈ rest, slot.isLeaf = leaf ∧ slot.key.length ≤ maxKey ∧ slot.Valid count)
    (stops : state.stop = pageSize - total (done.map Slot.image))
    (keys : state.keys = done.map Slot.key) :
    ReadsAll leaf (pageBytes head ((done ++ rest).map Slot.image)) upper count done.length state rest := by
  induction rest generalizing done state with
  | nil => trivial
  | cons slot rest ih =>
      obtain ⟨kind, short, valid⟩ := each slot List.mem_cons_self
      refine ⟨kind, ?_, ?_⟩
      · have size : pageSize = payloadSize + 64 := by simp [pageSize, payloadSize, headerSize]
        have whole := room
        simp only [Roomy, List.map_append, List.map_cons, List.length_append, List.length_cons,
          List.length_map, total_append, total_cons] at whole above
        have start : state.stop - slot.image.length =
            64 + 4 * (done.length + (rest.length + 1)) +
              (payloadSize - 4 * (done.length + (rest.length + 1)) -
                (total (done.map Slot.image) + (slot.image.length + total (rest.map Slot.image)))) +
              total (rest.map Slot.image) := by
          rw [stops]
          omega
        refine ⟨by omega, by omega, ?_, ?_, short, ?_, valid⟩
        · rw [pageBytes, List.map_append, List.map_cons, slotTable_append, slotTable, ← stops,
            List.append_assoc, ← List.append_assoc head, slice_append_right _ _ (by simp [exact])]
          simp only [List.length_append, exact, length_slotTable, List.length_map, Nat.sub_self,
            ← List.append_assoc (leBytes 2 (state.stop - slot.image.length))]
          rw [slice_append_left _ (by simp; omega), slice_append_left _ (by simp), slice_self (by simp)]
        · rw [pageBytes, List.map_append, List.map_cons, slice_append_right _ _ (by rw [exact]; omega),
            slice_append_right _ _ (by
              simp only [exact, length_slotTable, List.length_append, List.length_cons, List.length_map]
              omega),
            slice_append_right _ _ (by
              simp only [exact, length_slotTable, length_zeros, List.length_append, List.length_cons,
                List.length_map, total_append, total_cons]
              omega),
            show done.map Slot.image ++ slot.image :: rest.map Slot.image =
              (done.map Slot.image ++ [slot.image]) ++ rest.map Slot.image by simp,
            heap_append, heap_append, heap_singleton]
          simp only [List.length_append, List.length_cons, List.length_nil, exact, length_slotTable,
            length_zeros, List.length_map, total_append, total_cons, total_nil]
          rw [slice_append_right _ _ (by rw [length_heap]; omega), length_heap,
            show state.stop - slot.image.length - 64 - 4 * (done.length + (0 + 1) + rest.length) -
              (payloadSize - 4 * (done.length + (0 + 1) + rest.length) -
                (total (done.map Slot.image) + (slot.image.length + 0) + total (rest.map Slot.image))) -
              total (rest.map Slot.image) = 0 by omega, slice_zero_append _ rfl]
        · rw [keys]
          simp only [List.map_append, List.map_cons] at sorted
          have before := (List.pairwise_append.mp sorted).2.2
          cases last : (done.map Slot.key).getLast? with
          | none => rfl
          | some key =>
              have less := before key (List.mem_of_getLast? last) slot.key List.mem_cons_self
              simp [unordered, less]
      · have split : done ++ slot :: rest = (done ++ [slot]) ++ rest := by simp
        rw [split] at room above sorted ⊢
        have next := @ih (state.push slot) (done ++ [slot]) room above sorted
          (fun other member => each other (List.mem_cons_of_mem _ member))
          (by
            rw [Decoding.push_stop, stops, List.map_append, total_append, List.map_singleton, total_cons,
              total_nil]
            omega)
          (by rw [Decoding.push_keys, keys, List.map_append, List.map_singleton])
        rw [List.length_append, List.length_singleton] at next
        exact next

end Slots

/-! ## Headers -/

section Headers

variable {kind level id tree cells lower upper link payload crc : Nat} {rest : Bytes}

/-- The numbers of a header fit its fields. -/
structure HeadFits (kind level id tree cells lower upper link payload crc : Nat) : Prop where
  kind : kind < 256 ^ 1
  level : level < 256 ^ 1
  id : id < 256 ^ 8
  tree : tree < 256 ^ 4
  cells : cells < 256 ^ 2
  lower : lower < 256 ^ 2
  upper : upper < 256 ^ 2
  link : link < 256 ^ 8
  payload : payload < 256 ^ 4
  crc : crc < 256 ^ 4

/-- The fields of a page. -/
structure HeadReads (bytes : Bytes) (kind level id tree cells lower upper link payload crc : Nat) :
    Prop where
  magic : slice bytes 0 4 = magic
  version : uintAt 2 bytes 4 = 1
  kind : uintAt 1 bytes 6 = kind
  level : uintAt 1 bytes 7 = level
  id : uintAt 8 bytes 8 = id
  tree : uintAt 4 bytes 16 = tree
  cells : uintAt 2 bytes 20 = cells
  afterCells : slice bytes 22 2 = zeros 2
  lower : uintAt 2 bytes 24 = lower
  upper : uintAt 2 bytes 26 = upper
  afterUpper : slice bytes 28 4 = zeros 4
  link : uintAt 8 bytes 32 = link
  payload : uintAt 4 bytes 40 = payload
  afterPayload : slice bytes 44 16 = zeros 16
  crc : uintAt 4 bytes 60 = crc

theorem headReads_headBytes (fits : HeadFits kind level id tree cells lower upper link payload crc) :
    HeadReads (headBytes kind level id tree cells lower upper link payload crc ++ rest)
      kind level id tree cells lower upper link payload crc := by
  have past {offset width : Nat} (later : 4 ≤ offset) :
      slice (headBytes kind level id tree cells lower upper link payload crc ++ rest) offset width =
        slice (leBytes 2 1 ++ (leBytes 1 kind ++ (leBytes 1 level ++ (leBytes 8 id ++
          (leBytes 4 tree ++ (leBytes 2 cells ++ (zeros 2 ++ (leBytes 2 lower ++ (leBytes 2 upper ++
            (zeros 4 ++ (leBytes 8 link ++ (leBytes 4 payload ++ (zeros 16 ++
              (leBytes 4 crc ++ rest)))))))))))))) (offset - 4) width := by
    simp only [headBytes, List.append_assoc]
    rw [slice_append_right _ _ (by simpa using later), length_magic]
  have start : slice (headBytes kind level id tree cells lower upper link payload crc ++ rest) 0 4 =
      magic := by
    simp only [headBytes, List.append_assoc]
    exact slice_zero_append _ rfl
  refine ⟨start, uintAt_of_field ?_ (by norm_num), uintAt_of_field ?_ fits.kind,
    uintAt_of_field ?_ fits.level, uintAt_of_field ?_ fits.id, uintAt_of_field ?_ fits.tree,
    uintAt_of_field ?_ fits.cells, ?_, uintAt_of_field ?_ fits.lower, uintAt_of_field ?_ fits.upper, ?_,
    uintAt_of_field ?_ fits.link, uintAt_of_field ?_ fits.payload, ?_, uintAt_of_field ?_ fits.crc⟩ <;>
    rw [past (by norm_num)] <;> simp [slice_append_right, slice_zero_append]

/-- The first bytes of a page are its fields. -/
theorem take_eq_headBytes {bytes : Bytes} (long : 64 ≤ bytes.length)
    (reads : HeadReads bytes kind level id tree cells lower upper link payload crc) :
    bytes.take 64 = headBytes kind level id tree cells lower upper link payload crc := by
  have whole : bytes.take 64 = slice bytes 0 64 := rfl
  have version : leBytes 2 1 = slice bytes 4 2 := by
    rw [← leBytes_uintAt (by omega), reads.version]
  rw [whole, headBytes, version, ← reads.magic, ← reads.kind, ← reads.level, ← reads.id,
    ← reads.tree, ← reads.cells, ← reads.afterCells, ← reads.lower, ← reads.upper, ← reads.afterUpper,
    ← reads.link, ← reads.payload, ← reads.afterPayload, ← reads.crc]
  rw [leBytes_uintAt (by omega), leBytes_uintAt (by omega), leBytes_uintAt (by omega),
    leBytes_uintAt (by omega), leBytes_uintAt (by omega), leBytes_uintAt (by omega),
    leBytes_uintAt (by omega), leBytes_uintAt (by omega), leBytes_uintAt (by omega),
    leBytes_uintAt (by omega)]
  rw [← slice_add, ← slice_add bytes 40, ← slice_add bytes 32, ← slice_add bytes 28,
    ← slice_add bytes 26, ← slice_add bytes 24, ← slice_add bytes 22, ← slice_add bytes 20,
    ← slice_add bytes 16, ← slice_add bytes 8, ← slice_add bytes 7, ← slice_add bytes 6,
    ← slice_add bytes 4, ← slice_add bytes 0]

end Headers

theorem not_anyNonzero_iff {bytes : Bytes} : ¬ anyNonzero bytes = true ↔ bytes = zeros bytes.length := by
  constructor
  · exact eq_zeros_of_all
  · intro same
    rw [same]
    exact not_any_zeros _

/-! ## What was read as a node -/

theorem foldl_push_cells (cells : List LeafCell) (state : Decoding) :
    (cells.map Slot.cell).foldl Decoding.push state =
      ⟨state.stop - total ((cells.map Slot.cell).map Slot.image), state.keys ++ cells.map LeafCell.key,
        state.cells ++ cells, state.children⟩ := by
  induction cells generalizing state with
  | nil => simp
  | cons cell cells ih =>
      simp only [List.map_cons, List.foldl_cons, ih, Decoding.push, total_cons, List.append_assoc,
        List.singleton_append, Nat.sub_sub]

theorem foldl_push_children (pairs : List (Bytes × Nat)) (state : Decoding) :
    (pairs.map fun pair => Slot.child pair.1 pair.2).foldl Decoding.push state =
      ⟨state.stop - total ((pairs.map fun pair => Slot.child pair.1 pair.2).map Slot.image),
        state.keys ++ pairs.map Prod.fst, state.cells, state.children ++ pairs.map Prod.snd⟩ := by
  induction pairs generalizing state with
  | nil => simp
  | cons pair pairs ih =>
      simp only [List.map_cons, List.foldl_cons, ih, Decoding.push, total_cons, List.append_assoc,
        List.singleton_append, Nat.sub_sub]

/-- Slots of one kind are cells or children. -/
theorem slots_of_kind {rest : List Slot} {leaf : Bool} (kinds : ∀ slot ∈ rest, slot.isLeaf = leaf) :
    match leaf with
    | true => ∃ cells : List LeafCell, rest = cells.map Slot.cell
    | false => ∃ pairs : List (Bytes × Nat), rest = pairs.map fun pair => Slot.child pair.1 pair.2 := by
  induction rest with
  | nil =>
      cases leaf with
      | true => exact ⟨[], rfl⟩
      | false => exact ⟨[], rfl⟩
  | cons slot rest ih =>
      have others := ih fun other member => kinds other (List.mem_cons_of_mem _ member)
      have kind := kinds slot List.mem_cons_self
      cases leaf with
      | true =>
          obtain ⟨cells, rfl⟩ := others
          cases slot with
          | cell cell => exact ⟨cell :: cells, rfl⟩
          | child key id => cases kind
      | false =>
          obtain ⟨pairs, rfl⟩ := others
          cases slot with
          | cell cell => cases kind
          | child key id => exact ⟨(key, id) :: pairs, rfl⟩

/-- The node that has been read, from the first child and the slots. -/
def nodeOf (kind level link : Nat) (rest : List Slot) : Node :=
  let state := rest.foldl Decoding.push ⟨pageSize, [], [], [link]⟩
  if kind = 1 then .leaf state.cells else .internal level state.keys state.children

theorem nodeOf_slots (node : Node) (shape : checkInternal node = .ok ()) :
    nodeOf (nodeKind node) node.level (firstChild node) (slots node) = node := by
  cases node with
  | leaf cells => simp [nodeOf, nodeKind, slots, foldl_push_cells]
  | internal level keys children =>
      have length := children_of_shape shape _ _ _ rfl
      cases children with
      | nil => simp at length
      | cons first children =>
          simp only [List.length_cons, Nat.add_right_cancel_iff] at length
          simp [nodeOf, nodeKind, slots, foldl_push_children, firstChild, Node.level, List.map_fst_zip,
            List.map_snd_zip, length]

theorem stop_foldl_push (rest : List Slot) (state : Decoding) :
    (rest.foldl Decoding.push state).stop = state.stop - total (rest.map Slot.image) := by
  induction rest generalizing state with
  | nil => simp
  | cons slot rest ih => simp only [List.foldl_cons, ih, Decoding.push_stop, List.map_cons, total_cons,
      Nat.sub_sub]

theorem key_slots {node : Node} (shape : checkInternal node = .ok ()) :
    (slots node).map Slot.key = node.slotKeys := by
  cases node with
  | leaf cells => simp [slots, Node.slotKeys, Slot.key, Function.comp_def]
  | internal level keys children =>
      have length := children_of_shape shape _ _ _ rfl
      simp only [slots, Node.slotKeys, List.map_map, Function.comp_def, Slot.key]
      rw [List.map_fst_zip]
      simp [length]

theorem kind_slots (node : Node) : ∀ slot ∈ slots node, slot.isLeaf = decide (nodeKind node = 1) := by
  intro slot member
  cases node with
  | leaf cells =>
      obtain ⟨cell, -, rfl⟩ := List.mem_map.mp member
      rfl
  | internal level keys children =>
      obtain ⟨pair, -, rfl⟩ := List.mem_map.mp member
      rfl

theorem length_layout {node : Node} (accepted : Encodable node) (tree : TreeId) (id crc : Nat) :
    (layout tree node id crc).length = pageSize :=
  length_pageBytes (length_headBytes ..) (Encodable.roomy accepted.shape accepted.fits)

theorem overwrite_layout_crc (tree : TreeId) (node : Node) (id crc crc' : Nat) :
    overwrite (layout tree node id crc) 60 (leBytes 4 crc') = layout tree node id crc' :=
  overwrite_crc ..

/-- The node that has been read has the slots and the fields it was read from. -/
theorem nodeOf_shape {rest : List Slot} {kind level link count : Nat}
    (kinds : kind = 1 ∧ level = 0 ∧ link = 0 ∨ kind = 2 ∧ level ≠ 0 ∧ validRef link count)
    (each : ∀ slot ∈ rest, slot.isLeaf = decide (kind = 1) ∧ slot.key.length ≤ maxKey ∧ slot.Valid count) :
    slots (nodeOf kind level link rest) = rest ∧ nodeKind (nodeOf kind level link rest) = kind ∧
      (nodeOf kind level link rest).level = level ∧ firstChild (nodeOf kind level link rest) = link ∧
      checkInternal (nodeOf kind level link rest) = .ok () := by
  rcases kinds with ⟨rfl, rfl, rfl⟩ | ⟨rfl, leveled, refers⟩
  · obtain ⟨held, rfl⟩ := @slots_of_kind rest true fun slot member => (each slot member).1
    simp [nodeOf, foldl_push_cells, slots, nodeKind, Node.level, firstChild, checkInternal]
  · obtain ⟨pairs, rfl⟩ := @slots_of_kind rest false fun slot member => (each slot member).1
    have zero : (0 : Nat) ∉ pairs.map Prod.snd := by
      intro member
      obtain ⟨pair, inPairs, isZero⟩ := List.mem_map.mp member
      have valid := (each _ (List.mem_map_of_mem inPairs)).2.2
      exact valid.1 isZero
    have first : link ≠ 0 := refers.1
    have zip : (pairs.map Prod.fst).zip (pairs.map Prod.snd) = pairs := by
      rw [List.zip_map']
      simp
    refine ⟨?_, rfl, rfl, ?_, refuse_of_not _ ?_⟩
    · simp [nodeOf, foldl_push_children, slots, zip]
    · simp [nodeOf, foldl_push_children, firstChild]
    · simp only [foldl_push_children, List.nil_append, List.singleton_append, List.length_cons,
        List.length_map, List.mem_cons, not_or]
      exact ⟨leveled, by simp, Ne.symm first, zero⟩

/-- What an encoder relies on and a decoder checks beyond the layout. -/
structure Admissible (count : Nat) (node : Node) : Prop where
  sorted : node.slotKeys.Pairwise (· < ·)
  level : node.level < 256
  slots : ∀ slot ∈ slots node, slot.Valid count
  link : ∀ level keys children, node = .internal level keys children → validRef (children.headD 0) count

section Nodes

variable [Crc32c] {bytes : Bytes} {id count kind level cells upper link : Nat} {tree : TreeId}
  {node : Node}

/-- What a header check establishes of a node page. -/
structure NodeHeader (bytes : Bytes) (id : Nat) (tree : Option TreeId)
    (count kind level cells upper link : Nat) : Prop where
  reads : HeadReads bytes kind level id (tree.elim 0 TreeId.number) cells (64 + 4 * cells) upper link 0
    (Crc32c.checksum (overwrite bytes 60 (zeros 4)))
  positive : id ≠ 0
  nonempty : cells ≠ 0
  ordered : 64 + 4 * cells ≤ upper
  inside : upper ≤ pageSize
  gap : slice bytes (64 + 4 * cells) (upper - (64 + 4 * cells)) = zeros (upper - (64 + 4 * cells))
  kinds : kind = 1 ∧ level = 0 ∧ link = 0 ∨ kind = 2 ∧ level ≠ 0 ∧ validRef link count

theorem NodeHeader.validate {tree : Option TreeId}
    (header : NodeHeader bytes id tree count kind level cells upper link) :
    validateHeader bytes id tree count = .ok () := by
  have reads := header.reads
  simp only [validateHeader]
  rw [refuse_of_not _ (by simp [reads.magic, reads.crc]), ok_bind, reads.version,
    refuse_of_not _ (by simp), ok_bind, refuse_of_not _ (by simp [reads.id, reads.tree]), ok_bind,
    refuse_of_not _ (by
      rw [reads.afterCells, reads.afterUpper, reads.afterPayload]
      simp [anyNonzero, zeros]), ok_bind]
  simp only [reads.kind, reads.level, reads.cells, reads.lower, reads.upper, reads.link, reads.payload]
  have bounds : ¬ (cells = 0 ∨ 64 + 4 * cells ≠ 64 + 4 * cells ∨ 64 + 4 * cells > upper ∨
      upper > pageSize ∨ 0 ≠ 0 ∨
      anyNonzero (slice bytes (64 + 4 * cells) (upper - (64 + 4 * cells))) = true) := by
    simp only [ne_eq, not_true_eq_false, false_or, not_or, not_lt, gt_iff_lt]
    refine ⟨header.nonempty, header.ordered, header.inside, ?_⟩
    rw [header.gap]
    exact not_any_zeros _
  rcases header.kinds with ⟨rfl, rfl, rfl⟩ | ⟨rfl, leveled, refers⟩
  · rw [if_neg (by simp), if_pos ⟨.inl rfl, header.positive⟩, refuse_of_not _ bounds]
    simp
  · rw [if_neg (by simp), if_pos ⟨.inr rfl, header.positive⟩, refuse_of_not _ bounds]
    simp [leveled, refers]

theorem nodeHeader_of_validate {tree : Option TreeId} (size : bytes.length = pageSize)
    (valid : validateHeader bytes id tree count = .ok ())
    (isNode : uintAt 1 bytes 6 = 1 ∨ uintAt 1 bytes 6 = 2) :
    NodeHeader bytes id tree count (uintAt 1 bytes 6) (uintAt 1 bytes 7) (uintAt 2 bytes 20)
      (uintAt 2 bytes 26) (uintAt 8 bytes 32) := by
  have wide : pageSize = 16384 := rfl
  simp only [validateHeader, bind_eq_ok, refuse_eq_ok] at valid
  obtain ⟨-, intact, -, version, -, identity, -, reserved, valid⟩ := valid
  simp only [not_or, not_not] at intact version identity
  simp only [Bool.or_eq_true, not_or] at reserved
  have zero {offset width : Nat} (within : offset + width ≤ 16384)
      (none : ¬ anyNonzero (slice bytes offset width) = true) : slice bytes offset width = zeros width := by
    have same := not_anyNonzero_iff.mp none
    rwa [length_slice, min_eq_left (by omega)] at same
  rw [if_neg (by omega)] at valid
  by_cases asNode : (uintAt 1 bytes 6 = 1 ∨ uintAt 1 bytes 6 = 2) ∧ id ≠ 0
  · rw [if_pos asNode] at valid
    obtain ⟨⟨⟩, bounds, rest⟩ := bind_eq_ok.mp valid
    simp only [refuse_eq_ok, not_or, not_not, not_lt] at bounds
    obtain ⟨nonempty, lower, ordered, inside, payload, gap⟩ := bounds
    rw [lower] at ordered gap
    refine ⟨⟨intact.1, version, rfl, rfl, identity.1, identity.2, rfl, ?_, lower, rfl, ?_, rfl, payload,
      ?_, intact.2.symm⟩, asNode.2, nonempty, ordered, inside, ?_, ?_⟩
    · exact zero (by norm_num) reserved.1.1
    · exact zero (by norm_num) reserved.1.2
    · exact zero (by norm_num) reserved.2
    · exact zero (by omega) gap
    · rcases isNode with leaf | internal
      · rw [if_pos leaf, refuse_eq_ok] at rest
        simp only [not_or, not_not] at rest
        exact .inl ⟨leaf, rest⟩
      · rw [if_neg (by omega), refuse_eq_ok] at rest
        simp only [not_or, not_not] at rest
        exact .inr ⟨internal, rest⟩
  · rw [if_neg asNode, if_neg (by omega)] at valid
    cases valid

/-! ## Decoding a page -/

theorem tableInside {tree : Option TreeId}
    (header : NodeHeader bytes id tree count kind level cells upper link) :
    64 + 4 * (0 + cells) ≤ pageSize := by
  have := header.ordered
  have := header.inside
  omega

/-- Decoding a page that holds slots down to its boundary. -/
theorem decodeNode_of_reads {tree : Option TreeId} (size : bytes.length = pageSize)
    (counted : count ≤ 2 ^ 64) (header : NodeHeader bytes id tree count kind level cells upper link)
    {rest : List Slot} (length : rest.length = cells)
    (reads : ReadsAll (kind = 1) bytes upper count 0 ⟨pageSize, [], [], [link]⟩ rest)
    (meets : (rest.foldl Decoding.push ⟨pageSize, [], [], [link]⟩).stop = upper) :
    decodeNode bytes count = .ok (nodeOf kind level link rest) := by
  have wide : pageSize = 16384 := rfl
  have isNode : ¬ (kind ≠ 1 ∧ kind ≠ 2) := by
    rcases header.kinds with ⟨leaf, -⟩ | ⟨internal, -⟩ <;> omega
  simp only [decodeNode]
  rw [numberAt_of_le (by omega), header.reads.kind, ok_bind, refuse_of_not _ isNode, raise_ok, ok_bind,
    numberAt_of_le (by omega), header.reads.cells, ok_bind, numberAt_of_le (by omega),
    header.reads.upper, ok_bind, numberAt_of_le (by omega), header.reads.link, ok_bind, ← length,
    decodeSlots_of_reads size counted le_rfl (length ▸ tableInside header) reads, ok_bind,
    refuse_of_not _ (by simp [meets]), raise_ok, ok_bind, numberAt_of_le (by omega), header.reads.level]
  simp only [nodeOf, decide_eq_true_eq, ok_bind, pure_eq_ok]
  split <;> rfl

/-- Decoding a page whose header passed reports an error, or the page holds the
slots of the node down to its boundary. -/
theorem decodeNode_cases {tree : Option TreeId} (size : bytes.length = pageSize)
    (header : NodeHeader bytes id tree count kind level cells upper link) :
    (∃ error, decodeNode bytes count = .error (.raised error)) ∨
    ∃ rest : List Slot, rest.length = cells ∧
      ReadsAll (kind = 1) bytes upper count 0 ⟨pageSize, [], [], [link]⟩ rest ∧
      (rest.foldl Decoding.push ⟨pageSize, [], [], [link]⟩).stop = upper ∧
      decodeNode bytes count = .ok (nodeOf kind level link rest) := by
  have wide : pageSize = 16384 := rfl
  have isNode : ¬ (kind ≠ 1 ∧ kind ≠ 2) := by
    rcases header.kinds with ⟨leaf, -⟩ | ⟨internal, -⟩ <;> omega
  simp only [decodeNode]
  rw [numberAt_of_le (by omega), header.reads.kind, ok_bind, refuse_of_not _ isNode, raise_ok, ok_bind,
    numberAt_of_le (by omega), header.reads.cells, ok_bind, numberAt_of_le (by omega),
    header.reads.upper, ok_bind, numberAt_of_le (by omega), header.reads.link, ok_bind]
  rcases @decodeSlots_cases bytes upper count 0 ⟨pageSize, [], [], [link]⟩ (kind = 1) size cells le_rfl
    (tableInside header) with ⟨error, failed⟩ | ⟨rest, length, reads, decoded⟩
  · exact .inl ⟨error, by rw [failed]; rfl⟩
  · rw [decoded, ok_bind]
    by_cases apart : (rest.foldl Decoding.push ⟨pageSize, [], [], [link]⟩).stop ≠ upper
    · exact .inl ⟨_, by rw [refuse_of _ apart]; rfl⟩
    · refine .inr ⟨rest, length, reads, not_not.mp apart, ?_⟩
      rw [refuse_of_not _ apart, raise_ok, ok_bind, numberAt_of_le (by omega), header.reads.level]
      simp only [nodeOf, decide_eq_true_eq, ok_bind, pure_eq_ok]
      split <;> rfl

/-- No page whose header passed makes its decoder panic. -/
theorem decodeNode_ne_panic {tree : Option TreeId} (size : bytes.length = pageSize)
    (valid : validateHeader bytes id tree count = .ok ()) : decodeNode bytes count ≠ .error .panic := by
  have wide : pageSize = 16384 := rfl
  by_cases isNode : uintAt 1 bytes 6 = 1 ∨ uintAt 1 bytes 6 = 2
  · rcases decodeNode_cases size (nodeHeader_of_validate size valid isNode) with
      ⟨error, failed⟩ | ⟨rest, -, -, -, decoded⟩
    · rw [failed]
      simp
    · rw [decoded]
      simp
  · simp only [decodeNode]
    rw [numberAt_of_le (by omega), ok_bind, refuse_of _ (by omega)]
    simp

/-! ## Canonical pages -/

/-- Stamping a layout gives it its identity and its checksum. -/
theorem stamp_layout (tree : TreeId) (node : Node) (id : Nat) :
    stamp id (layout tree node 0 0) =
      layout tree node id (Crc32c.checksum (layout tree node id 0)) := by
  have identity : overwrite (layout tree node 0 0) 8 (leBytes 8 id) = layout tree node id 0 :=
    overwrite_id ..
  simp only [stamp, checksum, identity, ← leBytes_zero, overwrite_layout_crc]

/-- The header of a stamped node. -/
theorem nodeHeader_layout (accepted : Encodable node) (admissible : Admissible count node)
    (counted : count ≤ 2 ^ 64) (positive : id ≠ 0) (fits : id < 2 ^ 64) {crc : Nat} (crcFits : crc < 2 ^ 32)
    (checked : crc = Crc32c.checksum (layout tree node id 0)) :
    NodeHeader (layout tree node id crc) id (some tree) count (nodeKind node) node.level
      (slots node).length (pageSize - total ((slots node).map Slot.image)) (firstChild node) := by
  have wide : pageSize = 16384 := rfl
  have payload : payloadSize = 16320 := rfl
  have room := Encodable.roomy accepted.shape accepted.fits
  simp only [Roomy, List.length_map] at room
  have kinds : nodeKind node = 1 ∧ node.level = 0 ∧ firstChild node = 0 ∨
      nodeKind node = 2 ∧ node.level ≠ 0 ∧ validRef (firstChild node) count := by
    cases node with
    | leaf cells => exact .inl ⟨rfl, rfl, rfl⟩
    | internal level keys children =>
        have shape := refuse_eq_ok.mp accepted.shape
        exact .inr ⟨rfl, fun zero => shape (.inl zero), admissible.link _ _ _ rfl⟩
  have linkFits : firstChild node < 256 ^ 8 := by
    norm_num at counted ⊢
    rcases kinds with ⟨-, -, zero⟩ | ⟨-, -, refers⟩
    · omega
    · have := refers.2
      omega
  have treeFits : tree.number < 256 ^ 4 := by cases tree <;> norm_num [TreeId.number]
  have cleared : overwrite (layout tree node id crc) 60 (zeros 4) = layout tree node id 0 := by
    rw [← leBytes_zero, overwrite_layout_crc]
  refine ⟨?_, positive, ?_, by omega, by omega, ?_, kinds⟩
  · rw [cleared, ← checked]
    refine headReads_headBytes ⟨?_, ?_, by norm_num at fits ⊢; exact fits, treeFits, by omega, by omega,
      by omega, linkFits, by norm_num, by norm_num at crcFits ⊢; exact crcFits⟩
    · rcases kinds with ⟨leaf, -⟩ | ⟨internal, -⟩ <;> omega
    · simpa using admissible.level
  · rw [length_slots (children_of_shape accepted.shape)]
    exact accepted.nonempty
  · have gap : pageSize - total ((slots node).map Slot.image) - (64 + 4 * (slots node).length) =
        payloadSize - 4 * ((slots node).map Slot.image).length - total ((slots node).map Slot.image) := by
      rw [List.length_map]
      omega
    rw [layout, pageBytes, slice_append_right _ _ (by rw [nodeHead, length_headBytes]; omega),
      slice_append_right _ _ (by
        rw [nodeHead, length_headBytes, length_slotTable, List.length_map]
        omega), gap]
    have offset : 64 + 4 * (slots node).length -
        (nodeHead tree node id crc).length - (slotTable pageSize ((slots node).map Slot.image)).length =
        0 := by
      rw [nodeHead, length_headBytes, length_slotTable, List.length_map]
      omega
    rw [offset, slice_zero_append _ (length_zeros _)]

/-- A stamped node passes its header check and decodes to itself. -/
theorem decode_stamped (accepted : Encodable node) (admissible : Admissible count node)
    (counted : count ≤ 2 ^ 64) (positive : id ≠ 0) (fits : id < 2 ^ 64) :
    validateHeader (stamp id (layout tree node 0 0)) id (some tree) count = .ok () ∧
      decodeNode (stamp id (layout tree node 0 0)) count = .ok node := by
  rw [stamp_layout]
  have header := nodeHeader_layout accepted admissible counted positive fits
    (Crc32c.checksum_lt (layout tree node id 0)) rfl
  have room := Encodable.roomy accepted.shape accepted.fits
  have reads : ReadsAll (nodeKind node = 1)
      (layout tree node id (Crc32c.checksum (layout tree node id 0)))
      (pageSize - total ((slots node).map Slot.image)) count 0 ⟨pageSize, [], [], [firstChild node]⟩
      (slots node) := by
    refine @readsAll_pageBytes _ count ⟨pageSize, [], [], [firstChild node]⟩ _ _ [] (slots node)
      (length_headBytes ..) room le_rfl ?_ ?_ rfl rfl
    · rw [List.nil_append, key_slots accepted.shape]
      exact admissible.sorted
    · intro slot member
      exact ⟨kind_slots node slot member, accepted.short slot member, admissible.slots slot member⟩
  refine ⟨header.validate, ?_⟩
  rw [decodeNode_of_reads (length_layout accepted _ _ _) counted header rfl reads (stop_foldl_push ..),
    nodeOf_slots node accepted.shape]

/-- A page whose header passed and whose slots were read is the stamped layout of
an encodable node. -/
theorem layout_of_reads (size : bytes.length = pageSize)
    (header : NodeHeader bytes id (some tree) count kind level cells upper link) {rest : List Slot}
    (length : rest.length = cells)
    (reads : ReadsAll (kind = 1) bytes upper count 0 ⟨pageSize, [], [], [link]⟩ rest)
    (meets : (rest.foldl Decoding.push ⟨pageSize, [], [], [link]⟩).stop = upper) :
    Encodable (nodeOf kind level link rest) ∧
      stamp id (layout tree (nodeOf kind level link rest) 0 0) = bytes := by
  have wide : pageSize = 16384 := rfl
  obtain ⟨table, inPage, packed⟩ := reads.layout
  have each := reads.sound
  rw [stop_foldl_push] at meets
  simp only at table inPage packed meets
  have ordered := header.ordered
  have nonempty := header.nonempty
  obtain ⟨isSlots, isKind, isLevel, isLink, shape⟩ := nodeOf_shape header.kinds each
  have count' := length_slots (children_of_shape shape)
  have accepted : Encodable (nodeOf kind level link rest) := by
    refine ⟨shape, ?_, ?_, fun slot member => (each slot (isSlots ▸ member)).2.1⟩
    · rw [← count', isSlots, length]
      exact nonempty
    · rw [nodeSize_eq (children_of_shape shape), isSlots, length]
      unfold headerSize
      omega
  have start := take_eq_headBytes (by omega) header.reads
  have same : bytes = layout tree (nodeOf kind level link rest) id
      (Crc32c.checksum (overwrite bytes 60 (zeros 4))) := by
    have split : bytes = bytes.take 64 ++ (slice bytes 64 (4 * cells) ++
        (slice bytes (64 + 4 * cells) (upper - (64 + 4 * cells)) ++ slice bytes upper (pageSize - upper))) := by
      have parts : bytes.take 64 = slice bytes 0 64 := rfl
      have inside := header.inside
      rw [parts, show slice bytes upper (pageSize - upper) = slice bytes
          (64 + 4 * cells + (upper - (64 + 4 * cells))) (pageSize - upper) by
        rw [show 64 + 4 * cells + (upper - (64 + 4 * cells)) = upper by omega],
        ← slice_add, ← slice_add bytes 64]
      have last := slice_add bytes 0 64
        (4 * cells + (upper - (64 + 4 * cells) + (pageSize - upper)))
      rw [Nat.zero_add] at last
      rw [← last, slice_self (by omega)]
    have cellsAt : slice bytes upper (pageSize - upper) = heap (rest.map Slot.image) := by
      rw [← packed, ← meets]
      congr 1
      omega
    have tableAt : slice bytes 64 (4 * cells) = slotTable pageSize (rest.map Slot.image) := by
      rw [← table, length]
    have gap : upper - (64 + 4 * cells) =
        payloadSize - 4 * (rest.map Slot.image).length - total (rest.map Slot.image) := by
      rw [List.length_map, length, ← meets]
      unfold payloadSize headerSize
      omega
    rw [layout, nodeHead, pageBytes, isSlots, isKind, isLevel, isLink, length, meets]
    conv_lhs => rw [split, start, tableAt, header.gap, cellsAt, gap]
    rfl
  refine ⟨accepted, ?_⟩
  rw [stamp_layout]
  have cleared : overwrite bytes 60 (zeros 4) = layout tree (nodeOf kind level link rest) id 0 := by
    conv_lhs => rw [same, ← leBytes_zero, overwrite_layout_crc]
  rw [cleared] at same
  exact same.symm

end Nodes

/-- The node codec is canonical.  A node that encodes, with increasing keys and
possible values and references, is read back from its stamped page; a page that
passes its header check and decodes is the stamped page of its node; and no page
that passes its header check makes the decoder leave the page. -/
theorem node_codec_canonical [Crc32c] {count : Nat} (counted : count ≤ maxU64) :
    (∀ tree node bytes, encodeNode tree node = .ok bytes → Admissible count node →
      ∀ id, id ≠ 0 → id ≤ maxU64 →
        validateHeader (stamp id bytes) id (some tree) count = .ok () ∧
          decodeNode (stamp id bytes) count = .ok node) ∧
    (∀ bytes : Bytes, bytes.length = pageSize → ∀ id tree,
      validateHeader bytes id (some tree) count = .ok () → ∀ node, decodeNode bytes count = .ok node →
        ∃ encoded, encodeNode tree node = .ok encoded ∧ stamp id encoded = bytes) ∧
    (∀ bytes : Bytes, bytes.length = pageSize → ∀ id tree,
      validateHeader bytes id tree count = .ok () → decodeNode bytes count ≠ .error .panic) := by
  have wide : count ≤ 2 ^ 64 := by
    unfold maxU64 at counted
    omega
  refine ⟨?_, ?_, fun bytes size id tree valid => decodeNode_ne_panic size valid⟩
  · intro tree node bytes encoded admissible id positive fits
    obtain ⟨accepted, rfl⟩ := encodeNode_eq_ok.mp encoded
    refine decode_stamped accepted admissible wide positive ?_
    unfold maxU64 at fits
    omega
  · intro bytes size id tree valid node decoded
    by_cases isNode : uintAt 1 bytes 6 = 1 ∨ uintAt 1 bytes 6 = 2
    · have header := nodeHeader_of_validate size valid isNode
      rcases decodeNode_cases size header with ⟨error, failed⟩ | ⟨rest, length, reads, meets, decoded'⟩
      · rw [failed] at decoded
        cases decoded
      · rw [decoded] at decoded'
        obtain rfl := Except.ok.inj decoded'
        obtain ⟨accepted, stamped⟩ := layout_of_reads size header length reads meets
        exact ⟨_, encodeNode_eq_ok.mpr ⟨accepted, rfl⟩, stamped⟩
    · simp only [decodeNode] at decoded
      rw [numberAt_of_le (by rw [size]; norm_num [pageSize]), ok_bind, refuse_of _ (by omega)] at decoded
      cases decoded

/-- A leaf of one cell. -/
def oneCell : Node := .leaf [⟨[1], .inline [7]⟩]

theorem oneCell_encodable : Encodable oneCell := by
  refine ⟨rfl, by decide, by decide, ?_⟩
  simp [oneCell, slots, Slot.key, maxKey]

theorem oneCell_admissible : Admissible 2 oneCell := by
  refine ⟨by simp [oneCell, Node.slotKeys], by decide, ?_, ?_⟩
  · simp [oneCell, slots, Slot.Valid, validStored, inlineLimit]
  · intro level keys children isInternal
    cases isInternal

theorem oneCell_read_back :
    encodeNode .state oneCell = .ok (layout .state oneCell 0 0) ∧
      @validateHeader castagnoli (@stamp castagnoli 1 (layout .state oneCell 0 0)) 1 (some .state) 2 =
        .ok () ∧
      decodeNode (@stamp castagnoli 1 (layout .state oneCell 0 0)) 2 = .ok oneCell := by
  have encoded : encodeNode .state oneCell = .ok (layout .state oneCell 0 0) :=
    encodeNode_eq_ok.mpr ⟨oneCell_encodable, rfl⟩
  exact ⟨encoded, (@node_codec_canonical castagnoli 2 (by decide)).1 .state oneCell _ encoded
    oneCell_admissible 1 (by decide) (by decide)⟩

end BlopDb.Storage.PageCodec
