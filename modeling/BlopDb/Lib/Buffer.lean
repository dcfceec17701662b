/-
# Bounds-checked buffers

A fixed buffer is read and overwritten in ranges that must lie inside it; a range
that does not is a panic.  A buffer that is written as a concatenation of fields
is overwritten field by field.
-/

import BlopDb.Lib.Fault
import BlopDb.Lib.Slice

namespace BlopDb.Lib

/-- The bytes of a range. -/
def readAt {ε : Type} (bytes : Bytes) (offset width : Nat) : Except (Fault ε) Bytes :=
  if offset + width ≤ bytes.length then .ok (slice bytes offset width) else .error .panic

/-- A little-endian number in a range. -/
def numberAt {ε : Type} (width : Nat) (bytes : Bytes) (offset : Nat) : Except (Fault ε) Nat := do
  let field ← readAt bytes offset width
  return leNat field

/-- A buffer with a range replaced. -/
def overwrite (bytes : Bytes) (offset : Nat) (data : Bytes) : Bytes :=
  bytes.take offset ++ (data ++ bytes.drop (offset + data.length))

/-- Copy data into a range. -/
def writeAt {ε : Type} (bytes : Bytes) (offset : Nat) (data : Bytes) : Except (Fault ε) Bytes :=
  if offset + data.length ≤ bytes.length then .ok (overwrite bytes offset data) else .error .panic

section Ranges

variable {ε : Type} {bytes : Bytes} {offset width : Nat}

theorem readAt_of_le (inside : offset + width ≤ bytes.length) :
    (readAt bytes offset width : Except (Fault ε) Bytes) = .ok (slice bytes offset width) :=
  if_pos inside

theorem numberAt_of_le (inside : offset + width ≤ bytes.length) :
    (numberAt width bytes offset : Except (Fault ε) Nat) = .ok (uintAt width bytes offset) := by
  rw [numberAt, readAt_of_le inside]
  rfl

theorem writeAt_of_le {data : Bytes} (inside : offset + data.length ≤ bytes.length) :
    (writeAt bytes offset data : Except (Fault ε) Bytes) = .ok (overwrite bytes offset data) :=
  if_pos inside

/-- Two adjacent ranges. -/
theorem slice_add (bytes : Bytes) (offset left right : Nat) :
    slice bytes offset (left + right) = slice bytes offset left ++ slice bytes (offset + left) right := by
  rw [slice, List.take_add, List.drop_drop]
  rfl

/-- A field is the encoding of the number read from it. -/
theorem leBytes_uintAt (inside : offset + width ≤ bytes.length) :
    leBytes width (uintAt width bytes offset) = slice bytes offset width := by
  have exact : (slice bytes offset width).length = width := by
    rw [length_slice]
    omega
  have inverse := leBytes_leNat (slice bytes offset width)
  rw [exact] at inverse
  exact inverse

/-- A number is read back from a field that encodes it. -/
theorem uintAt_of_field {number : Nat} (field : slice bytes offset width = leBytes width number)
    (fits : number < 256 ^ width) : uintAt width bytes offset = number := by
  rw [uintAt, field, leNat_leBytes width number fits]

@[simp]
theorem slice_zero_width (bytes : Bytes) (offset : Nat) : slice bytes offset 0 = [] := by
  simp [slice]

theorem zeros_add (left right : Nat) : zeros (left + right) = zeros left ++ zeros right :=
  List.replicate_add left right 0

/-- Bytes without a nonzero one are zeros. -/
theorem eq_zeros_of_all {bytes : Bytes} (all : ¬ bytes.any (fun byte => decide (byte ≠ 0)) = true) :
    bytes = zeros bytes.length := by
  refine List.eq_replicate_iff.mpr ⟨rfl, fun byte member => ?_⟩
  by_contra nonzero
  exact all (List.any_eq_true.mpr ⟨byte, member, decide_eq_true nonzero⟩)

theorem not_any_zeros (count : Nat) :
    ¬ (zeros count).any (fun byte => decide (byte ≠ 0)) = true := by
  intro some
  obtain ⟨byte, member, nonzero⟩ := List.any_eq_true.mp some
  exact of_decide_eq_true nonzero (List.eq_of_mem_replicate member)

end Ranges

section Overwriting

variable {left right data : Bytes} {offset : Nat}

/-- A write past the first part of a buffer. -/
theorem overwrite_append_right (right data : Bytes) (past : left.length ≤ offset) :
    overwrite (left ++ right) offset data = left ++ overwrite right (offset - left.length) data := by
  have split : offset = left.length + (offset - left.length) := by omega
  rw [overwrite, overwrite, List.take_append, List.take_of_length_le past, List.drop_append,
    List.drop_of_length_le (by omega), List.nil_append, List.append_assoc,
    show offset + data.length - left.length = offset - left.length + data.length by omega]

/-- A write over the first field of a buffer. -/
theorem overwrite_zero_append {field : Bytes} (rest : Bytes) (exact : field.length = data.length) :
    overwrite (field ++ rest) 0 data = data ++ rest := by
  rw [overwrite, List.take_zero, List.nil_append, Nat.zero_add, List.drop_append_of_le_length exact.ge,
    List.drop_of_length_le exact.le, List.nil_append]

/-- A write over a whole buffer. -/
theorem overwrite_self {field : Bytes} (exact : field.length = data.length) :
    overwrite field 0 data = data := by
  rw [overwrite, List.take_zero, List.nil_append, Nat.zero_add, List.drop_of_length_le exact.le,
    List.append_nil]

/-- A write inside the first part of a buffer. -/
theorem overwrite_append_left (right : Bytes) (inside : offset + data.length ≤ left.length) :
    overwrite (left ++ right) offset data = overwrite left offset data ++ right := by
  rw [overwrite, overwrite, List.take_append_of_le_length (by omega),
    List.drop_append_of_le_length inside]
  simp only [List.append_assoc]

theorem length_overwrite {bytes : Bytes} (inside : offset + data.length ≤ bytes.length) :
    (overwrite bytes offset data).length = bytes.length := by
  simp only [overwrite, List.length_append, List.length_take, List.length_drop]
  omega

/-- A checked write past the first part of a buffer. -/
theorem writeAt_append_right {ε : Type} (right data : Bytes) (past : left.length ≤ offset) :
    (writeAt (left ++ right) offset data : Except (Fault ε) Bytes) =
      (writeAt right (offset - left.length) data).map (left ++ ·) := by
  by_cases inside : offset - left.length + data.length ≤ right.length
  · rw [writeAt_of_le inside, writeAt_of_le (by simp only [List.length_append]; omega),
      overwrite_append_right _ _ past]
    rfl
  · rw [writeAt, writeAt, if_neg inside, if_neg (by simp only [List.length_append]; omega)]
    rfl

/-- A checked write over the first field of a buffer. -/
theorem writeAt_zero_append {ε : Type} {field : Bytes} (rest : Bytes)
    (exact : field.length = data.length) :
    (writeAt (field ++ rest) 0 data : Except (Fault ε) Bytes) = .ok (data ++ rest) := by
  rw [writeAt_of_le (by simp only [List.length_append]; omega), overwrite_zero_append rest exact]

/-- A checked write over a whole buffer. -/
theorem writeAt_self {ε : Type} {field : Bytes} (exact : field.length = data.length) :
    (writeAt field 0 data : Except (Fault ε) Bytes) = .ok data := by
  rw [writeAt_of_le (by omega), overwrite_self exact]

/-- A write over a field between two others. -/
theorem writeAt_field {ε : Type} (left : Bytes) {field : Bytes} (right : Bytes)
    (at' : offset = left.length) (exact : field.length = data.length) :
    (writeAt (left ++ (field ++ right)) offset data : Except (Fault ε) Bytes) =
      .ok (left ++ (data ++ right)) := by
  rw [writeAt_of_le (by simp only [List.length_append]; omega),
    overwrite_append_right _ _ at'.ge, at', Nat.sub_self, overwrite_zero_append right exact]

end Overwriting

end BlopDb.Lib
