/-
# Fixed layouts

Fields of a fixed binary layout are read at byte offsets.  A layout that is
written as a concatenation of its fields gives every field back at its offset.
-/

import BlopDb.Lib.Bytes

namespace BlopDb.Lib

/-- A byte array of a fixed length. -/
abbrev Fixed (length : Nat) := {bytes : Bytes // bytes.length = length}

/-- A byte array of one repeated octet. -/
def filled (count : Nat) (byte : UInt8) : Fixed count :=
  ⟨List.replicate count byte, List.length_replicate⟩

/-- The bytes of a field. -/
def slice (bytes : Bytes) (offset width : Nat) : Bytes := (bytes.drop offset).take width

/-- A little-endian number at an offset. -/
def uintAt (width : Nat) (bytes : Bytes) (offset : Nat) : Nat := leNat (slice bytes offset width)

/-- An array at an offset of bytes that are long enough. -/
def arrayAt (length : Nat) (bytes : Bytes) (offset : Nat) : Fixed length :=
  if inside : (slice bytes offset length).length = length then ⟨slice bytes offset length, inside⟩
  else ⟨List.replicate length 0, List.length_replicate⟩

/-- Zero bytes. -/
def zeros (count : Nat) : Bytes := List.replicate count 0

@[simp]
theorem length_zeros (count : Nat) : (zeros count).length = count := List.length_replicate

theorem length_slice (bytes : Bytes) (offset width : Nat) :
    (slice bytes offset width).length = min width (bytes.length - offset) := by
  simp [slice]

theorem uintAt_lt (width : Nat) (bytes : Bytes) (offset : Nat) :
    uintAt width bytes offset < 256 ^ width := by
  refine lt_of_lt_of_le (leNat_lt _) (Nat.pow_le_pow_right (by norm_num) ?_)
  rw [length_slice]
  exact Nat.min_le_left _ _

/-- A field of a longer layout, past the first part. -/
theorem slice_append_right {left : Bytes} {offset : Nat} (right : Bytes) (width : Nat)
    (past : left.length ≤ offset) :
    slice (left ++ right) offset width = slice right (offset - left.length) width := by
  rw [slice, List.drop_append, List.drop_of_length_le past, List.nil_append, slice]

/-- A field of the first part of a layout. -/
theorem slice_append_left {left : Bytes} {offset width : Nat} (right : Bytes)
    (inside : offset + width ≤ left.length) :
    slice (left ++ right) offset width = slice left offset width := by
  rw [slice, List.drop_append_of_le_length (by omega), List.take_append_of_le_length, slice]
  rw [List.length_drop]
  omega

/-- The field at the front of a layout. -/
theorem slice_zero_append {field : Bytes} {width : Nat} (rest : Bytes) (exact : field.length = width) :
    slice (field ++ rest) 0 width = field := by
  rw [slice_append_left rest (by omega), slice, List.drop_zero, List.take_of_length_le exact.le]

theorem slice_self {bytes : Bytes} {width : Nat} (exact : bytes.length = width) :
    slice bytes 0 width = bytes := by
  rw [slice, List.drop_zero, List.take_of_length_le exact.le]

/-- A prefix determines the fields inside it. -/
theorem slice_take {bytes : Bytes} {length offset width : Nat} (inside : offset + width ≤ length) :
    slice (bytes.take length) offset width = slice bytes offset width := by
  rw [slice, List.drop_take, List.take_take, slice, min_eq_left (by omega)]

theorem arrayAt_eq {length offset : Nat} {bytes : Bytes} {array : Fixed length}
    (same : slice bytes offset length = array.1) : arrayAt length bytes offset = array := by
  have inside : (slice bytes offset length).length = length := by
    rw [same]
    exact array.2
  rw [arrayAt, dif_pos inside]
  exact Subtype.ext same

theorem arrayAt_val {length offset : Nat} {bytes : Bytes} (inside : offset + length ≤ bytes.length) :
    (arrayAt length bytes offset).1 = slice bytes offset length := by
  have exact : (slice bytes offset length).length = length := by
    rw [length_slice]
    omega
  rw [arrayAt, dif_pos exact]

end BlopDb.Lib
