/-
# Consecutive fields

A layout of consecutive fields of known widths is cut into its fields, and the fields
put together are the layout.  A reader at fixed offsets and a writer that appends
field after field are compared through the list of fields.
-/

import BlopDb.Lib.Buffer

namespace BlopDb.Lib

/-- The fields of the given widths from an offset on. -/
def fields : List Nat → Nat → Bytes → List Bytes
  | [], _, _ => []
  | width :: widths, offset, bytes => slice bytes offset width :: fields widths (offset + width) bytes

theorem flatten_fields (widths : List Nat) (offset : Nat) (bytes : Bytes) :
    (fields widths offset bytes).flatten = slice bytes offset widths.sum := by
  induction widths generalizing offset with
  | nil => simp [fields]
  | cons width widths ih => rw [fields, List.flatten_cons, ih, List.sum_cons, slice_add]

/-- Fields that are put together are found again. -/
theorem fields_flatten {parts : List Bytes} {widths : List Nat} (exact : parts.map List.length = widths)
    (left right : Bytes) : fields widths left.length (left ++ (parts.flatten ++ right)) = parts := by
  induction parts generalizing widths left with
  | nil =>
      subst exact
      rfl
  | cons part parts ih =>
      subst exact
      have rest := ih rfl (left ++ part)
      rw [List.length_append, List.append_assoc, ← List.append_assoc part] at rest
      rw [List.map_cons, fields, List.flatten_cons, rest, slice_append_right _ _ le_rfl, Nat.sub_self,
        List.append_assoc, slice_zero_append _ rfl]

/-- The fields at the front of a layout. -/
theorem fields_zero {parts : List Bytes} {widths : List Nat} (exact : parts.map List.length = widths)
    (right : Bytes) : fields widths 0 (parts.flatten ++ right) = parts :=
  fields_flatten exact [] right

/-- A field is the encoding of the number that was read from it. -/
theorem slice_of_uintAt {bytes : Bytes} {offset width number : Nat} (read : uintAt width bytes offset = number)
    (inside : offset + width ≤ bytes.length) : slice bytes offset width = leBytes width number := by
  rw [← read, leBytes_uintAt inside]

end BlopDb.Lib
