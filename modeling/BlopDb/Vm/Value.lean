/-
# Types and values of instruction set 1

A type bounds the values of a register, a table column, a constant or a result.
Values have a schema-directed encoding without type tags.  Descriptors and
values are decoded strictly: a decoder accepts one canonical byte string for
each type or value and rejects everything else.
-/

import BlopDb.Storage.Encoding

namespace BlopDb.Vm

open BlopDb.Lib

/-- A rejection or system failure, distinct from a deterministic abort. -/
inductive Error
  | invalid (reason : String)
  | unsupported (format : String) (version : Nat)
  | storage (error : Storage.Error)
  deriving DecidableEq, Repr

/-- A bounded type.  Rows occurs at the top level only. -/
inductive Ty
  | unit
  | boolean
  | i64
  | u64
  | bytes (bound : Nat)
  | string (bound : Nat)
  | tuple (fields : List Ty)
  | rows (maxRows : Nat) (key value : Ty)
  deriving Repr

/-- A value.  Machine integers and valid UTF-8 text are values by construction. -/
inductive Value
  | unit
  | boolean (value : Bool)
  | i64 (number : Int64)
  | u64 (number : UInt64)
  | bytes (bytes : Bytes)
  | string (text : String)
  | tuple (fields : List Value)
  | rows (rows : List (Value × Value))

/-- The longest type descriptor. -/
def maxDescriptorBytes : Nat := 65536

/-- The longest encoded value. -/
def maxValueBytes : Nat := 16 * 1024 * 1024

/-- The most rows one value holds. -/
def maxRows : Nat := 65535

/-! ## Equality and order -/

namespace Ty

mutual

/-- Structural equality test. -/
def beq : Ty → Ty → Bool
  | unit, unit | boolean, boolean | i64, i64 | u64, u64 => true
  | bytes left, bytes right => left == right
  | string left, string right => left == right
  | tuple left, tuple right => beqList left right
  | rows maxLeft keyLeft valueLeft, rows maxRight keyRight valueRight =>
      maxLeft == maxRight && beq keyLeft keyRight && beq valueLeft valueRight
  | _, _ => false

/-- Structural equality of field lists. -/
def beqList : List Ty → List Ty → Bool
  | [], [] => true
  | left :: lefts, right :: rights => beq left right && beqList lefts rights
  | _, _ => false

end

mutual

theorem beq_iff : (left right : Ty) → (beq left right = true ↔ left = right)
  | unit, right | boolean, right | i64, right | u64, right => by
      cases right <;> simp [beq]
  | bytes bound, right | string bound, right => by
      cases right <;> simp [beq]
  | tuple fields, right => by
      cases right <;> simp [beq, beqList_iff fields]
  | rows maximum key value, right => by
      cases right <;> simp [beq, beq_iff key, beq_iff value, and_assoc]

theorem beqList_iff : (left right : List Ty) → (beqList left right = true ↔ left = right)
  | [], right => by cases right <;> simp [beqList]
  | left :: lefts, right => by
      cases right <;> simp [beqList, beq_iff left, beqList_iff lefts]

end

instance : DecidableEq Ty := fun left right =>
  decidable_of_iff (beq left right = true) (beq_iff left right)

end Ty

namespace Value

mutual

/-- Structural equality test. -/
def beq : Value → Value → Bool
  | unit, unit => true
  | boolean left, boolean right => left == right
  | i64 left, i64 right => left == right
  | u64 left, u64 right => left == right
  | bytes left, bytes right => left == right
  | string left, string right => left == right
  | tuple left, tuple right => beqList left right
  | rows left, rows right => beqRows left right
  | _, _ => false

/-- Structural equality of field lists. -/
def beqList : List Value → List Value → Bool
  | [], [] => true
  | left :: lefts, right :: rights => beq left right && beqList lefts rights
  | _, _ => false

/-- Structural equality of row lists. -/
def beqRows : List (Value × Value) → List (Value × Value) → Bool
  | [], [] => true
  | (keyLeft, left) :: lefts, (keyRight, right) :: rights =>
      beq keyLeft keyRight && beq left right && beqRows lefts rights
  | _, _ => false

end

mutual

theorem beq_iff : (left right : Value) → (beq left right = true ↔ left = right)
  | unit, right => by cases right <;> simp [beq]
  | boolean value, right => by cases right <;> simp [beq]
  | i64 number, right | u64 number, right => by cases right <;> simp [beq]
  | bytes data, right => by cases right <;> simp [beq]
  | string text, right => by cases right <;> simp [beq]
  | tuple fields, right => by cases right <;> simp [beq, beqList_iff fields]
  | rows entries, right => by cases right <;> simp [beq, beqRows_iff entries]

theorem beqList_iff : (left right : List Value) → (beqList left right = true ↔ left = right)
  | [], right => by cases right <;> simp [beqList]
  | left :: lefts, right => by
      cases right <;> simp [beqList, beq_iff left, beqList_iff lefts]

theorem beqRows_iff :
    (left right : List (Value × Value)) → (beqRows left right = true ↔ left = right)
  | [], right => by cases right <;> simp [beqRows]
  | (key, value) :: rest, right => by
      cases right with
      | nil => simp [beqRows]
      | cons head tail =>
          obtain ⟨otherKey, other⟩ := head
          simp [beqRows, beq_iff key, beq_iff value, beqRows_iff rest, and_assoc]

end

instance : DecidableEq Value := fun left right =>
  decidable_of_iff (beq left right = true) (beq_iff left right)

/-- The position of a variant in the declaration, which orders values of
different shapes. -/
def tag : Value → Nat
  | unit => 0
  | boolean _ => 1
  | i64 _ => 2
  | u64 _ => 3
  | bytes _ => 4
  | string _ => 5
  | tuple _ => 6
  | rows _ => 7

mutual

/-- The derived order: variants first, then their content lexicographically. -/
def cmp : Value → Value → Ordering
  | unit, unit => .eq
  | boolean left, boolean right => compare left right
  | i64 left, i64 right => compare left.toInt right.toInt
  | u64 left, u64 right => compare left.toNat right.toNat
  | bytes left, bytes right => compare left right
  | string left, string right => compare (textBytes left) (textBytes right)
  | tuple left, tuple right => cmpList left right
  | rows left, rows right => cmpRows left right
  | left, right => compare left.tag right.tag

/-- Lexicographic order of field lists. -/
def cmpList : List Value → List Value → Ordering
  | [], [] => .eq
  | [], _ :: _ => .lt
  | _ :: _, [] => .gt
  | left :: lefts, right :: rights => (cmp left right).then (cmpList lefts rights)

/-- Lexicographic order of row lists. -/
def cmpRows : List (Value × Value) → List (Value × Value) → Ordering
  | [], [] => .eq
  | [], _ :: _ => .lt
  | _ :: _, [] => .gt
  | (keyLeft, left) :: lefts, (keyRight, right) :: rights =>
      ((cmp keyLeft keyRight).then (cmp left right)).then (cmpRows lefts rights)

end

/-- Strictly below in the derived order. -/
def lt (left right : Value) : Bool := cmp left right == .lt

end Value

/-! ## Shapes and acceptance -/

namespace Ty

mutual

/-- Equal apart from bounds. -/
def sameShape : Ty → Ty → Bool
  | unit, unit | boolean, boolean | i64, i64 | u64, u64 => true
  | bytes _, bytes _ | string _, string _ => true
  | tuple left, tuple right => sameShapes left right
  | rows _ keyLeft valueLeft, rows _ keyRight valueRight =>
      sameShape keyLeft keyRight && sameShape valueLeft valueRight
  | _, _ => false

/-- Field lists of equal length and equal shapes. -/
def sameShapes : List Ty → List Ty → Bool
  | [], [] => true
  | left :: lefts, right :: rights => sameShape left right && sameShapes lefts rights
  | _, _ => false

end

/-- Row keys are strictly increasing. -/
def rowsOrdered : List (Value × Value) → Bool
  | first :: second :: rest => Value.lt first.1 second.1 && rowsOrdered (second :: rest)
  | _ => true

mutual

/-- Check a value and its row ordering against a type. -/
def accepts : Ty → Value → Bool
  | unit, .unit => true
  | boolean, .boolean _ => true
  | i64, .i64 _ => true
  | u64, .u64 _ => true
  | bytes bound, .bytes data => data.length ≤ bound
  | string bound, .string text => (textBytes text).length ≤ bound
  | tuple types, .tuple values => acceptsFields types values
  | rows maximum key value, .rows entries =>
      entries.length ≤ maximum && entries.length ≤ maxRows &&
        entries.all (fun row => accepts key row.1 && accepts value row.2) && rowsOrdered entries
  | _, _ => false

/-- Check the fields of a tuple, which must be equally many. -/
def acceptsFields : List Ty → List Value → Bool
  | [], [] => true
  | ty :: types, value :: values => accepts ty value && acceptsFields types values
  | _, _ => false

end

mutual

/-- The maximum encoded size of a decoded type. -/
def maxValueBytes : Ty → Nat
  | unit => 0
  | boolean => 1
  | i64 | u64 => 8
  | bytes bound | string bound => 4 + bound
  | tuple fields => maxFieldsBytes fields
  | rows maximum key value => 4 + maximum * (maxValueBytes key + maxValueBytes value)

/-- The maximum encoded size of a field list. -/
def maxFieldsBytes : List Ty → Nat
  | [] => 0
  | field :: fields => maxValueBytes field + maxFieldsBytes fields

end

mutual

/-- The minimum encoded size of a type. -/
def minValueBytes : Ty → Nat
  | unit => 0
  | boolean => 1
  | i64 | u64 => 8
  | bytes _ | string _ | rows _ _ _ => 4
  | tuple fields => minFieldsBytes fields

/-- The minimum encoded size of a field list. -/
def minFieldsBytes : List Ty → Nat
  | [] => 0
  | field :: fields => minValueBytes field + minFieldsBytes fields

end

/-! ## Descriptors -/

mutual

/-- The descriptor bytes of a type without the version. -/
def encodeType : Ty → Bytes
  | unit => [0x00]
  | boolean => [0x01]
  | i64 => [0x02]
  | u64 => [0x03]
  | bytes bound => 0x04 :: leBytes 4 bound
  | string bound => 0x05 :: leBytes 4 bound
  | tuple fields => 0x06 :: (leBytes 2 fields.length ++ encodeTypes fields)
  | rows maximum key value => 0x20 :: (leBytes 4 maximum ++ encodeType key ++ encodeType value)

/-- The descriptor bytes of a field list. -/
def encodeTypes : List Ty → Bytes
  | [] => []
  | field :: fields => encodeType field ++ encodeTypes fields

end

/-- The complete descriptor of a type. -/
def descriptor (ty : Ty) : Bytes := leBytes 2 1 ++ encodeType ty

mutual

/-- Every tuple has a field count that fits its descriptor field. -/
def countsFit : Ty → Bool
  | tuple fields => fields.length < 2 ^ 16 && countsFitAll fields
  | rows _ key value => countsFit key && countsFit value
  | _ => true

/-- Every type of a list has counts that fit. -/
def countsFitAll : List Ty → Bool
  | [] => true
  | field :: fields => countsFit field && countsFitAll fields

end

/-- The descriptor, or the panic of an unrepresentable field count. -/
def descriptorOrPanic {ε : Type} (ty : Ty) : Except (Fault ε) Bytes :=
  if ty.countsFit then .ok ty.descriptor else .error .panic

end Ty

/-! ## Encoded values -/

namespace Value

mutual

/-- The length of the encoding. -/
def encodedLen : Value → Nat
  | unit => 0
  | boolean _ => 1
  | i64 _ | u64 _ => 8
  | bytes data => 4 + data.length
  | string text => 4 + (textBytes text).length
  | tuple fields => encodedLenFields fields
  | rows entries => 4 + encodedLenRows entries

/-- The length of encoded fields. -/
def encodedLenFields : List Value → Nat
  | [] => 0
  | field :: fields => encodedLen field + encodedLenFields fields

/-- The length of encoded rows. -/
def encodedLenRows : List (Value × Value) → Nat
  | [] => 0
  | (key, value) :: rest => encodedLen key + encodedLen value + encodedLenRows rest

end

mutual

/-- The schema-directed encoding. -/
def encode : Value → Bytes
  | unit => []
  | boolean value => [if value then 1 else 0]
  | i64 number => leBytes 8 number.toBitVec.toNat
  | u64 number => leBytes 8 number.toNat
  | bytes data => leBytes 4 data.length ++ data
  | string text => leBytes 4 (textBytes text).length ++ textBytes text
  | tuple fields => encodeFields fields
  | rows entries => leBytes 4 entries.length ++ encodeRows entries

/-- The concatenated encodings of fields. -/
def encodeFields : List Value → Bytes
  | [] => []
  | field :: fields => encode field ++ encodeFields fields

/-- The concatenated encodings of rows. -/
def encodeRows : List (Value × Value) → Bytes
  | [] => []
  | (key, value) :: rest => encode key ++ encode value ++ encodeRows rest

end

mutual

/-- Every byte length and row count fits its 32-bit prefix. -/
def lengthsFit : Value → Bool
  | bytes data => data.length < 2 ^ 32
  | string text => (textBytes text).length < 2 ^ 32
  | tuple fields => lengthsFitAll fields
  | rows entries => entries.length < 2 ^ 32 && lengthsFitRows entries
  | _ => true

/-- Every field has lengths that fit. -/
def lengthsFitAll : List Value → Bool
  | [] => true
  | field :: fields => lengthsFit field && lengthsFitAll fields

/-- Every row has lengths that fit. -/
def lengthsFitRows : List (Value × Value) → Bool
  | [] => true
  | (key, value) :: rest => lengthsFit key && lengthsFit value && lengthsFitRows rest

end

/-- The encoding, or the panic of an unrepresentable length. -/
def encodeOrPanic {ε : Type} (value : Value) : Except (Fault ε) Bytes :=
  if value.lengthsFit then .ok value.encode else .error .panic

end Value

/-! ## Decoding -/

/-- Split bytes off a type descriptor or value. -/
def take (input : Bytes) (length : Nat) : Except Error (Bytes × Bytes) :=
  takeBytes (.invalid "truncated type descriptor or value") input length

/-- Report an absent size as an input error. -/
def orInvalid {α : Type} (reason : String) (size : Option α) : Except Error α :=
  match size with
  | some size => .ok size
  | none => .error (.invalid reason)

open Storage.Encoding (checkedAdd checkedMul)

/-- Decode a count of tuple fields in order, adding up their sizes. -/
def decodeFields (decode : Bytes → Except Error (Ty × Nat × Bytes)) :
    Nat → Bytes → Nat → Except Error (List Ty × Nat × Bytes)
  | 0, input, size => .ok ([], size, input)
  | count + 1, input, size => do
      let (field, fieldSize, input) ← decode input
      let size ← orInvalid "type value size exceeds 16 MiB"
        ((checkedAdd size fieldSize).filter (· ≤ maxValueBytes))
      let (fields, size, input) ← decodeFields decode count input size
      return (field :: fields, size, input)

/-- Check the size of a decoded type. -/
def boundType (ty : Ty) (size : Nat) (input : Bytes) : Except Error (Ty × Nat × Bytes) :=
  if size > maxValueBytes then .error (.invalid "type value size exceeds 16 MiB")
  else .ok (ty, size, input)

/-- Decode the bound of a byte string or text type. -/
def decodeBounded (ty : Nat → Ty) (input : Bytes) : Except Error (Ty × Nat × Bytes) := do
  let (bound, input) ← take input 4
  let size ← orInvalid "type value size overflow" (checkedAdd (leNat bound) 4)
  boundType (ty (leNat bound)) size input

/-- Decode one type, with the number of nesting levels that remain.  The
outermost of the sixteen levels alone may be Rows. -/
def decodeType : Nat → Bytes → Except Error (Ty × Nat × Bytes)
  | 0, _ => .error (.invalid "type nesting exceeds depth 16")
  | levels + 1, input => do
      let (tag, input) ← take input 1
      match leNat tag with
      | 0x00 => boundType .unit 0 input
      | 0x01 => boundType .boolean 1 input
      | 0x02 => boundType .i64 8 input
      | 0x03 => boundType .u64 8 input
      | 0x04 => decodeBounded Ty.bytes input
      | 0x05 => decodeBounded Ty.string input
      | 0x06 => do
          let (count, input) ← take input 2
          refuse (leNat count > 256) (.invalid "tuple exceeds 256 fields")
          refuse (leNat count > input.length) (.invalid "truncated tuple descriptor")
          let (fields, size, input) ← decodeFields (decodeType levels) (leNat count) input 0
          boundType (.tuple fields) size input
      | 0x20 => do
          refuse (levels + 1 ≠ 16) (.invalid "Rows is only allowed at the top level")
          let (bound, input) ← take input 4
          refuse (leNat bound > maxRows) (.invalid "Rows exceeds 65,535 rows")
          let (key, keySize, input) ← decodeType levels input
          let (value, valueSize, input) ← decodeType levels input
          let size ← orInvalid "Rows value size overflow"
            (((checkedAdd keySize valueSize).bind (checkedMul · (leNat bound))).bind
              (checkedAdd · 4))
          boundType (.rows (leNat bound) key value) size input
      | _ => throw (.invalid "unknown type tag")

/-- Decode and validate a complete type descriptor. -/
def Ty.decode (bytes : Bytes) : Except Error Ty := do
  refuse (bytes.length > maxDescriptorBytes) (.invalid "type descriptor exceeds 65,536 bytes")
  let (version, input) ← take bytes 2
  refuse (leNat version ≠ 1) (.unsupported "schema" (leNat version))
  let (ty, _, input) ← decodeType 16 input
  refuse (input ≠ []) (.invalid "trailing type descriptor bytes")
  return ty

/-- Decode rows in order, checking that keys increase from the previous one. -/
def decodeRows (decodeKey decodeValue : Bytes → Except Error (Value × Bytes)) :
    Nat → Option Value → Bytes → Except Error (List (Value × Value) × Bytes)
  | 0, _, input => .ok ([], input)
  | count + 1, previous, input => do
      let (key, input) ← decodeKey input
      refuse (previous.any fun last => !Value.lt last key)
        (.invalid "Rows keys are not strictly increasing")
      let (value, input) ← decodeValue input
      let (rows, input) ← decodeRows decodeKey decodeValue count (some key) input
      return ((key, value) :: rows, input)

mutual

/-- Decode one value of a type. -/
def decodeValueNode (ty : Ty) (input : Bytes) : Except Error (Value × Bytes) :=
  if ty.minValueBytes > input.length then .error (.invalid "truncated value")
  else
    match ty with
    | .unit => .ok (.unit, input)
    | .boolean => do
        let (byte, input) ← take input 1
        match leNat byte with
        | 0 => return (.boolean false, input)
        | 1 => return (.boolean true, input)
        | _ => throw (.invalid "noncanonical Boolean")
    | .i64 => do
        let (number, input) ← take input 8
        return (.i64 (Int64.ofBitVec (BitVec.ofNat 64 (leNat number))), input)
    | .u64 => do
        let (number, input) ← take input 8
        return (.u64 (UInt64.ofNat (leNat number)), input)
    | .bytes bound => do
        let (length, input) ← take input 4
        refuse (leNat length > bound) (.invalid "value exceeds byte bound")
        let (data, input) ← take input (leNat length)
        return (.bytes data, input)
    | .string bound => do
        let (length, input) ← take input 4
        refuse (leNat length > bound) (.invalid "value exceeds byte bound")
        let (data, input) ← take input (leNat length)
        let text ← orInvalid "invalid UTF-8" (fromUtf8 data)
        return (.string text, input)
    | .tuple fields => do
        let (values, input) ← decodeValues fields input
        return (.tuple values, input)
    | .rows maximum key value => do
        let (count, input) ← take input 4
        refuse (leNat count > maximum ∨ leNat count > maxRows)
          (.invalid "value exceeds row bound")
        let minimum ← orInvalid "Rows value size overflow"
          ((checkedAdd key.minValueBytes value.minValueBytes).bind (checkedMul · (leNat count)))
        refuse (minimum > input.length) (.invalid "truncated Rows value")
        let (rows, input) ← decodeRows (fun input => decodeValueNode key input)
          (fun input => decodeValueNode value input) (leNat count) none input
        return (.rows rows, input)

/-- Decode the fields of a tuple in order. -/
def decodeValues (types : List Ty) (input : Bytes) : Except Error (List Value × Bytes) :=
  match types with
  | [] => .ok ([], input)
  | ty :: types => do
      let (value, input) ← decodeValueNode ty input
      let (values, input) ← decodeValues types input
      return (value :: values, input)

end

/-- Decode one complete value of a decoded type. -/
def decodeValue (ty : Ty) (bytes : Bytes) : Except Error Value := do
  refuse (bytes.length > maxValueBytes ∨ bytes.length > ty.maxValueBytes)
    (.invalid "encoded value exceeds type bounds")
  let (value, input) ← decodeValueNode ty bytes
  refuse (input ≠ []) (.invalid "trailing value bytes")
  return value

end BlopDb.Vm
