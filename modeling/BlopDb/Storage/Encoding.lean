/-
# Storage schemas and ordered keys

A schema descriptor is a tagged tree of at most sixteen levels.  Values have a
schema-directed encoding; keys have a second, order-preserving encoding in which
integers are big-endian, signed integers have their sign bit flipped, and byte
strings are escaped and terminated.
-/

import BlopDb.Storage.Basic

namespace BlopDb.Storage.Encoding

open BlopDb.Lib

/-- The longest canonical user key. -/
def maxKeyBytes : Nat := 1024

/-- The longest schema-encoded value. -/
def maxValueBytes : Nat := 16 * 1024 * 1024

/-- The longest schema descriptor. -/
def maxDescriptorBytes : Nat := 65536

/-- A storage type. -/
inductive TypeNode
  | unit
  | boolean
  | i64
  | u64
  | bytes (bound : Nat)
  | string (bound : Nat)
  | tuple (fields : List TypeNode)
  deriving Repr

/-- A validated non-Rows schema whose maximum encoded value fits 16 MiB. -/
structure Schema where
  /-- The descriptor the schema was decoded from. -/
  descriptor : Bytes
  /-- The type it describes. -/
  node : TypeNode
  /-- The largest encoded value. -/
  maxValueBytes : Nat
  /-- The largest canonical key. -/
  maxKeyBytes : Nat

/-- Split bytes off a schema, value or key. -/
def take (input : Bytes) (length : Nat) : Except Error (Bytes × Bytes) :=
  takeBytes (.invalidInput "truncated schema, value, or key") input length

/-- Addition of machine sizes, absent on overflow. -/
def checkedAdd (left right : Nat) : Option Nat :=
  if left + right < 2 ^ 64 then some (left + right) else none

/-- Multiplication of machine sizes, absent on overflow. -/
def checkedMul (left right : Nat) : Option Nat :=
  if left * right < 2 ^ 64 then some (left * right) else none

/-- Report an absent size as an input error. -/
def orInvalid (reason : String) (size : Option Nat) : Except Error Nat :=
  match size with
  | some size => .ok size
  | none => .error (.invalidInput reason)

/-- Decode a count of tuple fields in order, adding up both size bounds. -/
def decodeFields (decode : Bytes → Except Error (TypeNode × Nat × Nat × Bytes)) :
    Nat → Bytes → Nat → Nat → Except Error (List TypeNode × Nat × Nat × Bytes)
  | 0, input, valueBytes, keyBytes => .ok ([], valueBytes, keyBytes, input)
  | count + 1, input, valueBytes, keyBytes => do
      let (field, valueSize, keySize, input) ← decode input
      let valueBytes ← orInvalid "schema value size exceeds 16 MiB"
        ((checkedAdd valueBytes valueSize).filter (· ≤ maxValueBytes))
      let keyBytes ← orInvalid "schema key size overflow" (checkedAdd keyBytes keySize)
      let (fields, valueBytes, keyBytes, input) ←
        decodeFields decode count input valueBytes keyBytes
      return (field :: fields, valueBytes, keyBytes, input)

/-- Check the size of a decoded node. -/
def boundNode (node : TypeNode) (valueBytes keyBytes : Nat) (input : Bytes) :
    Except Error (TypeNode × Nat × Nat × Bytes) :=
  if valueBytes > maxValueBytes then .error (.invalidInput "schema value size exceeds 16 MiB")
  else .ok (node, valueBytes, keyBytes, input)

/-- Decode one type node, with the number of nesting levels that remain. -/
def decodeNode : Nat → Bytes → Except Error (TypeNode × Nat × Nat × Bytes)
  | 0, _ => .error (.invalidInput "schema nesting exceeds depth 16")
  | levels + 1, input => do
      let (tag, input) ← take input 1
      match leNat tag with
      | 0x00 => boundNode .unit 0 0 input
      | 0x01 => boundNode .boolean 1 1 input
      | 0x02 => boundNode .i64 8 8 input
      | 0x03 => boundNode .u64 8 8 input
      | 0x04 => decodeBounded TypeNode.bytes input
      | 0x05 => decodeBounded TypeNode.string input
      | 0x06 => do
          let (count, input) ← take input 2
          let count := leNat count
          refuse (count > 256) (.invalidInput "tuple exceeds 256 fields")
          refuse (count > input.length) (.invalidInput "truncated tuple descriptor")
          let (fields, valueBytes, keyBytes, input) ←
            decodeFields (decodeNode levels) count input 0 0
          boundNode (.tuple fields) valueBytes keyBytes input
      | 0x20 => throw (.invalidInput "Rows is not a storage schema type")
      | _ => throw (.invalidInput "unknown schema type tag")
where
  /-- Decode the bound of a byte string or text. -/
  decodeBounded (node : Nat → TypeNode) (input : Bytes) :
      Except Error (TypeNode × Nat × Nat × Bytes) := do
    let (bound, input) ← take input 4
    let bound := leNat bound
    let valueBytes ← orInvalid "schema value size overflow" (checkedAdd bound 4)
    let keyBytes ← orInvalid "schema key size overflow"
      ((checkedMul bound 2).bind fun bytes => checkedAdd bytes 2)
    boundNode (node bound) valueBytes keyBytes input

/-- Decode and validate a complete schema descriptor. -/
def Schema.decode (bytes : Bytes) : Except Error Schema := do
  refuse (bytes.length > maxDescriptorBytes)
    (.invalidInput "schema descriptor exceeds 65,536 bytes")
  let (version, input) ← take bytes 2
  refuse (leNat version ≠ 1) (.unsupported "schema" (leNat version))
  let (node, maxValueBytes, maxKeyBytes, input) ← decodeNode 16 input
  refuse (input ≠ []) (.invalidInput "trailing schema descriptor bytes")
  return ⟨bytes, node, maxValueBytes, maxKeyBytes⟩

/-- Flip the sign bit of a 64-bit pattern. -/
def flipSign (number : Nat) : Nat := number ^^^ 2 ^ 63

/-- Escape a byte string so that its encoding is self-delimiting and keeps the
unsigned order. -/
def escapeInto : Bytes → Bytes
  | [] => [0, 0]
  | byte :: bytes =>
      if byte = 0 then byte :: 0xff :: escapeInto bytes else byte :: escapeInto bytes

/-- Decode one escape frame and report how many bytes it used. -/
def unescape : Bytes → Except Error (Bytes × Nat)
  | [] => .error (.invalidInput "truncated schema, value, or key")
  | byte :: input =>
      if byte ≠ 0 then do
        let (bytes, consumed) ← unescape input
        return (byte :: bytes, consumed + 1)
      else
        match input with
        | [] => .error (.invalidInput "truncated schema, value, or key")
        | 0 :: _ => .ok ([], 2)
        | 0xff :: rest => do
            let (bytes, consumed) ← unescape rest
            return (0 :: bytes, consumed + 2)
        | _ :: _ => .error (.invalidInput "invalid key escape")

mutual

/-- Read one value of a type; the result is the remaining input and the
canonical key bytes of the value. -/
def readValue : TypeNode → Bytes → Except Error (Bytes × Bytes)
  | .unit, input => .ok (input, [])
  | .boolean, input => do
      let (byte, input) ← take input 1
      refuse (leNat byte > 1) (.invalidInput "invalid Boolean value")
      return (input, byte)
  | .i64, input => do
      let (number, input) ← take input 8
      return (input, beBytes 8 (flipSign (leNat number)))
  | .u64, input => do
      let (number, input) ← take input 8
      return (input, beBytes 8 (leNat number))
  | .bytes bound, input => do
      let (length, input) ← take input 4
      refuse (leNat length > bound) (.invalidInput "byte length exceeds schema bound")
      let (bytes, input) ← take input (leNat length)
      return (input, escapeInto bytes)
  | .string bound, input => do
      let (length, input) ← take input 4
      refuse (leNat length > bound) (.invalidInput "byte length exceeds schema bound")
      let (bytes, input) ← take input (leNat length)
      refuse (fromUtf8 bytes = none) (.invalidInput "invalid UTF-8 string")
      return (input, escapeInto bytes)
  | .tuple fields, input => readValues fields input

/-- Read the fields of a tuple in order. -/
def readValues : List TypeNode → Bytes → Except Error (Bytes × Bytes)
  | [], input => .ok (input, [])
  | field :: fields, input => do
      let (input, key) ← readValue field input
      let (input, keys) ← readValues fields input
      return (input, key ++ keys)

end

/-- Validate one complete schema-encoded value. -/
def validateValue (schema : Schema) (value : Bytes) : Except Error Unit := do
  refuse (value.length > schema.maxValueBytes) (.invalidInput "value exceeds schema maximum size")
  let (input, _) ← readValue schema.node value
  refuse (input ≠ []) (.invalidInput "trailing value bytes")

/-- Convert a complete schema-encoded value to its canonical key. -/
def encodeKey (schema : Schema) (value : Bytes) : Except Error Bytes := do
  refuse (schema.maxKeyBytes > maxKeyBytes) (.invalidInput "schema key size exceeds 1,024 bytes")
  refuse (value.length > schema.maxValueBytes) (.invalidInput "value exceeds schema maximum size")
  let (input, key) ← readValue schema.node value
  refuse (input ≠ []) (.invalidInput "trailing value bytes")
  return key

mutual

/-- Read one canonical key of a type; the result is the remaining input and the
schema encoding of the value. -/
def readKey : TypeNode → Bytes → Except Error (Bytes × Bytes)
  | .unit, input => .ok (input, [])
  | .boolean, input => do
      let (byte, input) ← take input 1
      refuse (leNat byte > 1) (.invalidInput "invalid Boolean key")
      return (input, byte)
  | .i64, input => do
      let (number, input) ← take input 8
      return (input, leBytes 8 (flipSign (beNat number)))
  | .u64, input => do
      let (number, input) ← take input 8
      return (input, leBytes 8 (beNat number))
  | .bytes bound, input => do
      let (bytes, consumed) ← unescape input
      refuse (bytes.length > bound) (.invalidInput "byte length exceeds schema bound")
      return (input.drop consumed, leBytes 4 bytes.length ++ bytes)
  | .string bound, input => do
      let (bytes, consumed) ← unescape input
      refuse (bytes.length > bound) (.invalidInput "byte length exceeds schema bound")
      refuse (fromUtf8 bytes = none) (.invalidInput "invalid UTF-8 string")
      return (input.drop consumed, leBytes 4 bytes.length ++ bytes)
  | .tuple fields, input => readKeys fields input

/-- Read the fields of a tuple key in order. -/
def readKeys : List TypeNode → Bytes → Except Error (Bytes × Bytes)
  | [], input => .ok (input, [])
  | field :: fields, input => do
      let (input, value) ← readKey field input
      let (input, values) ← readKeys fields input
      return (input, value ++ values)

end

/-- Decode one complete canonical key into its canonical value encoding. -/
def decodeKey (schema : Schema) (key : Bytes) : Except Error Bytes := do
  refuse (schema.maxKeyBytes > maxKeyBytes) (.invalidInput "schema key size exceeds 1,024 bytes")
  refuse (key.length > schema.maxKeyBytes) (.invalidInput "key exceeds schema maximum size")
  let (input, value) ← readKey schema.node key
  refuse (input ≠ []) (.invalidInput "trailing key bytes")
  return value

/-! ## Escape frames -/

/-- An escape frame decodes to its content and its own length, whatever follows. -/
theorem unescape_escapeInto (bytes rest : Bytes) :
    unescape (escapeInto bytes ++ rest) = .ok (bytes, (escapeInto bytes).length) := by
  induction bytes with
  | nil => simp [escapeInto, unescape]
  | cons byte bytes ih =>
      by_cases zero : byte = 0
      · subst zero
        simp [escapeInto, unescape, ih]
      · rw [escapeInto, if_neg zero, List.cons_append, unescape.eq_def]
        simp [zero, ih]

/-- Bytes that decode begin with the frame of the decoded content. -/
theorem unescape_sound {input bytes : Bytes} {consumed : Nat}
    (decoded : unescape input = .ok (bytes, consumed)) :
    ∃ rest, input = escapeInto bytes ++ rest ∧ consumed = (escapeInto bytes).length := by
  fun_induction unescape input generalizing bytes consumed with
  | case1 => cases decoded
  | case2 byte input nonzero ih =>
      obtain ⟨⟨tail, used⟩, inner, outer⟩ := bind_eq_ok.mp decoded
      cases outer
      obtain ⟨rest, rfl, rfl⟩ := ih inner
      exact ⟨rest, by simp [escapeInto, nonzero], by simp [escapeInto, nonzero]⟩
  | case3 byte zero => cases decoded
  | case4 byte zero rest =>
      obtain rfl : byte = 0 := not_not.mp zero
      cases decoded
      exact ⟨rest, by simp [escapeInto], by simp [escapeInto]⟩
  | case5 byte zero rest ih =>
      obtain rfl : byte = 0 := not_not.mp zero
      obtain ⟨⟨tail, used⟩, inner, outer⟩ := bind_eq_ok.mp decoded
      cases outer
      obtain ⟨rest, rfl, rfl⟩ := ih inner
      exact ⟨rest, by simp [escapeInto], by simp [escapeInto]⟩
  | case6 byte zero head rest notEnd notEscape => cases decoded

theorem length_escapeInto_le (bytes : Bytes) :
    (escapeInto bytes).length ≤ 2 * bytes.length + 2 := by
  induction bytes with
  | nil => simp [escapeInto]
  | cons byte bytes ih =>
      simp only [escapeInto]
      split_ifs <;> simp only [List.length_cons] <;> omega

theorem flipSign_flipSign (number : Nat) : flipSign (flipSign number) = number := by
  simp [flipSign, Nat.xor_assoc]

theorem flipSign_lt {number : Nat} (small : number < 2 ^ 64) : flipSign number < 2 ^ 64 :=
  Nat.xor_lt_two_pow small (by norm_num)

end BlopDb.Storage.Encoding
