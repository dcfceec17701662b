/-
# The canonical key encoding is an order embedding

Canonical keys compare, as unsigned byte strings, like the values they encode
under the derived order.  Order and prefix-freeness go together: the comparison
of two encoded fields is stated with arbitrary continuations, so that a decided
field settles everything that follows and equal fields leave the decision to
the rest of the tuple.
-/

import BlopDb.Storage.MvccOrder
import BlopDb.Vm.SchemaAgreement

namespace BlopDb.Vm

open BlopDb.Lib
open Storage.Encoding (TypeNode Schema escapeInto flipSign readKey readKeys encodeKey decodeKey
  validateValue readValue unescape_sound flipSign_flipSign flipSign_lt)
open Storage.Mvcc (append_lt_append beBytes_lt_iff beBytes_eq_iff escapeInto_lt_iff)

/-! ## The derived order -/

theorem compare_bytes_lt (left right : Bytes) : compare left right = .lt ↔ left < right := by
  induction left generalizing right with
  | nil => cases right <;> simp
  | cons byte left ih =>
      cases right with
      | nil => simp
      | cons other right =>
          rw [List.compare_eq_compareLex] at ih ⊢
          rw [List.compareLex_cons_cons, Ordering.then_eq_lt, ih, List.cons_lt_cons_iff,
            Std.compare_eq_lt, Std.compare_eq_iff_eq]

theorem compare_bytes_eq (left right : Bytes) : compare left right = .eq ↔ left = right :=
  Std.compare_eq_iff_eq

namespace Value

mutual

theorem cmp_eq_iff : (left right : Value) → (cmp left right = .eq ↔ left = right)
  | unit, right => by cases right <;> simp [cmp, tag]
  | boolean value, right => by cases right <;> simp [cmp, tag]
  | i64 number, right => by cases right <;> simp [cmp, tag, Int64.toInt_inj]
  | u64 number, right => by cases right <;> simp [cmp, tag, UInt64.toNat_inj]
  | bytes data, right => by cases right <;> simp [cmp, tag]
  | string text, right => by
      cases right <;> simp [cmp, tag]
      exact ⟨textBytes_inj, fun same => same ▸ rfl⟩
  | tuple fields, right => by cases right <;> simp [cmp, tag, cmpList_eq_iff fields]
  | rows entries, right => by cases right <;> simp [cmp, tag, cmpRows_eq_iff entries]

theorem cmpList_eq_iff : (left right : List Value) → (cmpList left right = .eq ↔ left = right)
  | [], right => by cases right <;> simp [cmpList]
  | left :: lefts, right => by
      cases right <;> simp [cmpList, Ordering.then_eq_eq, cmp_eq_iff left, cmpList_eq_iff lefts]

theorem cmpRows_eq_iff :
    (left right : List (Value × Value)) → (cmpRows left right = .eq ↔ left = right)
  | [], right => by cases right <;> simp [cmpRows]
  | (key, value) :: rest, right => by
      cases right with
      | nil => simp [cmpRows]
      | cons head tail =>
          obtain ⟨otherKey, other⟩ := head
          simp [cmpRows, Ordering.then_eq_eq, cmp_eq_iff key, cmp_eq_iff value,
            cmpRows_eq_iff rest, and_assoc]

end

end Value

/-! ## Signed integers -/

/-- Flipping the sign bit is adding half of the range. -/
theorem flipSign_eq {number : Nat} (small : number < 2 ^ 64) :
    flipSign number = (number + 2 ^ 63) % 2 ^ 64 := by
  have high : flipSign number / 2 ^ 63 = number / 2 ^ 63 ^^^ 1 := Nat.xor_div_two_pow
  have low : flipSign number % 2 ^ 63 = number % 2 ^ 63 := by
    rw [flipSign, Nat.xor_mod_two_pow, Nat.mod_self, Nat.xor_zero]
  have bit : number / 2 ^ 63 = 0 ∨ number / 2 ^ 63 = 1 := by omega
  rcases bit with zero | one
  · rw [zero] at high
    simp only [Nat.zero_xor] at high
    omega
  · rw [one] at high
    simp only [Nat.xor_self] at high
    omega

/-- The flipped patterns compare like the signed numbers. -/
theorem flipSign_lt_iff (left right : Int64) :
    flipSign left.toBitVec.toNat < flipSign right.toBitVec.toNat ↔ left.toInt < right.toInt := by
  have hl := left.toBitVec.isLt
  have hr := right.toBitVec.isLt
  rw [flipSign_eq hl, flipSign_eq hr, Int64.toInt, Int64.toInt, BitVec.toInt_eq_toNat_cond,
    BitVec.toInt_eq_toNat_cond]
  split_ifs <;> omega

/-! ## Encoded fields -/

mutual

/-- Two keys of one column compare like their values; equal values leave the
decision to what follows. -/
theorem keyBytes_lt_iff : (ty : Ty) → (node : TypeNode) → (left right : Value) →
    (x y : Bytes) → ty.Matches node → ty.accepts left = true → ty.accepts right = true →
    (left.keyBytes ++ x < right.keyBytes ++ y ↔
      left.cmp right = .lt ∨ left = right ∧ x < y)
  | .unit, .unit, .unit, .unit, x, y, _, _, _ => by
      simp [Value.keyBytes, Value.cmp]
  | .boolean, .boolean, .boolean left, .boolean right, x, y, _, _, _ => by
      have ascending : compare false true = .lt := by rfl
      cases left <;> cases right <;>
        simp [Value.keyBytes, Value.cmp, List.cons_lt_cons_iff, ascending]
  | .i64, .i64, .i64 left, .i64 right, x, y, _, _, _ => by
      have hl : flipSign left.toBitVec.toNat < 256 ^ 8 := flipSign_lt left.toBitVec.isLt
      have hr : flipSign right.toBitVec.toNat < 256 ^ 8 := flipSign_lt right.toBitVec.isLt
      have same : flipSign left.toBitVec.toNat = flipSign right.toBitVec.toNat ↔ left = right := by
        constructor
        · intro equal
          have patterns := congrArg flipSign equal
          rw [flipSign_flipSign, flipSign_flipSign] at patterns
          exact Int64.toBitVec_inj.mp (BitVec.eq_of_toNat_eq patterns)
        · rintro rfl
          rfl
      simp only [Value.keyBytes]
      rw [append_lt_append (by simp), beBytes_lt_iff hl hr, beBytes_eq_iff hl hr, same,
        flipSign_lt_iff, Value.cmp, Std.compare_eq_lt, Value.i64.injEq]
  | .u64, .u64, .u64 left, .u64 right, x, y, _, _, _ => by
      have hl : left.toNat < 256 ^ 8 := left.toNat_lt
      have hr : right.toNat < 256 ^ 8 := right.toNat_lt
      simp only [Value.keyBytes]
      rw [append_lt_append (by simp), beBytes_lt_iff hl hr, beBytes_eq_iff hl hr,
        UInt64.toNat_inj, Value.cmp, Std.compare_eq_lt, Value.u64.injEq]
  | .bytes _, .bytes _, .bytes left, .bytes right, x, y, _, _, _ => by
      simp only [Value.keyBytes]
      rw [escapeInto_lt_iff, Value.cmp, compare_bytes_lt, Value.bytes.injEq]
  | .string _, .string _, .string left, .string right, x, y, _, _, _ => by
      have same : textBytes left = textBytes right ↔ left = right :=
        ⟨textBytes_inj, fun equal => equal ▸ rfl⟩
      simp only [Value.keyBytes]
      rw [escapeInto_lt_iff, Value.cmp, compare_bytes_lt, Value.string.injEq, same]
  | .tuple types, .tuple nodes, .tuple lefts, .tuple rights, x, y, same, hl, hr => by
      have fields := keysBytes_lt_iff types nodes lefts rights x y same
        (by simpa [Ty.accepts] using hl) (by simpa [Ty.accepts] using hr)
      rw [Value.keyBytes, Value.keyBytes, fields, Value.cmp, Value.tuple.injEq]

theorem keysBytes_lt_iff : (types : List Ty) → (nodes : List TypeNode) →
    (lefts rights : List Value) → (x y : Bytes) → Ty.MatchesAll types nodes →
    Ty.acceptsFields types lefts = true → Ty.acceptsFields types rights = true →
    (Value.keysBytes lefts ++ x < Value.keysBytes rights ++ y ↔
      Value.cmpList lefts rights = .lt ∨ lefts = rights ∧ x < y)
  | [], [], [], [], x, y, _, _, _ => by simp [Value.keysBytes, Value.cmpList]
  | ty :: types, node :: nodes, left :: lefts, right :: rights, x, y, same, hl, hr => by
      simp only [Ty.acceptsFields, Bool.and_eq_true] at hl hr
      have first := keyBytes_lt_iff ty node left right (Value.keysBytes lefts ++ x)
        (Value.keysBytes rights ++ y) same.1 hl.1 hr.1
      have others := keysBytes_lt_iff types nodes lefts rights x y same.2 hl.2 hr.2
      simp only [Value.keysBytes, List.append_assoc]
      rw [first, others, Value.cmpList, Ordering.then_eq_lt, Value.cmp_eq_iff, List.cons.injEq]
      tauto

end

mutual

/-- What storage reads as a key is the key of a value the type accepts, and it
produces that value's encoding. -/
theorem readKey_sound : (ty : Ty) → (node : TypeNode) → (input : Bytes) →
    (result : Bytes × Bytes) → ty.Matches node → readKey node input = .ok result →
    ∃ value : Value, ty.accepts value = true ∧ input = value.keyBytes ++ result.1 ∧
      result.2 = value.encode
  | .unit, .unit, input, result, _, h => by
      cases h
      exact ⟨.unit, rfl, rfl, rfl⟩
  | .boolean, .boolean, input, result, _, h => by
      simp only [readKey, bind_eq_ok, refuse_eq_ok, Prod.exists, exists_const, pure_eq_ok,
        Except.ok.injEq] at h
      obtain ⟨byte, rest, split, binary, rfl⟩ := h
      obtain ⟨byte, rfl, rfl⟩ := takeBytes_one split
      rw [leNat_singleton] at binary
      obtain ⟨flag, rfl⟩ := exists_flag binary
      exact ⟨.boolean flag, rfl, rfl, rfl⟩
  | .i64, .i64, input, result, _, h => by
      simp only [readKey, bind_eq_ok, Prod.exists, pure_eq_ok, Except.ok.injEq] at h
      obtain ⟨number, rest, split, rfl⟩ := h
      obtain ⟨rfl, width⟩ := storage_take_exact split
      have small : beNat number < 2 ^ 64 := by
        have := beNat_lt number
        rw [width] at this
        omega
      have flipped := flipSign_lt small
      refine ⟨.i64 (Int64.ofBitVec (BitVec.ofNat 64 (flipSign (beNat number)))), rfl, ?_⟩
      simp only [Value.encode, Value.keyBytes, Int64.toBitVec_ofBitVec, BitVec.toNat_ofNat,
        Nat.mod_eq_of_lt flipped, flipSign_flipSign, and_true]
      rw [← width, beBytes_beNat]
  | .u64, .u64, input, result, _, h => by
      simp only [readKey, bind_eq_ok, Prod.exists, pure_eq_ok, Except.ok.injEq] at h
      obtain ⟨number, rest, split, rfl⟩ := h
      obtain ⟨rfl, width⟩ := storage_take_exact split
      have small : beNat number < 2 ^ 64 := by
        have := beNat_lt number
        rw [width] at this
        omega
      refine ⟨.u64 (UInt64.ofNat (beNat number)), rfl, ?_⟩
      simp only [Value.encode, Value.keyBytes, UInt64.toNat_ofNat', Nat.mod_eq_of_lt small,
        and_true]
      rw [← width, beBytes_beNat]
  | .bytes bound, .bytes bound', input, result, same, h => by
      simp only [Ty.Matches] at same
      simp only [readKey, bind_eq_ok, refuse_eq_ok, Prod.exists, exists_const, pure_eq_ok,
        Except.ok.injEq] at h
      obtain ⟨data, consumed, framed, within, rfl⟩ := h
      obtain ⟨rest, rfl, rfl⟩ := unescape_sound framed
      exact ⟨.bytes data, by simp [Ty.accepts]; omega, by simp [Value.keyBytes], rfl⟩
  | .string bound, .string bound', input, result, same, h => by
      simp only [Ty.Matches] at same
      simp only [readKey, bind_eq_ok, refuse_eq_ok, Prod.exists, exists_const, pure_eq_ok,
        Except.ok.injEq] at h
      obtain ⟨data, consumed, framed, within, valid, rfl⟩ := h
      obtain ⟨rest, rfl, rfl⟩ := unescape_sound framed
      obtain ⟨text, decoded⟩ := Option.ne_none_iff_exists'.mp valid
      have bytes := textBytes_of_fromUtf8 decoded
      exact ⟨.string text, by simp [Ty.accepts, bytes]; omega, by simp [Value.keyBytes, bytes],
        by simp [Value.encode, bytes]⟩
  | .tuple types, .tuple nodes, input, result, same, h => by
      obtain ⟨values, accepted, whole, encoded⟩ := readKeys_sound types nodes input result same
        (by simpa [readKey] using h)
      exact ⟨.tuple values, by simpa [Ty.accepts] using accepted, by rw [Value.keyBytes, whole],
        by rw [Value.encode, encoded]⟩

theorem readKeys_sound : (types : List Ty) → (nodes : List TypeNode) → (input : Bytes) →
    (result : Bytes × Bytes) → Ty.MatchesAll types nodes → readKeys nodes input = .ok result →
    ∃ values : List Value, Ty.acceptsFields types values = true ∧
      input = Value.keysBytes values ++ result.1 ∧ result.2 = Value.encodeFields values
  | [], [], input, result, _, h => by
      cases h
      exact ⟨[], rfl, rfl, rfl⟩
  | ty :: types, node :: nodes, input, result, same, h => by
      simp only [readKeys, bind_eq_ok, Prod.exists, pure_eq_ok, Except.ok.injEq] at h
      obtain ⟨middle, encoded, first, rest, encodeds, others, rfl⟩ := h
      obtain ⟨value, accepted, rfl, rfl⟩ := readKey_sound ty node _ _ same.1 first
      obtain ⟨values, tail, whole, rfl⟩ := readKeys_sound types nodes _ _ same.2 others
      dsimp only at whole
      subst whole
      exact ⟨value :: values, by simp [Ty.acceptsFields, accepted, tail],
        by simp [Value.keysBytes], by simp [Value.encodeFields]⟩

end

/-! ## Keys of a column -/

namespace KeyColumn

variable {ty : Ty} {schema : Schema} (column : KeyColumn ty schema)

include column

/-- A column has keys for exactly the encodings of the values it accepts. -/
theorem encodeKey_iff (encoded key : Bytes) : Storage.Encoding.encodeKey schema encoded = .ok key ↔
    ∃ value, ty.accepts value = true ∧ encoded = value.encode ∧ key = value.keyBytes := by
  constructor
  · intro h
    obtain ⟨matched, -⟩ := schema_matches column.formed column.decoded
    simp only [Storage.Encoding.encodeKey, bind_eq_ok, refuse_eq_ok, Prod.exists, exists_const,
      pure_eq_ok, Except.ok.injEq] at h
    obtain ⟨-, -, rest, key, read, done, rfl⟩ := h
    obtain ⟨value, accepted, whole, keyed⟩ := readValue_sound ty _ _ _ matched read
    dsimp only at whole keyed
    rw [not_not.mp done, List.append_nil] at whole
    exact ⟨value, accepted, whole, keyed⟩
  · rintro ⟨value, accepted, rfl, rfl⟩
    exact column.encodeKey accepted

/-- Exactly the keys of accepted values decode. -/
theorem decodeKey_iff (key encoded : Bytes) : Storage.Encoding.decodeKey schema key = .ok encoded ↔
    ∃ value, ty.accepts value = true ∧ encoded = value.encode ∧ key = value.keyBytes := by
  constructor
  · intro h
    obtain ⟨matched, -⟩ := schema_matches column.formed column.decoded
    simp only [Storage.Encoding.decodeKey, bind_eq_ok, refuse_eq_ok, Prod.exists, exists_const,
      pure_eq_ok, Except.ok.injEq] at h
    obtain ⟨-, -, rest, encoded, read, done, rfl⟩ := h
    obtain ⟨value, accepted, whole, same⟩ := readKey_sound ty _ _ _ matched read
    dsimp only at whole same
    rw [not_not.mp done, List.append_nil] at whole
    exact ⟨value, accepted, same, whole⟩
  · rintro ⟨value, accepted, rfl, rfl⟩
    exact column.decodeKey accepted

/-- No key of a column continues another one. -/
theorem keyBytes_prefix {left right : Value} (hl : ty.accepts left = true)
    (hr : ty.accepts right = true) (continued : left.keyBytes <+: right.keyBytes) :
    left = right := by
  obtain ⟨matched, -⟩ := schema_matches column.formed column.decoded
  obtain ⟨rest, whole⟩ := continued
  have first := readKey_keyBytes ty schema.node left rest matched hl
  have second := readKey_keyBytes ty schema.node right [] matched hr
  rw [List.append_nil, ← whole, first] at second
  have same : left.encode = right.encode := (Prod.mk.inj (Except.ok.inj second)).2
  have decodedLeft := decodeValue_encode column.formed hl
  rw [same, decodeValue_encode column.formed hr] at decodedLeft
  exact (Except.ok.inj decodedLeft).symm

/-- Keys compare like their values. -/
theorem compare_keyBytes {left right : Value} (hl : ty.accepts left = true)
    (hr : ty.accepts right = true) :
    compare left.keyBytes right.keyBytes = left.cmp right := by
  obtain ⟨matched, -⟩ := schema_matches column.formed column.decoded
  have less := keyBytes_lt_iff ty schema.node left right [] [] matched hl hr
  simp only [List.append_nil, lt_irrefl, and_false, or_false] at less
  cases order : left.cmp right with
  | lt => exact (compare_bytes_lt _ _).mpr (less.mpr order)
  | eq =>
      rw [Value.cmp_eq_iff] at order
      rw [order]
      exact (compare_bytes_eq _ _).mpr rfl
  | gt =>
      cases keys : compare left.keyBytes right.keyBytes with
      | lt =>
          have below := less.mp ((compare_bytes_lt _ _).mp keys)
          rw [order] at below
          cases below
      | eq =>
          have same := (compare_bytes_eq _ _).mp keys
          have equal := column.keyBytes_prefix hl hr (same ▸ List.prefix_refl _)
          rw [(Value.cmp_eq_iff _ _).mpr equal] at order
          cases order
      | gt => rfl

end KeyColumn

/-- The key codec of every schema with keys of at most 1,024 bytes: it accepts
what validation accepts, inverts in both directions, respects the key bound, and
embeds the derived order of the decoded values without prefixes. -/
theorem keys_preserve_order {descriptor : Bytes} {schema : Schema} {ty : Ty}
    (stored : Schema.decode descriptor = .ok schema) (decoded : Ty.decode descriptor = .ok ty)
    (short : schema.maxKeyBytes ≤ Storage.Encoding.maxKeyBytes) :
    (∀ encoded, (∃ key, encodeKey schema encoded = .ok key) ↔
      validateValue schema encoded = .ok ()) ∧
    (∀ encoded key, encodeKey schema encoded = .ok key ↔ decodeKey schema key = .ok encoded) ∧
    (∀ encoded key, encodeKey schema encoded = .ok key → key.length ≤ schema.maxKeyBytes) ∧
    ∀ encoded encoded' key key', encodeKey schema encoded = .ok key →
      encodeKey schema encoded' = .ok key' → ∃ value value',
        decodeValue ty encoded = .ok value ∧ decodeValue ty encoded' = .ok value' ∧
        compare key key' = value.cmp value' ∧ (key <+: key' → encoded = encoded') := by
  obtain ⟨rfl, formed, -⟩ := Ty.decode_sound decoded
  have column : KeyColumn ty schema := ⟨formed, stored, short⟩
  obtain ⟨matched, maxValue, maxKey⟩ := schema_matches formed stored
  refine ⟨fun encoded => ?_, fun encoded key => ?_, fun encoded key h => ?_,
    fun encoded encoded' key key' h h' => ?_⟩
  · rw [validateValue_iff formed matched maxValue]
    simp only [column.encodeKey_iff]
    constructor
    · rintro ⟨key, value, accepted, whole, -⟩
      exact ⟨value, accepted, whole⟩
    · rintro ⟨value, accepted, whole⟩
      exact ⟨value.keyBytes, value, accepted, whole, rfl⟩
  · rw [column.encodeKey_iff, column.decodeKey_iff]
  · obtain ⟨value, accepted, -, rfl⟩ := (column.encodeKey_iff _ _).mp h
    rw [maxKey]
    exact length_keyBytes_le ty value accepted
  · obtain ⟨value, accepted, rfl, rfl⟩ := (column.encodeKey_iff _ _).mp h
    obtain ⟨value', accepted', rfl, rfl⟩ := (column.encodeKey_iff _ _).mp h'
    refine ⟨value, value', decodeValue_encode formed accepted,
      decodeValue_encode formed accepted', column.compare_keyBytes accepted accepted', ?_⟩
    intro continued
    rw [column.keyBytes_prefix accepted accepted' continued]

namespace Sample

/-- Keys of signed integers: minus one precedes zero. -/
theorem signed_keys_ordered :
    ∃ schema, Schema.decode [1, 0, 2] = .ok schema ∧
      ∃ value value',
        decodeValue .i64 (leBytes 8 (2 ^ 64 - 1)) = .ok value ∧
        decodeValue .i64 (leBytes 8 0) = .ok value' ∧
        compare ([127, 255, 255, 255, 255, 255, 255, 255] : Bytes) [128, 0, 0, 0, 0, 0, 0, 0] =
          value.cmp value' := by
  have stored : Schema.decode [1, 0, 2] = .ok ⟨[1, 0, 2], .i64, 8, 8⟩ := by rfl
  obtain ⟨-, -, -, order⟩ := keys_preserve_order stored (show Ty.decode [1, 0, 2] = .ok .i64 by rfl)
    (by decide)
  obtain ⟨value, value', first, second, ordered, -⟩ := order (leBytes 8 (2 ^ 64 - 1)) (leBytes 8 0)
    [127, 255, 255, 255, 255, 255, 255, 255] [128, 0, 0, 0, 0, 0, 0, 0] (by decide) (by decide)
  exact ⟨_, stored, value, value', first, second, ordered⟩

end Sample

end BlopDb.Vm
