/-
# Byte strings and fixed-width integers

Byte strings are lists of octets under the unsigned lexicographic order.  The
little-endian and big-endian codecs are stated for every width over natural
numbers, so one round-trip law serves all machine integers of a wire format.
The big-endian codec is also an order embedding, which is what makes integers
usable inside ordered keys.
-/

import Mathlib.Data.List.Lex
import Mathlib.Order.Basic
import Mathlib.Tactic

namespace BlopDb.Lib

/-- Octets in unsigned order, on the comparison instances of the core library. -/
instance instLinearOrderUInt8 : LinearOrder UInt8 where
  le_refl := UInt8.le_refl
  le_trans _ _ _ := UInt8.le_trans
  le_antisymm _ _ := UInt8.le_antisymm
  le_total := UInt8.le_total
  lt_iff_le_not_ge a b := by
    simp only [UInt8.lt_iff_toNat_lt, UInt8.le_iff_toNat_le]
    omega
  toDecidableLE := inferInstance
  toDecidableEq := inferInstance
  toDecidableLT := inferInstance

/-- A byte string. -/
abbrev Bytes := List UInt8

instance instDecidableMemBytes (byte : UInt8) (bytes : Bytes) : Decidable (byte ∈ bytes) :=
  List.instDecidableMemOfLawfulBEq byte bytes

/-- The `width` low-order octets of `n`, least significant first. -/
def leBytes : Nat → Nat → Bytes
  | 0, _ => []
  | width + 1, n => UInt8.ofNat n :: leBytes width (n / 256)

/-- The number a little-endian byte string denotes. -/
def leNat : Bytes → Nat
  | [] => 0
  | byte :: bytes => byte.toNat + 256 * leNat bytes

/-- The `width` low-order octets of `n`, most significant first. -/
def beBytes (width n : Nat) : Bytes := (leBytes width n).reverse

/-- The number a big-endian byte string denotes. -/
def beNat (bytes : Bytes) : Nat := leNat bytes.reverse

@[simp]
theorem length_leBytes (width n : Nat) : (leBytes width n).length = width := by
  induction width generalizing n with
  | zero => rfl
  | succ width ih => simp [leBytes, ih]

@[simp]
theorem length_beBytes (width n : Nat) : (beBytes width n).length = width := by
  simp [beBytes]

theorem leNat_lt (bytes : Bytes) : leNat bytes < 256 ^ bytes.length := by
  induction bytes with
  | nil => simp [leNat]
  | cons byte bytes ih =>
      have hbyte := byte.toNat_lt
      simp only [leNat, List.length_cons, pow_succ]
      omega

theorem beNat_lt (bytes : Bytes) : beNat bytes < 256 ^ bytes.length := by
  simpa [beNat] using leNat_lt bytes.reverse

/-- Decoding inverts encoding on every number that fits the width. -/
theorem leNat_leBytes (width n : Nat) (fits : n < 256 ^ width) :
    leNat (leBytes width n) = n := by
  induction width generalizing n with
  | zero => simp only [pow_zero, Nat.lt_one_iff] at fits; simp [leBytes, leNat, fits]
  | succ width ih =>
      have quotient : n / 256 < 256 ^ width := by
        rw [Nat.div_lt_iff_lt_mul (by norm_num)]
        simpa [pow_succ] using fits
      simp only [leBytes, leNat, ih _ quotient, UInt8.toNat_ofNat']
      omega

/-- Every byte string is the encoding of the number it denotes. -/
theorem leBytes_leNat (bytes : Bytes) : leBytes bytes.length (leNat bytes) = bytes := by
  induction bytes with
  | nil => rfl
  | cons byte bytes ih =>
      have hbyte := byte.toNat_lt
      have low : UInt8.ofNat (byte.toNat + 256 * leNat bytes) = byte := by
        apply UInt8.toNat_inj.mp
        simp only [UInt8.toNat_ofNat']
        omega
      have high : (byte.toNat + 256 * leNat bytes) / 256 = leNat bytes := by omega
      simp only [List.length_cons, leBytes, leNat, low, high, ih]

theorem beNat_beBytes (width n : Nat) (fits : n < 256 ^ width) :
    beNat (beBytes width n) = n := by
  simp [beNat, beBytes, leNat_leBytes width n fits]

theorem beBytes_beNat (bytes : Bytes) : beBytes bytes.length (beNat bytes) = bytes := by
  have inverse := leBytes_leNat bytes.reverse
  rw [List.length_reverse] at inverse
  simp [beNat, beBytes, inverse]

theorem leBytes_inj {width m n : Nat} (hm : m < 256 ^ width) (hn : n < 256 ^ width)
    (equal : leBytes width m = leBytes width n) : m = n := by
  rw [← leNat_leBytes width m hm, ← leNat_leBytes width n hn, equal]

theorem beBytes_inj {width m n : Nat} (hm : m < 256 ^ width) (hn : n < 256 ^ width)
    (equal : beBytes width m = beBytes width n) : m = n := by
  rw [← beNat_beBytes width m hm, ← beNat_beBytes width n hn, equal]

/-! ## Splitting an input -/

/-- Take an exact number of bytes from the front of an input, or fail with the
caller's error.  The remaining input is returned beside the bytes. -/
def takeBytes {ε : Type} (error : ε) (input : Bytes) (length : Nat) :
    Except ε (Bytes × Bytes) :=
  if length ≤ input.length then .ok (input.splitAt length) else .error error

theorem takeBytes_eq_ok {ε : Type} {error : ε} {input : Bytes} {length : Nat}
    {bytes rest : Bytes} :
    takeBytes error input length = .ok (bytes, rest) ↔
      input = bytes ++ rest ∧ bytes.length = length := by
  unfold takeBytes
  constructor
  · intro h
    split at h
    · rename_i enough
      simp only [List.splitAt_eq, Except.ok.injEq, Prod.mk.injEq] at h
      obtain ⟨rfl, rfl⟩ := h
      exact ⟨(List.take_append_drop length input).symm, by simp [enough]⟩
    · simp at h
  · rintro ⟨rfl, rfl⟩
    simp

@[simp]
theorem takeBytes_append {ε : Type} (error : ε) (bytes rest : Bytes) :
    takeBytes error (bytes ++ rest) bytes.length = .ok (bytes, rest) :=
  takeBytes_eq_ok.mpr ⟨rfl, rfl⟩

/-- The form in which a decoder meets an encoded field: the length is known from
the format rather than from the field. -/
theorem takeBytes_append_of_length {ε : Type} (error : ε) {bytes : Bytes} (rest : Bytes)
    {length : Nat} (exact : bytes.length = length) :
    takeBytes error (bytes ++ rest) length = .ok (bytes, rest) :=
  takeBytes_eq_ok.mpr ⟨rfl, exact⟩

@[simp]
theorem takeBytes_cons_one {ε : Type} (error : ε) (byte : UInt8) (rest : Bytes) :
    takeBytes error (byte :: rest) 1 = .ok ([byte], rest) :=
  takeBytes_eq_ok.mpr ⟨rfl, rfl⟩

@[simp]
theorem takeBytes_leBytes {ε : Type} (error : ε) (width n : Nat) (rest : Bytes) :
    takeBytes error (leBytes width n ++ rest) width = .ok (leBytes width n, rest) :=
  takeBytes_append_of_length error rest (length_leBytes width n)

@[simp]
theorem takeBytes_beBytes {ε : Type} (error : ε) (width n : Nat) (rest : Bytes) :
    takeBytes error (beBytes width n ++ rest) width = .ok (beBytes width n, rest) :=
  takeBytes_append_of_length error rest (length_beBytes width n)

@[simp]
theorem leNat_singleton (byte : UInt8) : leNat [byte] = byte.toNat := by simp [leNat]

/-- A single byte split off the front of an input. -/
theorem takeBytes_one {ε : Type} {error : ε} {input tag rest : Bytes}
    (h : takeBytes error input 1 = .ok (tag, rest)) :
    ∃ byte, tag = [byte] ∧ input = byte :: rest := by
  obtain ⟨rfl, length⟩ := takeBytes_eq_ok.mp h
  obtain ⟨byte, rfl⟩ := List.length_eq_one_iff.mp length
  exact ⟨byte, rfl, rfl⟩

/-! ## Text -/

/-- The UTF-8 bytes of a text. -/
def textBytes (text : String) : Bytes := text.toByteArray.data.toList

/-- The text a byte string encodes, if it is valid UTF-8. -/
def fromUtf8 (bytes : Bytes) : Option String := String.fromUTF8? ⟨bytes.toArray⟩

@[simp]
theorem fromUtf8_textBytes (text : String) : fromUtf8 (textBytes text) = some text := by
  have valid : ByteArray.IsValidUTF8 ⟨(textBytes text).toArray⟩ := text.isValidUTF8
  simp only [fromUtf8, String.fromUTF8?, valid, dite_true]
  rfl

theorem textBytes_of_fromUtf8 {bytes : Bytes} {text : String}
    (decoded : fromUtf8 bytes = some text) : textBytes text = bytes := by
  simp only [fromUtf8, String.fromUTF8?] at decoded
  split at decoded
  · cases decoded
    rfl
  · cases decoded

theorem textBytes_inj {left right : String} (equal : textBytes left = textBytes right) :
    left = right :=
  Option.some.inj (by rw [← fromUtf8_textBytes left, equal, fromUtf8_textBytes])

end BlopDb.Lib
