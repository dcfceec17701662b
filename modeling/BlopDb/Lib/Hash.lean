/-
# Digest functions

The hash and checksum libraries a format relies on are parameters: a SHA-256
digest of 32 bytes and a 32-bit CRC.  Nothing else is assumed of them.  The CRC
is small enough to run, so it is also given as a function.
-/

import Mathlib.Data.Nat.Bitwise
import BlopDb.Lib.Bytes

namespace BlopDb.Lib

/-- The SHA-256 digest function. -/
class Sha256 where
  /-- The digest of a byte string. -/
  digest : Bytes → Bytes
  /-- Digests have 32 bytes. -/
  length_digest : ∀ bytes, (digest bytes).length = 32

/-- The CRC-32C checksum function. -/
class Crc32c where
  /-- The checksum of a byte string. -/
  checksum : Bytes → Nat
  /-- Checksums have 32 bits. -/
  checksum_lt : ∀ bytes, checksum bytes < 2 ^ 32

namespace Castagnoli

/-- Divide by the reflected polynomial, one bit at a time. -/
def bits : Nat → Nat → Nat
  | 0, crc => crc
  | count + 1, crc => bits count (if crc % 2 = 1 then crc / 2 ^^^ 0x82f63b78 else crc / 2)

/-- The remainder after a byte string. -/
def remainder (bytes : Bytes) : Nat :=
  bytes.foldl (fun crc byte => bits 8 (crc ^^^ byte.toNat)) 0xffffffff

theorem bits_lt {count crc : Nat} (small : crc < 2 ^ 32) : bits count crc < 2 ^ 32 := by
  induction count generalizing crc with
  | zero => exact small
  | succ count ih =>
      rw [bits]
      refine ih ?_
      have half : crc / 2 < 2 ^ 32 := lt_of_le_of_lt (Nat.div_le_self _ _) small
      split
      · exact Nat.xor_lt_two_pow half (by norm_num)
      · exact half

theorem remainder_lt (bytes : Bytes) : remainder bytes < 2 ^ 32 := by
  have step : ∀ crc < 2 ^ 32, bytes.foldl (fun crc byte => bits 8 (crc ^^^ byte.toNat)) crc < 2 ^ 32 := by
    induction bytes with
    | nil => exact fun crc small => small
    | cons byte rest ih =>
        intro crc small
        have byte_lt : byte.toNat < 2 ^ 32 := lt_of_lt_of_le byte.toNat_lt (by norm_num)
        exact ih _ (bits_lt (Nat.xor_lt_two_pow small byte_lt))
  exact step _ (by norm_num)

end Castagnoli

/-- CRC-32C, with the Castagnoli polynomial. -/
@[reducible]
def castagnoli : Crc32c where
  checksum bytes := Castagnoli.remainder bytes ^^^ 0xffffffff
  checksum_lt bytes := Nat.xor_lt_two_pow (Castagnoli.remainder_lt bytes) (by norm_num)

/-- The check value of the algorithm. -/
example : castagnoli.checksum [0x31, 0x32, 0x33, 0x34, 0x35, 0x36, 0x37, 0x38, 0x39] = 0xe3069283 := by
  decide +kernel

end BlopDb.Lib
