/-
# Length-prefixed fields

Readers of little-endian integers and length-prefixed byte strings, with the
error a format reports for a truncated field.  Each reader is characterized in
both directions: it succeeds exactly on inputs that begin with the field.
-/

import BlopDb.Lib.Bytes
import BlopDb.Lib.Fault

namespace BlopDb.Lib

variable {ε : Type}

/-- Read a little-endian integer. -/
def readNat (error : ε) (width : Nat) (input : Bytes) : Except ε (Nat × Bytes) := do
  let (bytes, input) ← takeBytes error input width
  return (leNat bytes, input)

/-- Read a byte string behind its 32-bit length. -/
def readFramed (error : ε) (input : Bytes) : Except ε (Bytes × Bytes) := do
  let (length, input) ← readNat error 4 input
  takeBytes error input length

/-- A byte string behind its 32-bit length. -/
def framed (bytes : Bytes) : Bytes := leBytes 4 bytes.length ++ bytes

@[simp]
theorem length_framed (bytes : Bytes) : (framed bytes).length = 4 + bytes.length := by
  simp [framed]

theorem readNat_eq_ok {error : ε} {width number : Nat} {input rest : Bytes} :
    readNat error width input = .ok (number, rest) ↔
      input = leBytes width number ++ rest ∧ number < 256 ^ width := by
  simp only [readNat, bind_eq_ok, Prod.exists, takeBytes_eq_ok, pure_eq_ok, Except.ok.injEq,
    Prod.mk.injEq]
  constructor
  · rintro ⟨bytes, after, ⟨rfl, rfl⟩, rfl, rfl⟩
    exact ⟨by rw [leBytes_leNat], leNat_lt bytes⟩
  · rintro ⟨rfl, small⟩
    exact ⟨leBytes width number, rest, ⟨rfl, length_leBytes width number⟩,
      leNat_leBytes width number small, rfl⟩

theorem readNat_append {error : ε} {width number : Nat} (small : number < 256 ^ width)
    (rest : Bytes) : readNat error width (leBytes width number ++ rest) = .ok (number, rest) :=
  readNat_eq_ok.mpr ⟨rfl, small⟩

theorem readFramed_eq_ok {error : ε} {input bytes rest : Bytes} :
    readFramed error input = .ok (bytes, rest) ↔
      input = framed bytes ++ rest ∧ bytes.length < 2 ^ 32 := by
  simp only [readFramed, bind_eq_ok, Prod.exists, readNat_eq_ok, takeBytes_eq_ok]
  constructor
  · rintro ⟨length, after, ⟨rfl, small⟩, rfl, rfl⟩
    exact ⟨by simp [framed], by omega⟩
  · rintro ⟨rfl, small⟩
    exact ⟨bytes.length, bytes ++ rest, ⟨by simp [framed], by omega⟩, rfl, rfl⟩

theorem readFramed_append {error : ε} {bytes : Bytes} (small : bytes.length < 2 ^ 32)
    (rest : Bytes) : readFramed error (framed bytes ++ rest) = .ok (bytes, rest) :=
  readFramed_eq_ok.mpr ⟨rfl, small⟩

/-- A byte string behind its length, or an error when the length does not fit. -/
def frameBytes (error : ε) (bytes : Bytes) : Except ε Bytes := do
  refuse (bytes.length ≥ 2 ^ 32) error
  return framed bytes

theorem frameBytes_eq_ok {error : ε} {bytes encoded : Bytes} :
    frameBytes error bytes = .ok encoded ↔ bytes.length < 2 ^ 32 ∧ encoded = framed bytes := by
  simp only [frameBytes, bind_eq_ok, refuse_eq_ok, pure_eq_ok, Except.ok.injEq, exists_const, not_le,
    ge_iff_le]
  exact and_congr_right fun _ => eq_comm

theorem frameBytes_of_short (error : ε) {bytes : Bytes} (short : bytes.length < 2 ^ 32) :
    frameBytes error bytes = .ok (framed bytes) := frameBytes_eq_ok.mpr ⟨short, rfl⟩

/-- Read a number of little-endian integers. -/
def readNats (error : ε) (width : Nat) :
    (count : Nat) → Bytes → Except ε ({numbers : List Nat // numbers.length = count} × Bytes)
  | 0, input => .ok (⟨[], rfl⟩, input)
  | count + 1, input => do
      let (number, input) ← readNat error width input
      let (numbers, input) ← readNats error width count input
      return (⟨number :: numbers.1, congrArg (· + 1) numbers.2⟩, input)

theorem readNats_eq_ok {error : ε} {width count : Nat} {input rest : Bytes}
    {numbers : {numbers : List Nat // numbers.length = count}} :
    readNats error width count input = .ok (numbers, rest) ↔
      input = numbers.1.flatMap (leBytes width) ++ rest ∧
        ∀ number ∈ numbers.1, number < 256 ^ width := by
  induction count generalizing input rest with
  | zero =>
      obtain ⟨numbers, empty⟩ := numbers
      obtain rfl := List.length_eq_zero_iff.mp empty
      simp [readNats]
  | succ count ih =>
      obtain ⟨numbers, length⟩ := numbers
      obtain ⟨number, numbers, rfl⟩ := List.exists_of_length_succ numbers length
      simp only [List.length_cons, Nat.add_right_cancel_iff] at length
      simp only [readNats, bind_eq_ok, Prod.exists, readNat_eq_ok, ih, pure_eq_ok,
        Except.ok.injEq, Prod.mk.injEq, Subtype.mk.injEq, List.cons.injEq, List.mem_cons,
        forall_eq_or_imp, List.flatMap_cons, List.append_assoc]
      constructor
      · rintro ⟨first, _, ⟨rfl, small⟩, others, _, ⟨rfl, each⟩, ⟨rfl, rfl⟩, rfl⟩
        exact ⟨rfl, small, each⟩
      · rintro ⟨rfl, small, each⟩
        exact ⟨number, _, ⟨rfl, small⟩, ⟨numbers, length⟩, rest, ⟨rfl, each⟩, ⟨rfl, rfl⟩, rfl⟩

end BlopDb.Lib
