/-
# The order of physical state keys

Physical keys compare like their contents: by table, then by user key, then by
descending sequence.  Every bound of a state scan is characterized by the
addresses and versions it separates.
-/

import BlopDb.Storage.Mvcc

namespace BlopDb.Storage.Mvcc

open BlopDb.Lib
open Encoding (escapeInto unescape unescape_escapeInto)

/-! ## Lexicographic comparison -/

/-- Prefixes of equal length decide a comparison unless they are equal. -/
theorem append_lt_append {a a' : Bytes} (length : a.length = a'.length) (x x' : Bytes) :
    a ++ x < a' ++ x' ↔ a < a' ∨ a = a' ∧ x < x' := by
  induction a generalizing a' with
  | nil =>
      cases a' with
      | nil => simp
      | cons => simp at length
  | cons byte a ih =>
      cases a' with
      | nil => simp at length
      | cons byte' a' =>
          simp only [List.length_cons, Nat.add_right_cancel_iff] at length
          simp only [List.cons_append, List.cons_lt_cons_iff, ih length, List.cons.injEq]
          tauto

/-- The number an octet list denotes when its head is the most significant. -/
private theorem beNat_cons (byte : UInt8) (bytes : Bytes) :
    beNat (byte :: bytes) = byte.toNat * 256 ^ bytes.length + beNat bytes := by
  have split (front : Bytes) (last : UInt8) :
      leNat (front ++ [last]) = leNat front + 256 ^ front.length * last.toNat := by
    induction front with
    | nil => simp [leNat]
    | cons head front ih =>
        simp only [List.cons_append, leNat, ih, List.length_cons, pow_succ]
        ring
  simp only [beNat, List.reverse_cons, split, List.length_reverse]
  ring

/-- Big-endian integers of one width compare like the integers. -/
theorem lt_iff_beNat_lt {a b : Bytes} (length : a.length = b.length) :
    a < b ↔ beNat a < beNat b := by
  induction a generalizing b with
  | nil =>
      cases b with
      | nil => simp
      | cons => simp at length
  | cons x a ih =>
      cases b with
      | nil => simp at length
      | cons y b =>
          simp only [List.length_cons, Nat.add_right_cancel_iff] at length
          have ha := beNat_lt a
          have hb := beNat_lt b
          rw [List.cons_lt_cons_iff, ih length, beNat_cons, beNat_cons, length]
          rw [length] at ha
          rw [UInt8.lt_iff_toNat_lt, ← UInt8.toNat_inj]
          rcases lt_trichotomy x.toNat y.toNat with below | same | above
          · have grow : (x.toNat + 1) * 256 ^ b.length ≤ y.toNat * 256 ^ b.length :=
              Nat.mul_le_mul_right _ below
            simp only [below, true_or, true_iff]
            rw [Nat.add_mul, Nat.one_mul] at grow
            omega
          · simp [same]
          · have grow : (y.toNat + 1) * 256 ^ b.length ≤ x.toNat * 256 ^ b.length :=
              Nat.mul_le_mul_right _ above
            rw [Nat.add_mul, Nat.one_mul] at grow
            constructor
            · rintro (below | ⟨same, -⟩) <;> omega
            · intro less
              omega

theorem beBytes_lt_iff {width m n : Nat} (hm : m < 256 ^ width) (hn : n < 256 ^ width) :
    beBytes width m < beBytes width n ↔ m < n := by
  rw [lt_iff_beNat_lt (by simp), beNat_beBytes width m hm, beNat_beBytes width n hn]

theorem beBytes_eq_iff {width m n : Nat} (hm : m < 256 ^ width) (hn : n < 256 ^ width) :
    beBytes width m = beBytes width n ↔ m = n :=
  ⟨beBytes_inj hm hn, fun h => h ▸ rfl⟩

/-- Escape frames compare like their contents, and equal frames leave the
decision to what follows. -/
theorem escapeInto_lt_iff (key key' x x' : Bytes) :
    escapeInto key ++ x < escapeInto key' ++ x' ↔ key < key' ∨ key = key' ∧ x < x' := by
  induction key generalizing key' with
  | nil =>
      cases key' with
      | nil => simp [escapeInto]
      | cons byte key' =>
          by_cases zero : byte = 0
          · subst zero
            simp [escapeInto, List.cons_lt_cons_iff]
          · have pos : (0 : UInt8) < byte :=
              lt_of_le_of_ne (UInt8.le_iff_toNat_le.mpr (Nat.zero_le _)) (Ne.symm zero)
            simp [escapeInto, zero, List.cons_lt_cons_iff, pos]
  | cons byte key ih =>
      cases key' with
      | nil =>
          by_cases zero : byte = 0
          · subst zero
            simp [escapeInto, List.cons_lt_cons_iff]
          · have pos : ¬ byte < 0 := not_lt.mpr (UInt8.le_iff_toNat_le.mpr (Nat.zero_le _))
            simp [escapeInto, zero, List.cons_lt_cons_iff, pos]
      | cons byte' key' =>
          have zeroLeast (b : UInt8) : ¬ b < 0 :=
            not_lt.mpr (UInt8.le_iff_toNat_le.mpr (Nat.zero_le _))
          by_cases zero : byte = 0 <;> by_cases zero' : byte' = 0
          · subst zero zero'
            simp [escapeInto, ih]
          · subst zero
            have pos : (0 : UInt8) < byte' := lt_of_le_of_ne (not_lt.mp (zeroLeast _)) (Ne.symm zero')
            simp [escapeInto, zero', List.cons_lt_cons_iff, pos]
          · subst zero'
            simp [escapeInto, zero, List.cons_lt_cons_iff, zeroLeast]
          · simp only [escapeInto, zero, zero', if_false, List.cons_append, List.cons_lt_cons_iff, ih,
              List.cons.injEq, and_or_left, and_assoc, or_assoc]

/-- The frame that follows every frame of a key and precedes those of later
keys. -/
def escapeAfter (key : Bytes) : Bytes := (escapeInto key).dropLast ++ [1]

theorem escapeAfter_cons (byte : UInt8) (key : Bytes) :
    escapeAfter (byte :: key) =
      if byte = 0 then byte :: 0xff :: escapeAfter key else byte :: escapeAfter key := by
  have nonempty : escapeInto key ≠ [] := by
    cases key with
    | nil => simp [escapeInto]
    | cons b k =>
        simp only [escapeInto]
        split_ifs <;> simp
  unfold escapeAfter
  rw [escapeInto]
  split_ifs
  · rw [List.dropLast_cons_of_ne_nil (by simp), List.dropLast_cons_of_ne_nil nonempty]
    rfl
  · rw [List.dropLast_cons_of_ne_nil nonempty]
    rfl

/-- A frame precedes the end of a key's frames exactly when it belongs to that
key or an earlier one. -/
theorem escapeInto_lt_escapeAfter_iff (key' key x : Bytes) :
    escapeInto key' ++ x < escapeAfter key ↔ key' ≤ key := by
  have zeroLeast (b : UInt8) : ¬ b < 0 := not_lt.mpr (UInt8.le_iff_toNat_le.mpr (Nat.zero_le _))
  rw [le_iff_lt_or_eq]
  induction key' generalizing key with
  | nil =>
      cases key with
      | nil => simp [escapeInto, escapeAfter, List.cons_lt_cons_iff]
      | cons byte key =>
          rw [escapeAfter_cons]
          by_cases zero : byte = 0
          · subst zero
            simp [escapeInto, List.cons_lt_cons_iff]
          · have pos : (0 : UInt8) < byte := lt_of_le_of_ne (not_lt.mp (zeroLeast _)) (Ne.symm zero)
            simp [escapeInto, zero, List.cons_lt_cons_iff, pos]
  | cons byte' key' ih =>
      cases key with
      | nil =>
          by_cases zero : byte' = 0
          · subst zero
            simp [escapeInto, escapeAfter, List.cons_lt_cons_iff]
          · simp [escapeInto, escapeAfter, zero, List.cons_lt_cons_iff, zeroLeast]
      | cons byte key =>
          rw [escapeAfter_cons]
          by_cases zero : byte = 0 <;> by_cases zero' : byte' = 0
          · subst zero zero'
            simp [escapeInto, ih]
          · subst zero
            simp [escapeInto, zero', List.cons_lt_cons_iff, zeroLeast]
          · subst zero'
            have pos : (0 : UInt8) < byte := lt_of_le_of_ne (not_lt.mp (zeroLeast _)) (Ne.symm zero)
            simp [escapeInto, zero, List.cons_lt_cons_iff, pos]
          · simp only [escapeInto, zero, zero', if_false, List.cons_append,
              List.cons_lt_cons_iff, ih, List.cons.injEq, and_or_left, or_assoc]

/-- An escape frame never is a proper part of another. -/
theorem escapeInto_append_inj {key key' x x' : Bytes}
    (same : escapeInto key ++ x = escapeInto key' ++ x') : key = key' ∧ x = x' := by
  have first := unescape_escapeInto key x
  rw [same, unescape_escapeInto] at first
  cases first
  exact ⟨rfl, List.append_cancel_left same⟩

/-! ## Physical keys -/

theorem complement_le (number : Nat) : complement number ≤ maxU64 := Nat.sub_le _ _

theorem complement_complement {number : Nat} (small : number ≤ maxU64) :
    complement (complement number) = number := by
  unfold complement
  omega

theorem complement_lt_iff {m n : Nat} (hm : m ≤ maxU64) (hn : n ≤ maxU64) :
    complement m < complement n ↔ n < m := by
  unfold complement
  omega

/-- Sequences and table IDs fit the width of their fields. -/
theorem lt_width {number : Nat} (small : number ≤ maxU64) : number < 256 ^ 8 := by
  unfold maxU64 at small
  omega

@[simp]
theorem length_seekKey (table : Nat) (key : Bytes) (sequence : Nat) :
    (seekKey table key sequence).length = (addressPrefix table key).length + 8 := by
  simp [seekKey]

theorem addressPrefix_append_lt {table table' : Nat} (ht : table ≤ maxU64) (ht' : table' ≤ maxU64)
    (key key' x x' : Bytes) :
    addressPrefix table key ++ x < addressPrefix table' key' ++ x' ↔
      table < table' ∨ table = table' ∧ (key < key' ∨ key = key' ∧ x < x') := by
  unfold addressPrefix
  rw [List.append_assoc, List.append_assoc, append_lt_append (by simp), escapeInto_lt_iff,
    beBytes_lt_iff (lt_width ht) (lt_width ht'), beBytes_eq_iff (lt_width ht) (lt_width ht')]

theorem addressPrefix_append_inj {table table' : Nat} (ht : table ≤ maxU64)
    (ht' : table' ≤ maxU64) {key key' x x' : Bytes}
    (same : addressPrefix table key ++ x = addressPrefix table' key' ++ x') :
    table = table' ∧ key = key' ∧ x = x' := by
  unfold addressPrefix at same
  rw [List.append_assoc, List.append_assoc] at same
  obtain ⟨tables, frames⟩ := List.append_inj same (by simp)
  obtain ⟨keys, rests⟩ := escapeInto_append_inj frames
  exact ⟨beBytes_inj (lt_width ht) (lt_width ht') tables, keys, rests⟩

/-- Physical keys compare by table, then by user key, then by descending
sequence. -/
theorem seekKey_lt_iff {table table' sequence sequence' : Nat} (ht : table ≤ maxU64)
    (ht' : table' ≤ maxU64) (hs : sequence ≤ maxU64) (hs' : sequence' ≤ maxU64)
    (key key' : Bytes) :
    seekKey table key sequence < seekKey table' key' sequence' ↔
      table < table' ∨ table = table' ∧ (key < key' ∨ key = key' ∧ sequence' < sequence) := by
  unfold seekKey
  rw [addressPrefix_append_lt ht ht',
    beBytes_lt_iff (lt_width (complement_le _)) (lt_width (complement_le _)),
    complement_lt_iff hs hs']

/-- A physical key determines its table, its user key and any sequence that is
not reserved. -/
theorem seekKey_inj {table table' sequence sequence' : Nat} (ht : table ≤ maxU64)
    (ht' : table' ≤ maxU64) (hs' : sequence' < maxU64) {key key' : Bytes}
    (same : seekKey table key sequence = seekKey table' key' sequence') :
    table = table' ∧ key = key' ∧ sequence = sequence' := by
  obtain ⟨tables, keys, suffixes⟩ := addressPrefix_append_inj ht ht' same
  have := beBytes_inj (lt_width (complement_le _)) (lt_width (complement_le _)) suffixes
  refine ⟨tables, keys, ?_⟩
  unfold complement at this
  omega

theorem afterKey_eq (table : Nat) (key : Bytes) :
    afterKey table key = beBytes 8 table ++ escapeAfter key := by
  have nonempty : escapeInto key ≠ [] := by
    intro empty
    have := unescape_escapeInto key []
    simp [empty, unescape] at this
  unfold afterKey addressPrefix escapeAfter
  rw [List.dropLast_append_of_ne_nil nonempty, List.append_assoc]

/-- A version precedes the end of an address's versions exactly when its address
does not come later. -/
theorem seekKey_lt_afterKey_iff {table table' : Nat} (ht : table ≤ maxU64)
    (ht' : table' ≤ maxU64) (key key' : Bytes) (sequence : Nat) :
    seekKey table key sequence < afterKey table' key' ↔
      table < table' ∨ table = table' ∧ key ≤ key' := by
  unfold seekKey addressPrefix
  rw [afterKey_eq, List.append_assoc, append_lt_append (by simp), escapeInto_lt_escapeAfter_iff,
    beBytes_lt_iff (lt_width ht) (lt_width ht'), beBytes_eq_iff (lt_width ht) (lt_width ht')]

theorem seekKey_lt_addressPrefix_iff {table table' : Nat} (ht : table ≤ maxU64)
    (ht' : table' ≤ maxU64) (key key' : Bytes) (sequence : Nat) :
    seekKey table key sequence < addressPrefix table' key' ↔
      table < table' ∨ table = table' ∧ key < key' := by
  have := addressPrefix_append_lt ht ht' key key' (beBytes 8 (complement sequence)) []
  rw [List.append_nil] at this
  unfold seekKey
  rw [this]
  simp

theorem seekKey_lt_table_iff {table table' : Nat} (ht : table ≤ maxU64) (ht' : table' ≤ maxU64)
    (key : Bytes) (sequence : Nat) :
    seekKey table key sequence < beBytes 8 table' ↔ table < table' := by
  have widths : (beBytes 8 table).length = (beBytes 8 table').length := by simp
  have := append_lt_append widths (escapeInto key ++ beBytes 8 (complement sequence)) []
  rw [List.append_nil, ← List.append_assoc] at this
  unfold seekKey addressPrefix
  rw [this, beBytes_lt_iff (lt_width ht) (lt_width ht')]
  simp

/-- A version is at or above the start of a range exactly when its address is
in a later table, or its key is not below the range; at an included key the
versions newer than the snapshot are already left out. -/
theorem lowerKey_le_iff {table table' sequence sequence' : Nat} (ht : table ≤ maxU64)
    (ht' : table' ≤ maxU64) (hs : sequence ≤ maxU64) (hs' : sequence' ≤ maxU64)
    (lower : Bound Bytes) (key : Bytes) :
    lowerKey table sequence lower ≤ seekKey table' key sequence' ↔
      table < table' ∨ table = table' ∧ lower.above key ∧
        (lower = .included key → sequence' ≤ sequence) := by
  rw [← not_lt]
  cases lower with
  | unbounded =>
      rw [lowerKey, seekKey_lt_table_iff ht' ht]
      simp [Bound.above, le_iff_lt_or_eq]
  | included start =>
      rw [lowerKey, seekKey_lt_iff ht' ht hs' hs]
      simp only [Bound.above, Bound.included.injEq, decide_eq_true_eq]
      rcases lt_trichotomy table table' with below | rfl | above
      · simp [below, below.ne', below.le]
      · rcases lt_trichotomy start key with less | rfl | greater
        · simp [less.ne, less.ne', less.le, not_lt.mpr less.le]
        · simp
        · simp [greater, not_le.mpr greater]
      · simp [above, above.ne', not_lt.mpr above.le]
  | excluded start =>
      rw [lowerKey, seekKey_lt_afterKey_iff ht' ht]
      simp only [Bound.above, decide_eq_true_eq, reduceCtorEq, false_implies, and_true]
      rcases lt_trichotomy table table' with below | rfl | above
      · simp [below, below.ne', below.le]
      · simp
      · simp [above, above.ne', not_lt.mpr above.le]

/-- A version is below the end of a range exactly when its address is in an
earlier table, or its key is not beyond the range. -/
theorem lt_upperKey_iff {table table' sequence' : Nat} (ht : table < maxU64)
    (ht' : table' ≤ maxU64) (upper : Bound Bytes) (key : Bytes) :
    seekKey table' key sequence' < upperKey table upper ↔
      table' < table ∨ table' = table ∧ upper.below key := by
  cases upper with
  | unbounded =>
      rw [upperKey, seekKey_lt_table_iff ht' (by omega)]
      simp [Bound.below, le_iff_lt_or_eq]
  | included stop =>
      rw [upperKey, seekKey_lt_afterKey_iff ht' ht.le]
      simp [Bound.below]
  | excluded stop =>
      rw [upperKey, seekKey_lt_addressPrefix_iff ht' ht.le]
      simp [Bound.below]

end BlopDb.Storage.Mvcc
