/-
# What merged reads return

On an uncorrupted state every item of a merged scan is a row: a base row that a
point read at the same sequence returns, or a private write.
-/

import BlopDb.Storage.MvccSpec
import BlopDb.Vm.Database

namespace BlopDb.Vm.Database

open BlopDb.Lib
open Storage (View maxU64)
open Storage.Mvcc (Uncorrupted Readable ShortBound)
open Storage.Encoding (maxKeyBytes)

variable {view : View} {table sequence : Nat}

/-- The table and sequence of reads that pass their input checks on an
uncorrupted state. -/
structure Intact (view : View) (table sequence : Nat) : Prop where
  /-- Every state entry decodes. -/
  uncorrupted : Uncorrupted view
  /-- The table is not reserved. -/
  table_pos : table ≠ 0
  /-- The table is not reserved. -/
  table_lt : table < maxU64
  /-- The sequence is not reserved. -/
  sequence_lt : sequence < maxU64

/-- A row of the base state. -/
def BaseRow (view : View) (table sequence : Nat) (key value : Bytes) : Prop :=
  Storage.Mvcc.get view table key sequence = .ok (some value)

/-- The items of a base scan are the base rows between its bounds. -/
theorem baseItems_spec (intact : Intact view table sequence) {lower upper : Bound Bytes}
    (lowerShort : ShortBound lower) (upperShort : ShortBound upper) :
    ∃ chosen, baseItems view table sequence lower upper = chosen.map .ok ∧
      Increasing chosen ∧ ∀ key value, (key, value) ∈ chosen ↔
        lower.above key ∧ upper.below key ∧ BaseRow view table sequence key value := by
  obtain ⟨uncorrupted, positive, bounded, snapshot⟩ := intact
  obtain ⟨chosen, scanned, rest⟩ :=
    Storage.Mvcc.scan_spec uncorrupted positive bounded snapshot lowerShort upperShort
  refine ⟨chosen, ?_, rest⟩
  simp only [baseItems, scanned, List.map_map]
  rfl

/-- Private writes with keys that pass the user-key ceiling. -/
def ShortKeys (writes : List (Address × Option Bytes)) : Prop :=
  ∀ entry ∈ writes, entry.1.key.length ≤ maxKeyBytes

theorem mem_continueWith {items next : List (Except Error Storage.Entry)}
    {item : Except Error Storage.Entry} (member : item ∈ continueWith items next) :
    item ∈ items ∨ item ∈ next := by
  unfold continueWith at member
  split at member
  · exact List.mem_append.mp member
  · exact .inl member

/-- A row of a merged scan: a base row or a private write. -/
def MergedRow (view : View) (table sequence : Nat) (writes : List (Address × Option Bytes))
    (key value : Bytes) : Prop :=
  BaseRow view table sequence key value ∨ ∃ entry ∈ writes, entry.1.key = key ∧ entry.2 = some value

theorem merge_rows (intact : Intact view table sequence) {lower upper : Bound Bytes}
    (lowerShort : ShortBound lower) (upperShort : ShortBound upper)
    {writes : List (Address × Option Bytes)} (short : ShortKeys writes)
    {item : Except Error Storage.Entry}
    (member : item ∈ merge view table sequence upper lower writes) :
    ∃ key value, item = .ok (key, value) ∧ MergedRow view table sequence writes key value := by
  have based {lower upper : Bound Bytes} (lowerShort : ShortBound lower)
      (upperShort : ShortBound upper) {item : Except Error Storage.Entry}
      (member : item ∈ baseItems view table sequence lower upper) :
      ∃ key value, item = .ok (key, value) ∧ BaseRow view table sequence key value := by
    obtain ⟨chosen, items, -, rows⟩ := baseItems_spec intact lowerShort upperShort
    rw [items, List.mem_map] at member
    obtain ⟨⟨key, value⟩, inChosen, rfl⟩ := member
    exact ⟨key, value, rfl, ((rows key value).mp inChosen).2.2⟩
  induction writes generalizing lower with
  | nil =>
      obtain ⟨key, value, same, row⟩ := based lowerShort upperShort member
      exact ⟨key, value, same, .inl row⟩
  | cons entry rest ih =>
      obtain ⟨address, change⟩ := entry
      have addressShort : ShortBound (.excluded address.key) := fun key same => by
        cases same
        exact short _ List.mem_cons_self
      rcases mem_continueWith member with before | after
      · split at before
        · simp at before
        · obtain ⟨key, value, same, row⟩ := based lowerShort addressShort before
          exact ⟨key, value, same, .inl row⟩
      · rcases List.mem_append.mp after with written | later
        · obtain ⟨value, put, rfl⟩ := List.mem_map.mp written
          exact ⟨address.key, value, rfl, .inr ⟨(address, change), List.mem_cons_self, rfl,
            Option.mem_toList.mp put⟩⟩
        · obtain ⟨key, value, same, row | ⟨entry, inRest, written⟩⟩ :=
            ih addressShort (fun entry inRest => short entry (List.mem_cons_of_mem _ inRest)) later
          · exact ⟨key, value, same, .inl row⟩
          · exact ⟨key, value, same, .inr ⟨entry, List.mem_cons_of_mem _ inRest, written⟩⟩

/-- The overlay range of a scan holds private writes of its table. -/
theorem table_of_mem_range {overlay : Overlay} {lower upper : Bound Bytes}
    {entry : Address × Option Bytes}
    (member : entry ∈ overlay.range (overlayLower table lower) (overlayUpper table upper)) :
    entry ∈ overlay.entries ∧ entry.1.table = table := by
  obtain ⟨stored, above, below⟩ := OrdMap.mem_range.mp member
  refine ⟨stored, le_antisymm ?_ ?_⟩
  · cases upper <;>
      simp only [overlayUpper, Bound.below, decide_eq_true_eq, Address.lt_iff, Address.le_iff,
        List.not_lt_nil, and_false, or_false] at below <;>
      omega
  · cases lower <;>
      simp only [overlayLower, Bound.above, decide_eq_true_eq, Address.lt_iff, Address.le_iff]
        at above <;>
      omega

/-! ## Two states with the same visible rows -/

/-- Two states with the same base rows have the same base scans. -/
theorem baseItems_congr {view' : View} (intact : Intact view table sequence)
    (intact' : Intact view' table sequence)
    (same : ∀ key, Storage.Mvcc.get view table key sequence =
      Storage.Mvcc.get view' table key sequence) (lower upper : Bound Bytes) :
    baseItems view table sequence lower upper = baseItems view' table sequence lower upper := by
  by_cases short : ShortBound lower ∧ ShortBound upper
  · obtain ⟨chosen, items, sorted, rows⟩ := baseItems_spec intact short.1 short.2
    obtain ⟨chosen', items', sorted', rows'⟩ := baseItems_spec intact' short.1 short.2
    rw [items, items', sorted.ext sorted' fun ⟨key, value⟩ => by
      rw [rows, rows', BaseRow, BaseRow, same]]
  · -- A bound above the key ceiling fails before either state is read.
    have fails (view : View) : Storage.Mvcc.scan view table sequence lower upper =
        .error (.invalidInput "user key exceeds 1,024 bytes") := by
      have long {bound : Bound Bytes} (h : ¬ ShortBound bound) :
          Storage.checkBound Storage.Mvcc.checkUserKey bound =
            .error (.invalidInput "user key exceeds 1,024 bytes") := by
        cases bound with
        | unbounded => exact absurd (fun key same => by cases same) h
        | included key | excluded key =>
            refine refuse_of _ ?_
            by_contra fits
            exact h fun other same => by
              cases same
              exact not_lt.mp fits
      simp only [Storage.Mvcc.scan, Storage.Mvcc.checkSnapshot]
      rw [refuse_of_not _ (by simp [intact.table_pos, intact.table_lt.ne]),
        refuse_of_not _ intact.sequence_lt.ne]
      by_cases lowerShort : ShortBound lower
      · rw [Storage.Mvcc.checkBound_of_short lowerShort, long fun h => short ⟨lowerShort, h⟩]
        rfl
      · rw [long lowerShort]
        rfl
    simp only [baseItems, fails]

theorem merge_congr {view' : View} {upper : Bound Bytes}
    (same : ∀ lower upper, baseItems view table sequence lower upper =
      baseItems view' table sequence lower upper) (lower : Bound Bytes)
    (writes : List (Address × Option Bytes)) :
    merge view table sequence upper lower writes = merge view' table sequence upper lower writes := by
  induction writes generalizing lower with
  | nil => exact same lower upper
  | cons entry rest ih => simp only [merge, same, ih]

end BlopDb.Vm.Database
