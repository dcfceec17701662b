/-
# Merged scans

A merged scan of an uncorrupted state lists, in increasing key order, exactly the
keys of its range that a merged point read maps to a value.  The iterator splits the
base range at the private writes and opens each part when it gets there, so taking
some rows never reads a base row beyond the last one taken.
-/

import BlopDb.Vm.DatabaseSpec

namespace BlopDb.Vm.Database

open BlopDb.Lib
open Storage (View maxU64)
open Storage.Mvcc (Uncorrupted ShortBound Decodes)
open Storage.Encoding (maxKeyBytes)

variable {view : View} {table sequence : Nat}

/-! ## Rows -/

/-- What a transaction sees under a key, from its private writes or else the base
state. -/
def Visible (view : View) (table sequence : Nat) (writes : List (Address × Option Bytes)) (key value : Bytes) :
    Prop :=
  lookupEntry ⟨table, key⟩ writes = some (some value) ∨
    lookupEntry ⟨table, key⟩ writes = none ∧ BaseRow view table sequence key value

/-- Private writes of a table inside a range, in key order. -/
structure Between (table : Nat) (lower upper : Bound Bytes) (writes : List (Address × Option Bytes)) :
    Prop where
  sorted : Increasing writes
  table : ∀ entry ∈ writes, entry.1.table = table
  above : ∀ entry ∈ writes, lower.above entry.1.key
  below : ∀ entry ∈ writes, upper.below entry.1.key

theorem Between.tail {lower upper : Bound Bytes} {address : Address} {change : Option Bytes}
    {writes : List (Address × Option Bytes)} (between : Between table lower upper ((address, change) :: writes)) :
    Between table (.excluded address.key) upper writes := by
  obtain ⟨later, sorted⟩ := List.pairwise_cons.mp between.sorted
  have isTable := between.table _ List.mem_cons_self
  refine ⟨sorted, fun entry member => between.table entry (List.mem_cons_of_mem _ member), ?_,
    fun entry member => between.below entry (List.mem_cons_of_mem _ member)⟩
  intro entry member
  have less := later entry member
  have same := between.table entry (List.mem_cons_of_mem _ member)
  rw [Address.lt_iff] at less
  simp only at less isTable
  simp only [Bound.above, decide_eq_true_eq]
  rcases less with below | ⟨-, below⟩
  · omega
  · exact below

theorem above_excluded {start key : Bytes} : (Bound.excluded start).above key ↔ start < key := by
  simp only [Bound.above, decide_eq_true_eq]

theorem above_of_lt {lower : Bound Bytes} {key other : Bytes} (above : lower.above key) (less : key < other) :
    lower.above other := by
  cases lower with
  | unbounded => rfl
  | included start =>
      simp only [Bound.above, decide_eq_true_eq] at above ⊢
      exact above.trans less.le
  | excluded start =>
      simp only [Bound.above, decide_eq_true_eq] at above ⊢
      exact above.trans less

theorem below_of_lt {upper : Bound Bytes} {key other : Bytes} (below : upper.below other) (less : key < other) :
    upper.below key := by
  cases upper with
  | unbounded => rfl
  | included stop =>
      simp only [Bound.below, decide_eq_true_eq] at below ⊢
      exact less.le.trans below
  | excluded stop =>
      simp only [Bound.below, decide_eq_true_eq] at below ⊢
      exact less.trans below

/-- An empty gap has no keys. -/
theorem gapEmpty_iff {lower : Bound Bytes} {key other : Bytes} (empty : gapEmpty lower key = true)
    (above : lower.above other) : ¬ other < key := by
  cases lower with
  | unbounded =>
      simp only [gapEmpty, decide_eq_true_eq] at empty
      rw [empty]
      exact List.not_lt_nil other
  | included start =>
      simp only [gapEmpty, ge_iff_le, decide_eq_true_eq] at empty
      simp only [Bound.above, decide_eq_true_eq] at above
      exact not_lt.mpr (empty.trans above)
  | excluded start =>
      simp only [gapEmpty, ge_iff_le, decide_eq_true_eq] at empty
      simp only [Bound.above, decide_eq_true_eq] at above
      exact not_lt.mpr (empty.trans above.le)

theorem continueWith_ok (rows : List Storage.Entry) (next : List (Except Error Storage.Entry)) :
    continueWith (rows.map .ok) next = rows.map .ok ++ next := by
  rw [continueWith, if_pos (by simp [Except.isOk, Except.toBool])]

/-- A merged range lists exactly the rows that are visible in it. -/
theorem merge_spec (intact : Intact view table sequence) {upper : Bound Bytes} (upperShort : ShortBound upper)
    {lower : Bound Bytes} (lowerShort : ShortBound lower) {writes : List (Address × Option Bytes)}
    (short : ShortKeys writes) (between : Between table lower upper writes) :
    ∃ chosen, merge view table sequence upper lower writes = chosen.map .ok ∧ Increasing chosen ∧
      ∀ key value, (key, value) ∈ chosen ↔ lower.above key ∧ upper.below key ∧
        Visible view table sequence writes key value := by
  induction writes generalizing lower with
  | nil =>
      obtain ⟨chosen, items, sorted, rows⟩ := baseItems_spec intact lowerShort upperShort
      refine ⟨chosen, items, sorted, fun key value => ?_⟩
      rw [rows]
      simp [Visible, lookupEntry]
  | cons entry rest ih =>
      obtain ⟨address, change⟩ := entry
      have isTable : address.table = table := between.table _ List.mem_cons_self
      have within : lower.above address.key := between.above _ List.mem_cons_self
      have inside : upper.below address.key := between.below _ List.mem_cons_self
      have addressShort : ShortBound (.excluded address.key) := by
        intro key same
        cases same
        exact short _ List.mem_cons_self
      obtain ⟨later, laterItems, laterSorted, laterRows⟩ := ih addressShort
        (fun entry member => short entry (List.mem_cons_of_mem _ member)) between.tail
      -- the base rows before the private write
      obtain ⟨gap, gapItems, gapSorted, gapRows⟩ : ∃ gap : List Storage.Entry,
          (if gapEmpty lower address.key then []
            else baseItems view table sequence lower (.excluded address.key)) = gap.map .ok ∧
          Increasing gap ∧ ∀ key value, (key, value) ∈ gap ↔
            lower.above key ∧ key < address.key ∧ BaseRow view table sequence key value := by
        by_cases empty : gapEmpty lower address.key
        · refine ⟨[], by simp [empty], List.Pairwise.nil, fun key value => ?_⟩
          refine iff_of_false (by simp) ?_
          rintro ⟨above, less, -⟩
          exact gapEmpty_iff empty above less
        · obtain ⟨gap, items, sorted, rows⟩ := baseItems_spec intact lowerShort addressShort
          refine ⟨gap, by rw [if_neg empty, items], sorted, fun key value => ?_⟩
          rw [rows]
          simp [Bound.below]
      refine ⟨gap ++ ((change.toList.map fun value => (address.key, value)) ++ later), ?_, ?_, ?_⟩
      · simp only [merge]
        rw [gapItems, continueWith_ok, laterItems]
        simp
      · apply List.pairwise_append.mpr
        refine ⟨gapSorted, ?_, ?_⟩
        · apply List.pairwise_append.mpr
          refine ⟨?_, laterSorted, ?_⟩
          · cases change <;> simp
          · intro first isFirst second isSecond
            obtain ⟨value, -, rfl⟩ := List.mem_map.mp isFirst
            have above := ((laterRows second.1 second.2).mp isSecond).1
            simpa [Bound.above] using above
        · intro first isFirst second isSecond
          have less := ((gapRows first.1 first.2).mp isFirst).2.1
          rcases List.mem_append.mp isSecond with written | after
          · obtain ⟨value, -, rfl⟩ := List.mem_map.mp written
            exact less
          · have above := ((laterRows second.1 second.2).mp after).1
            simp only [Bound.above, decide_eq_true_eq] at above
            exact less.trans above
      · intro key value
        have found : lookupEntry ⟨table, key⟩ ((address, change) :: rest) =
            if address.key = key then some change else lookupEntry ⟨table, key⟩ rest := by
          obtain ⟨table', key'⟩ := address
          cases isTable
          simp [lookupEntry]
        have absent : key ≤ address.key → lookupEntry (⟨table, key⟩ : Address) rest = none := by
          intro le
          cases present : lookupEntry (⟨table, key⟩ : Address) rest with
          | none => rfl
          | some other =>
              have member := (between.tail.sorted.lookupEntry_eq_some).mp present
              have above := between.tail.above _ member
              simp only [Bound.above, decide_eq_true_eq] at above
              exact absurd le (not_le.mpr above)
        simp only [List.mem_append, gapRows, laterRows, Visible, found, List.mem_map, Prod.mk.injEq,
          Option.mem_toList, above_excluded]
        rcases lt_trichotomy key address.key with less | same | greater
        · simp only [less, less.ne', if_false, absent less.le, not_lt.mpr less.le, true_and, false_and,
            or_false, and_false, exists_false, reduceCtorEq, false_or]
          constructor
          · rintro ⟨above, row⟩
            exact ⟨above, below_of_lt inside less, row⟩
          · rintro ⟨above, -, row⟩
            exact ⟨above, row⟩
        · subst same
          simp only [lt_irrefl, if_true, within, inside, true_and, false_and, and_false, false_or, or_false,
            reduceCtorEq, Option.some.injEq]
          simp
        · simp only [not_lt.mpr greater.le, greater.ne, greater, if_false, false_and, and_false, false_or,
            true_and, exists_false, above_of_lt within greater]

/-! ## Whole scans -/

/-- Two ends that an instruction hands to a scan: short keys in order, and one key
only if both ends include it. -/
structure AdmittedRange (lower upper : Bound Bytes) : Prop where
  lowerShort : ShortBound lower
  upperShort : ShortBound upper
  ordered : ∀ start ∈ Storage.boundKey lower, ∀ stop ∈ Storage.boundKey upper, start ≤ stop
  single : ∀ key ∈ Storage.boundKey lower, key ∈ Storage.boundKey upper →
    lower = .included key ∧ upper = .included key

variable {lower upper : Bound Bytes} {overlay : Overlay}

/-- The overlay range of admitted ends does not panic. -/
theorem AdmittedRange.not_inverted (admitted : AdmittedRange lower upper) :
    inverted (overlayLower table lower) (overlayUpper table upper) = false := by
  obtain ⟨-, -, ordered, single⟩ := admitted
  cases lower <;> cases upper <;>
    simp only [overlayLower, overlayUpper, inverted, gt_iff_lt, ge_iff_le, decide_eq_false_iff_not,
      Address.lt_iff, Address.le_iff, lt_irrefl, false_or, true_and, not_or, not_lt, not_le, not_and,
      List.not_lt_nil, not_false_eq_true, implies_true, and_true]
  case included.included start stop => exact ordered start rfl stop rfl
  case included.excluded start stop => exact ordered start rfl stop rfl
  case excluded.included start stop => exact ordered start rfl stop rfl
  case excluded.excluded start stop =>
    refine lt_of_le_of_ne (ordered start rfl stop rfl) ?_
    rintro rfl
    cases (single start rfl rfl).1
  all_goals omega

/-- Private writes of a table have short keys. -/
def ShortWrites (table : Nat) (overlay : Overlay) : Prop :=
  ∀ entry ∈ overlay.entries, entry.1.table = table → entry.1.key.length ≤ maxKeyBytes

theorem overlayLower_above {address : Address} (same : address.table = table) :
    (overlayLower table lower).above address = lower.above address.key := by
  obtain ⟨table', key⟩ := address
  cases same
  cases lower <;>
    simp [overlayLower, Bound.above, Address.lt_iff, Address.le_iff, not_lt.mp (List.not_lt_nil key)]

theorem overlayUpper_below {address : Address} (same : address.table = table) :
    (overlayUpper table upper).below address = upper.below address.key := by
  obtain ⟨table', key⟩ := address
  cases same
  cases upper <;> simp [overlayUpper, Bound.below, Address.lt_iff, Address.le_iff]

theorem range_between (table : Nat) (lower upper : Bound Bytes) (overlay : Overlay) :
    Between table lower upper (overlay.range (overlayLower table lower) (overlayUpper table upper)) := by
  refine ⟨overlay.increasing_range _ _, fun entry member => (table_of_mem_range member).2, ?_, ?_⟩
  · intro entry member
    have above := (OrdMap.mem_range.mp member).2.1
    rwa [overlayLower_above (table_of_mem_range member).2] at above
  · intro entry member
    have below := (OrdMap.mem_range.mp member).2.2
    rwa [overlayUpper_below (table_of_mem_range member).2] at below

/-- A private write inside the range is found there. -/
theorem lookup_range {key : Bytes} (above : lower.above key) (below : upper.below key) :
    lookupEntry ⟨table, key⟩ (overlay.range (overlayLower table lower) (overlayUpper table upper)) =
      overlay.find? ⟨table, key⟩ := by
  apply Option.ext
  intro change
  rw [(overlay.increasing_range _ _).lookupEntry_eq_some, OrdMap.find?_eq_some, OrdMap.mem_range]
  simp [overlayLower_above, overlayUpper_below, above, below]

/-- A row is visible exactly when a merged point read returns its value. -/
theorem visible_iff {key value : Bytes} (above : lower.above key) (below : upper.below key) :
    Visible view table sequence
        (overlay.range (overlayLower table lower) (overlayUpper table upper)) key value ↔
      get view table key sequence overlay = .ok (some value) := by
  rw [Visible, lookup_range above below, get]
  cases overlay.find? ⟨table, key⟩ with
  | some change => simp
  | none => simp [BaseRow, mapError_eq_ok]

theorem checkEndpoint_of_short {bound : Bound Bytes} (short : ShortBound bound) :
    checkEndpoint bound = .ok () := by
  apply refuse_of_not
  cases bound with
  | unbounded => simp [Storage.boundKey]
  | included key | excluded key => simpa [Storage.boundKey, maxKeyBytes] using short key rfl

/-- The merge of a table's range lists exactly the keys that a merged point read maps
to a value. -/
theorem merge_range_spec (intact : Intact view table sequence) (admitted : AdmittedRange lower upper)
    (short : ShortWrites table overlay) :
    ∃ rows, merge view table sequence upper lower
        (overlay.range (overlayLower table lower) (overlayUpper table upper)) = rows.map .ok ∧
      Increasing rows ∧ ∀ key value, (key, value) ∈ rows ↔ lower.above key ∧ upper.below key ∧
        get view table key sequence overlay = .ok (some value) := by
  have shortKeys : ShortKeys (overlay.range (overlayLower table lower) (overlayUpper table upper)) := by
    intro entry member
    obtain ⟨stored, isTable⟩ := table_of_mem_range member
    exact short entry stored isTable
  obtain ⟨rows, items, sorted, members⟩ := merge_spec intact admitted.upperShort admitted.lowerShort
    shortKeys (range_between table lower upper overlay)
  refine ⟨rows, items, sorted, fun key value => ?_⟩
  rw [members]
  exact and_congr_right fun above => and_congr_right fun below => visible_iff above below

end BlopDb.Vm.Database
