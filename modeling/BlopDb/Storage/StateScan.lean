/-
# Lazy state scans

A state scan reads physical entries one at a time and stops at the first visible
value it finds.  The items of the whole scan are the walk over its remaining
entries; one call takes a prefix of them that ends in the version it returns.
-/

import BlopDb.Storage.MvccSpec

namespace BlopDb.Storage.Mvcc

open BlopDb.Lib

/-- What one call of an iterator did: the item it returned, the iterator it left
behind and the physical entries it read. -/
structure Pulled (σ ι : Type) where
  item : Option ι
  rest : σ
  read : List Entry

/-- The same call after earlier reads. -/
def Pulled.after {σ ι : Type} (pulled : Pulled σ ι) (read : List Entry) : Pulled σ ι :=
  ⟨pulled.item, pulled.rest, read ++ pulled.read⟩

/-! ## One table -/

/-- What a search for the next visible value did. -/
structure Advance where
  result : Except Error (Option Entry)
  selected : Option Bytes
  physical : List Entry
  read : List Entry

/-- The same search after one more read. -/
def Advance.after (advance : Advance) (entry : Entry) : Advance :=
  ⟨advance.result, advance.selected, advance.physical, entry :: advance.read⟩

/-- Read physical entries up to the next visible value. -/
def advance (table sequence : Nat) : Option Bytes → List Entry → Advance
  | selected, [] => ⟨.ok none, selected, [], []⟩
  | selected, entry :: rest =>
      match corruptInput (StateKey.decode entry.1), corruptInput (valuePayload entry.2) with
      | .error error, _ => ⟨.error error, selected, rest, [entry]⟩
      | .ok _, .error error => ⟨.error error, selected, rest, [entry]⟩
      | .ok key, .ok value =>
          if key.tableId ≠ table then
            ⟨.error (.corrupt "state scan crossed its table boundary"), selected, rest, [entry]⟩
          else if key.sequence > sequence ∨ selected = some key.key then
            (advance table sequence selected rest).after entry
          else
            match value with
            | some value => ⟨.ok (some (key.key, value)), some key.key, rest, [entry]⟩
            | none => (advance table sequence (some key.key) rest).after entry

/-- A scan of one table at a sequence, with the physical entries it has not read. -/
structure StateScan where
  physical : List Entry
  tableId : Nat
  sequence : Nat
  selectedKey : Option Bytes
  done : Bool

namespace StateScan

/-- Open a scan. -/
def start (view : View) (table sequence : Nat) (lower upper : Bound Bytes) : Except Error StateScan := do
  checkSnapshot table sequence
  checkBound checkUserKey lower
  checkBound checkUserKey upper
  let physical ← view.scan .state (.included (lowerKey table sequence lower))
    (.excluded (upperKey table upper))
  return ⟨physical, table, sequence, none, false⟩

/-- The next item of a scan. -/
def next (scan : StateScan) : Pulled StateScan (Except Error Entry) :=
  if scan.done then ⟨none, scan, []⟩
  else
    let advanced := advance scan.tableId scan.sequence scan.selectedKey scan.physical
    let rest : StateScan :=
      { scan with physical := advanced.physical, selectedKey := advanced.selected }
    match advanced.result with
    | .ok (some entry) => ⟨some (.ok entry), rest, advanced.read⟩
    | .ok none => ⟨none, { rest with done := true }, advanced.read⟩
    | .error error => ⟨some (.error error), { rest with done := true }, advanced.read⟩

/-- Everything a scan will still return. -/
def items (scan : StateScan) : List (Except Error Entry) :=
  if scan.done then [] else select scan.tableId scan.sequence scan.selectedKey scan.physical

end StateScan

/-- A scan lists the items of the iterator it opens. -/
theorem scan_eq_items (view : View) (table sequence : Nat) (lower upper : Bound Bytes) :
    scan view table sequence lower upper =
      (StateScan.start view table sequence lower upper).map StateScan.items := by
  simp only [scan, StateScan.start]
  cases checkSnapshot table sequence with
  | error error => rfl
  | ok _ =>
      cases checkBound checkUserKey lower with
      | error error => rfl
      | ok _ =>
          cases checkBound checkUserKey upper with
          | error error => rfl
          | ok _ =>
              cases view.scan .state (.included (lowerKey table sequence lower))
                  (.excluded (upperKey table upper)) <;> rfl

/-! ## What one call does -/

variable {table sequence : Nat}

/-- A search splits the walk at the value it finds. -/
theorem select_advance (selected : Option Bytes) (physical : List Entry) :
    select table sequence selected physical =
      match (advance table sequence selected physical).result with
      | .ok none => []
      | .ok (some entry) => .ok entry :: select table sequence
          (advance table sequence selected physical).selected
          (advance table sequence selected physical).physical
      | .error error => [.error error] := by
  induction physical generalizing selected with
  | nil => rfl
  | cons entry rest ih =>
      obtain ⟨encodedKey, encodedValue⟩ := entry
      simp only [select, advance]
      cases corruptInput (StateKey.decode encodedKey) with
      | error error => rfl
      | ok key =>
          cases corruptInput (valuePayload encodedValue) with
          | error error => rfl
          | ok value =>
              simp only
              by_cases crossed : key.tableId ≠ table
              · simp only [if_pos crossed]
              · by_cases skipped : key.sequence > sequence ∨ selected = some key.key
                · simp only [if_neg crossed, if_pos skipped]
                  exact ih selected
                · simp only [if_neg crossed, if_neg skipped]
                  cases value with
                  | some value => rfl
                  | none => exact ih (some key.key)

/-- A search reads a prefix of the entries and leaves the others. -/
theorem read_append_physical (selected : Option Bytes) (physical : List Entry) :
    (advance table sequence selected physical).read ++ (advance table sequence selected physical).physical =
      physical := by
  induction physical generalizing selected with
  | nil => rfl
  | cons entry rest ih =>
      simp only [advance]
      split
      · rfl
      · rfl
      · split_ifs
        · rfl
        · exact congrArg (entry :: ·) (ih selected)
        · split
          · rfl
          · exact congrArg (entry :: ·) (ih _)

/-- The last of these entries is a version of a key with a value. -/
def EndsIn (table : Nat) (key value : Bytes) (read : List Entry) : Prop :=
  ∃ front entry stored, read = front ++ [entry] ∧ Decodes table entry (key, stored, some value)

theorem EndsIn.after {key value : Bytes} {read : List Entry} (ends : EndsIn table key value read)
    (entry : Entry) : EndsIn table key value (entry :: read) := by
  obtain ⟨front, last, stored, rfl, decodes⟩ := ends
  exact ⟨entry :: front, last, stored, rfl, decodes⟩

theorem corruptInput_eq_ok {α : Type} {result : Except Error α} {value : α} :
    corruptInput result = .ok value ↔ result = .ok value := by
  cases result with
  | ok _ => rfl
  | error error => cases error <;> simp [corruptInput]

/-- The last entry a search reads is the version it returns. -/
theorem last_read {selected : Option Bytes} {physical : List Entry} {key value : Bytes}
    (found : (advance table sequence selected physical).result = .ok (some (key, value))) :
    EndsIn table key value (advance table sequence selected physical).read := by
  induction physical generalizing selected with
  | nil => cases found
  | cons entry rest ih =>
      simp only [advance] at found ⊢
      cases decodedKey : corruptInput (StateKey.decode entry.1) with
      | error error =>
          rw [decodedKey] at found
          cases found
      | ok stateKey =>
          cases decodedValue : corruptInput (valuePayload entry.2) with
          | error error =>
              rw [decodedKey, decodedValue] at found
              cases found
          | ok payload =>
              simp only [decodedKey, decodedValue] at found ⊢
              by_cases crossed : stateKey.tableId ≠ table
              · rw [if_pos crossed] at found
                cases found
              rw [if_neg crossed] at found ⊢
              by_cases skipped : stateKey.sequence > sequence ∨ selected = some stateKey.key
              · rw [if_pos skipped] at found ⊢
                exact (ih found).after entry
              · rw [if_neg skipped] at found ⊢
                cases payload with
                | none => exact (ih found).after entry
                | some payload =>
                    cases found
                    obtain ⟨tableId, key, stored⟩ := stateKey
                    cases not_not.mp crossed
                    exact ⟨[], entry, stored, rfl, corruptInput_eq_ok.mp decodedKey,
                      corruptInput_eq_ok.mp decodedValue⟩

/-- A call returns the first of the remaining items. -/
theorem StateScan.items_next (scan : StateScan) :
    scan.items = match scan.next.item with
      | none => []
      | some item => item :: scan.next.rest.items := by
  unfold StateScan.next StateScan.items
  by_cases isDone : scan.done
  · simp [isDone]
  · simp only [isDone, if_false, Bool.false_eq_true]
    rw [select_advance]
    split <;> simp_all

/-! ## What one call reads -/

/-- Every entry is a version of a key that is not above this one. -/
def ReadsUpTo (table : Nat) (key : Bytes) (read : List Entry) : Prop :=
  ∀ entry ∈ read, ∃ row, Decodes table entry row ∧ row.1 ≤ key

/-- A scan of an uncorrupted table whose remaining versions lie below an end. -/
structure StateScan.Within (table : Nat) (upper : Bound Bytes) (scan : StateScan) : Prop where
  ofTable : scan.tableId = table
  sorted : Increasing scan.physical
  below : ∀ entry ∈ scan.physical, ∃ row, Decodes table entry row ∧ upper.below row.1

/-- Physical order is the order of the keys. -/
theorem Decodes.key_le (bounded : table ≤ maxU64) {left right : Entry} {leftRow rightRow : Row}
    (leftDecodes : Decodes table left leftRow) (rightDecodes : Decodes table right rightRow)
    (before : left.1 < right.1) : leftRow.1 ≤ rightRow.1 := by
  obtain ⟨leftShape, leftValid⟩ := StateKey.decode_sound leftDecodes.1
  obtain ⟨rightShape, rightValid⟩ := StateKey.decode_sound rightDecodes.1
  rw [leftShape, rightShape] at before
  have ordered := (seekKey_lt_iff bounded bounded leftValid.sequence_lt.le rightValid.sequence_lt.le
    leftRow.1 rightRow.1).mp before
  rcases ordered with less | ⟨-, less | ⟨same, -⟩⟩
  · exact absurd less (lt_irrefl _)
  · exact less.le
  · exact same.le

namespace StateScan

variable {scan : StateScan} {upper : Bound Bytes}

/-- A call reads a prefix of the remaining entries. -/
theorem read_append_rest (scan : StateScan) : scan.next.read ++ scan.next.rest.physical = scan.physical := by
  unfold next
  split_ifs
  · rfl
  · have split := @read_append_physical scan.tableId scan.sequence scan.selectedKey scan.physical
    dsimp only
    split <;> exact split

theorem next_tableId (scan : StateScan) : scan.next.rest.tableId = scan.tableId := by
  unfold next
  split_ifs
  · rfl
  · dsimp only
    split <;> rfl

/-- A returned value is the last version that was read. -/
theorem endsIn_next {key value : Bytes} (returned : scan.next.item = some (.ok (key, value))) :
    EndsIn scan.tableId key value scan.next.read := by
  unfold next at returned ⊢
  split_ifs at returned ⊢
  dsimp only at returned ⊢
  cases found : (advance scan.tableId scan.sequence scan.selectedKey scan.physical).result with
  | error error =>
      rw [found] at returned
      cases returned
  | ok entry =>
      rw [found] at returned
      cases entry with
      | none => cases returned
      | some entry =>
          cases returned
          exact last_read found

theorem Within.rest (within : scan.Within table upper) : scan.next.rest.Within table upper := by
  have whole := scan.read_append_rest
  refine ⟨scan.next_tableId.trans within.ofTable, ?_, fun entry member => within.below entry ?_⟩
  · have sorted := within.sorted
    rw [Increasing, ← whole] at sorted
    exact (List.pairwise_append.mp sorted).2.1
  · rw [← whole]
    exact List.mem_append_right _ member

theorem Within.read_below (within : scan.Within table upper) :
    ∀ entry ∈ scan.next.read, ∃ row, Decodes table entry row ∧ upper.below row.1 := by
  intro entry member
  apply within.below
  rw [← scan.read_append_rest]
  exact List.mem_append_left _ member

/-- A call that returns a row reads no version beyond it. -/
theorem Within.readsUpTo (within : scan.Within table upper) (bounded : table ≤ maxU64) {key value : Bytes}
    (returned : scan.next.item = some (.ok (key, value))) : ReadsUpTo table key scan.next.read := by
  have ends := endsIn_next returned
  rw [within.ofTable] at ends
  obtain ⟨front, last, stored, shape, lastDecodes⟩ := ends
  have sorted := within.sorted
  rw [Increasing, ← scan.read_append_rest, shape] at sorted
  have before := (List.pairwise_append.mp (List.pairwise_append.mp sorted).1).2.2
  intro entry member
  obtain ⟨row, decodes, -⟩ := within.read_below entry member
  refine ⟨row, decodes, ?_⟩
  rw [shape] at member
  rcases List.mem_append.mp member with earlier | same
  · exact decodes.key_le bounded lastDecodes (before entry earlier last (List.mem_singleton_self last))
  · rw [List.mem_singleton.mp same] at decodes
    have keys := decodes.1
    rw [lastDecodes.1] at keys
    injection keys with keys
    injection keys with _ keys _
    exact keys.ge

/-- The scan of a range of an uncorrupted state. -/
theorem start_spec {view : View} (uncorrupted : Uncorrupted view) (positive : table ≠ 0)
    (bounded : table < maxU64) (snapshot : sequence < maxU64) {lower : Bound Bytes}
    (lowerShort : ShortBound lower) (upperShort : ShortBound upper) :
    ∃ opened, start view table sequence lower upper = .ok opened ∧ opened.Within table upper := by
  have atLower := length_lowerKey_le lowerShort table sequence
  have atUpper := length_upperKey_le upperShort table
  refine ⟨⟨scanned view table sequence lower upper, table, sequence, none, false⟩, ?_, rfl,
    (view.roots .state).increasing_range _ _, fun entry member => ?_⟩
  · simp only [start, checkSnapshot, View.scan, checkBound_of_short lowerShort,
      checkBound_of_short upperShort]
    rw [refuse_of_not _ (by simp [positive, bounded.ne]), refuse_of_not _ snapshot.ne]
    simp only [ok_bind, checkBound, boundKey, checkKey]
    rw [if_neg (by simpa using atLower), if_neg (by simpa using atUpper)]
    rfl
  · obtain ⟨-, row, decodes, -, below, -⟩ := (mem_scanned uncorrupted bounded snapshot).mp member
    exact ⟨row, decodes, below⟩

end StateScan

end BlopDb.Storage.Mvcc
