/-
# Versioned reads of a view

The reads of the state tree through pages.  A point read takes the cell that a
seek locates.  A scan walks a physical scan lazily and returns the first visible
version of each key.  On a view that stands for maps both are the reads of the
maps.
-/

import BlopDb.Storage.MvccSpec
import BlopDb.Storage.PageView

namespace BlopDb.Storage

open BlopDb.Lib
open Mvcc (StateKey addressPrefix afterKey checkSnapshot checkUserKey complement corruptInput lowerKey
  seekKey select upperKey valuePayload)

/-! ## Walking a physical scan -/

/-- Fold over the entries of a scan until an error.  The fuel exceeds the number
of its steps. -/
def BTree.Scan.forEach {ε σ : Type} (into : Error → ε) (body : σ → Entry → Except (Fault ε) σ) :
    Nat → BTree.Scan → σ → Except (Fault ε) σ
  | 0, _, _ => throw .panic
  | fuel + 1, scan, state =>
      match scan.step with
      | (none, _) => return state
      | (some item, scan) => do
          let entry ← relay into item
          let state ← body state entry
          scan.forEach into body fuel state

theorem BTree.Scan.Yields.forEach {ε σ : Type} {into : Error → ε}
    {body : σ → Entry → Except (Fault ε) σ} {scan : BTree.Scan}
    {items : List (Except (Fault Error) Entry)} (yields : scan.Yields items) {entries : List Entry}
    (isItems : items = entries.map .ok) {fuel : Nat} (enough : entries.length < fuel) (state : σ) :
    scan.forEach into body fuel state = entries.foldlM body state := by
  induction yields generalizing entries fuel state with
  | stop done =>
      obtain ⟨fuel, rfl⟩ := Nat.exists_eq_succ_of_ne_zero (show fuel ≠ 0 by omega)
      obtain rfl : entries = [] := by simpa using isItems.symm
      simp only [BTree.Scan.forEach, done, List.foldlM_nil]
  | item stepped _ ih =>
      obtain ⟨fuel, rfl⟩ := Nat.exists_eq_succ_of_ne_zero (show fuel ≠ 0 by omega)
      cases entries with
      | nil => cases isItems
      | cons entry entries =>
          rw [List.map_cons, List.cons.injEq] at isItems
          obtain ⟨rfl, isRest⟩ := isItems
          simp only [BTree.Scan.forEach, stepped, relay_ok, ok_bind, List.foldlM_cons]
          exact bind_congr fun next => ih isRest (Nat.lt_of_succ_lt_succ enough) next

theorem BTree.reader_of_descendNode {lower : Bound Bytes} {below : Nat} {node : Node}
    {scan after : BTree.Scan} (descended : BTree.descendNode lower below node scan = .ok after) :
    after.reader = scan.reader := by
  induction below generalizing node scan with
  | zero =>
      cases node with
      | leaf cells =>
          cases descended
          rfl
      | internal level keys children => cases descended
  | succ below ih =>
      cases node with
      | leaf cells =>
          cases descended
          rfl
      | internal level keys children =>
          obtain ⟨child, -, descended⟩ := bind_eq_ok.mp descended
          obtain ⟨node, -, descended⟩ := bind_eq_ok.mp descended
          have same := ih descended
          exact same

/-- A scan reads the file it is started on. -/
theorem BTree.reader_of_scan {file : PageFile} {tree : TreeId} {root : Nat} {lower upper : Bound Bytes}
    {scan : BTree.Scan} (started : BTree.scan file tree root lower upper = .ok scan) :
    scan.reader = file := by
  obtain ⟨⟨⟩, -, started⟩ := bind_eq_ok.mp started
  obtain ⟨⟨⟩, -, started⟩ := bind_eq_ok.mp started
  dsimp only at started
  split_ifs at started
  · cases started
    rfl
  · obtain ⟨node, -, descended⟩ := bind_eq_ok.mp started
    exact BTree.reader_of_descendNode descended

/-- The first item of a scan. -/
theorem BTree.Scan.Yields.step_fst {scan : BTree.Scan} {items : List (Except (Fault Error) Entry)}
    (yields : scan.Yields items) : scan.step.1 = items.head? := by
  cases yields with
  | stop done => rw [done]; rfl
  | item stepped _ => rw [stepped]; rfl

/-! ## Scans of a table -/

/-- A lazy scan of rows at a sequence. -/
structure StateScan where
  physical : BTree.Scan
  tableId : Nat
  sequence : Nat
  selectedKey : Option Bytes
  done : Bool

/-- Find the next visible row.  The fuel exceeds the number of physical entries. -/
def StateScan.advance (tableId sequence : Nat) :
    Nat → BTree.Scan → Option Bytes → Except (Fault Error) (Option Entry × BTree.Scan × Option Bytes)
  | 0, _, _ => throw .panic
  | fuel + 1, physical, selected =>
      match physical.step with
      | (none, physical) => return (none, physical, selected)
      | (some item, physical) => do
          let (encodedKey, encodedValue) ← item
          let key ← raise id (corruptInput (StateKey.decode encodedKey))
          let value ← raise id (corruptInput (valuePayload encodedValue))
          raise id (refuse (key.tableId ≠ tableId) (.corrupt "state scan crossed its table boundary"))
          if key.sequence > sequence ∨ selected = some key.key then
            advance tableId sequence fuel physical selected
          else
            match value with
            | some value => return (some (key.key, value), physical, some key.key)
            | none => advance tableId sequence fuel physical (some key.key)

/-- The next item of a scan of rows. -/
def StateScan.next (scan : StateScan) : Option (Except (Fault Error) Entry) × StateScan :=
  if scan.done then (none, scan)
  else
    match StateScan.advance scan.tableId scan.sequence (scan.physical.reader.cellCount + 1)
        scan.physical scan.selectedKey with
    | .ok (some entry, physical, selected) =>
        (some (.ok entry), { scan with physical, selectedKey := selected })
    | .ok (none, physical, selected) =>
        (none, { scan with physical, selectedKey := selected, done := true })
    | .error fault => (some (.error fault), { scan with done := true })

/-- The first item of a list of rows. -/
def firstItem : List (Except Error Entry) → Except (Fault Error) (Option Entry)
  | [] => .ok none
  | .ok entry :: _ => .ok (some entry)
  | .error error :: _ => .error (.raised error)

theorem StateScan.advance_of_yields {tableId sequence : Nat} {physical : BTree.Scan}
    {items : List (Except (Fault Error) Entry)} (yields : physical.Yields items) {entries : List Entry}
    (isItems : items = entries.map .ok) {fuel : Nat} (enough : entries.length < fuel)
    (selected : Option Bytes) :
    (StateScan.advance tableId sequence fuel physical selected).map Prod.fst =
      firstItem (select tableId sequence selected entries) := by
  induction yields generalizing entries fuel selected with
  | stop done =>
      obtain ⟨fuel, rfl⟩ := Nat.exists_eq_succ_of_ne_zero (show fuel ≠ 0 by omega)
      obtain rfl : entries = [] := by simpa using isItems.symm
      simp only [StateScan.advance, done]
      rfl
  | item stepped _ ih =>
      obtain ⟨fuel, rfl⟩ := Nat.exists_eq_succ_of_ne_zero (show fuel ≠ 0 by omega)
      cases entries with
      | nil => cases isItems
      | cons entry entries =>
          rw [List.map_cons, List.cons.injEq] at isItems
          obtain ⟨rfl, isRest⟩ := isItems
          have rest := @ih entries isRest fuel (Nat.lt_of_succ_lt_succ enough)
          obtain ⟨encodedKey, encodedValue⟩ := entry
          simp only [StateScan.advance, stepped, ok_bind, select]
          cases corruptInput (StateKey.decode encodedKey) with
          | error error => rfl
          | ok key =>
              cases corruptInput (valuePayload encodedValue) with
              | error error => rfl
              | ok value =>
                  simp only [raise_ok, ok_bind]
                  by_cases crossed : key.tableId ≠ tableId
                  · rw [refuse_of _ crossed, if_pos crossed]
                    rfl
                  · rw [refuse_of_not _ crossed, if_neg crossed, raise_ok, ok_bind]
                    split_ifs with skipped
                    · exact rest selected
                    · cases value with
                      | some value => rfl
                      | none => exact rest (some key.key)

namespace PageView

/-! ## Reads -/

/-- The newest value at or before a sequence, unless it is a tombstone. -/
def readValue (view : PageView) (table : Nat) (key : Bytes) (sequence : Nat) :
    Except (Fault Error) (Option Bytes) := do
  raise id (checkSnapshot table sequence)
  raise id (checkUserKey key)
  let lower := seekKey table key sequence
  let prefixLength := lower.length - 8
  match ← BTree.seek view.reader .state (view.roots.root .state) lower with
  | none => return none
  | some cell =>
      if ¬ (lower.take prefixLength) <+: cell.key then return none
      else do
        raise id (refuse (cell.key.length ≠ lower.length)
          (.corrupt "state seeker returned an unexpected address"))
        let stored := complement (beNat (cell.key.drop prefixLength))
        raise id (refuse (stored ≤ table ∨ stored > sequence) (.corrupt "invalid state seeker sequence"))
        let encoded ← raise id (view.reader.value .state cell.value)
        raise id (corruptInput (valuePayload encoded))

/-- Scan a table at a sequence. -/
def scanRows (view : PageView) (table sequence : Nat) (lower upper : Bound Bytes) :
    Except (Fault Error) StateScan := do
  raise id (checkSnapshot table sequence)
  raise id (checkBound checkUserKey lower)
  raise id (checkBound checkUserKey upper)
  let physical ← BTree.scan view.reader .state (view.roots.root .state)
    (.included (lowerKey table sequence lower)) (.excluded (upperKey table upper))
  return ⟨physical, table, sequence, none, false⟩

variable {view : PageView} {maps : View}

theorem Stands.readValue (stands : view.Stands maps) (table : Nat) (key : Bytes) (sequence : Nat) :
    view.readValue table key sequence = raise id (Mvcc.get maps table key sequence) := by
  rw [PageView.readValue, Mvcc.get, raise_bind]
  refine bind_congr_ok fun _ _ => ?_
  rw [raise_bind]
  refine bind_congr_ok fun _ short => ?_
  have fits : (seekKey table key sequence).length ≤ maxKey :=
    Mvcc.length_seekKey_le table sequence (not_lt.mp (refuse_eq_ok.mp (raise_eq_ok.mp short)))
  dsimp only
  obtain ⟨found, isFound, means⟩ := (stands .state).seeks fits
  have sought := stands.seek .state (seekKey table key sequence)
  rw [PageView.seek, isFound, ok_bind] at sought
  rw [isFound, ok_bind, raise_bind, ← sought]
  cases found with
  | none => rfl
  | some cell =>
      obtain ⟨entry, isKey, value⟩ : ∃ entry : Entry, cell.key = entry.1 ∧
          view.reader.value .state cell.value = .ok entry.2 := by
        split at means
        · cases means
        · obtain ⟨_, same, isKey, value⟩ := means
          cases same
          exact ⟨_, isKey, value⟩
      simp only [value, raise_ok, ok_bind, pure_eq_ok]
      split_ifs
      · simp only [raise_bind]
      · rfl

/-- The first row of a scan of a view that stands for maps. -/
theorem Stands.scanRows (stands : view.Stands maps) {table sequence : Nat} {lower upper : Bound Bytes}
    {items : List (Except Error Entry)}
    (scanned : Mvcc.scan maps table sequence lower upper = .ok items) :
    ∃ scan, view.scanRows table sequence lower upper = .ok scan ∧
      scan.next.1 = match firstItem items with
        | .ok none => none
        | .ok (some entry) => some (.ok entry)
        | .error fault => some (.error fault) := by
  obtain ⟨⟨⟩, snapshot, scanned⟩ := bind_eq_ok.mp scanned
  obtain ⟨⟨⟩, lowerFits, scanned⟩ := bind_eq_ok.mp scanned
  obtain ⟨⟨⟩, upperFits, scanned⟩ := bind_eq_ok.mp scanned
  obtain ⟨entries, walked, selected⟩ := bind_eq_ok.mp scanned
  cases selected
  obtain ⟨⟨⟩, lowerShort, walked⟩ := bind_eq_ok.mp walked
  obtain ⟨⟨⟩, upperShort, walked⟩ := bind_eq_ok.mp walked
  cases walked
  obtain ⟨physical, started, yields⟩ := (stands .state).yields lowerShort upperShort
  refine ⟨⟨physical, table, sequence, none, false⟩, ?_, ?_⟩
  · simp only [PageView.scanRows, snapshot, lowerFits, upperFits, raise_ok, ok_bind, started, pure_eq_ok]
  · have reader : physical.reader = view.reader := BTree.reader_of_scan started
    have first := @StateScan.advance_of_yields table sequence physical _ yields _ rfl
      (view.reader.cellCount + 1)
      (Nat.lt_succ_of_le ((stands .state).range_length_le _ _)) none
    rw [← first]
    simp only [StateScan.next, reader, Bool.false_eq_true, if_false]
    cases StateScan.advance table sequence (view.reader.cellCount + 1) physical none with
    | error fault => rfl
    | ok result =>
        obtain ⟨_ | entry, _, _⟩ := result <;> rfl

end PageView

end BlopDb.Storage
