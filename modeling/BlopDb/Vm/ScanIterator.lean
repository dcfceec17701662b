/-
# The merged scan as an iterator

The iterator of a merged scan holds the private writes it has not reached, a moving
lower end and at most one open base scan.  Its calls return the merged rows one by
one, and no call reads a base version beyond the row it returns.
-/

import BlopDb.Storage.StateScan
import BlopDb.Vm.MergedScan

namespace BlopDb.Vm.Database

open BlopDb.Lib
open Storage (View maxU64)
open Storage.Mvcc (Uncorrupted ShortBound Decodes StateScan Pulled ReadsUpTo)
open Storage.Encoding (maxKeyBytes)

/-- The state of a merged scan. -/
structure MergedScan where
  overlay : List (Address × Option Bytes)
  lower : Bound Bytes
  base : Option StateScan
  done : Bool

section Calls

variable (view : View) (table sequence : Nat) (upper : Bound Bytes)

/-- The end of the part before the next private write. -/
def partEnd : List (Address × Option Bytes) → Bound Bytes
  | [] => upper
  | (address, _) :: _ => .excluded address.key

/-- No base key lies before the next private write. -/
def partEmpty (lower : Bound Bytes) : List (Address × Option Bytes) → Bool
  | [] => false
  | (address, _) :: _ => gapEmpty lower address.key

/-- Keep the open base scan, or open the one of the next part unless it is empty. -/
def openPart (overlay : List (Address × Option Bytes)) (lower : Bound Bytes) :
    Option StateScan → Except Storage.Error (Option StateScan)
  | some base => .ok (some base)
  | none =>
      if partEmpty lower overlay then .ok none
      else (StateScan.start view table sequence lower (partEnd upper overlay)).map some

/-- The next row of the open part, if there is one. -/
def nextBase : Option StateScan → Pulled (Option StateScan) (Except Storage.Error Storage.Entry)
  | none => ⟨none, none, []⟩
  | some base => ⟨base.next.item, some base.next.rest, base.next.read⟩

/-- Walk the parts and private writes up to the next row. -/
def pull (overlay : List (Address × Option Bytes)) (lower : Bound Bytes) (base : Option StateScan) :
    Pulled MergedScan (Except Error Storage.Entry) :=
  match openPart view table sequence upper overlay lower base with
  | .error error => ⟨some (.error (.storage error)), ⟨overlay, lower, none, true⟩, []⟩
  | .ok base =>
      match (nextBase base).item with
      | some entry =>
          ⟨some (entry.mapError .storage), ⟨overlay, lower, (nextBase base).rest, !entry.isOk⟩,
            (nextBase base).read⟩
      | none =>
          match overlay with
          | [] => ⟨none, ⟨[], lower, none, true⟩, (nextBase base).read⟩
          | (address, some value) :: rest =>
              ⟨some (.ok (address.key, value)), ⟨rest, .excluded address.key, none, false⟩,
                (nextBase base).read⟩
          | (address, none) :: rest =>
              (pull rest (.excluded address.key) none).after (nextBase base).read

namespace MergedScan

/-- The next row of a merged scan. -/
def next (scan : MergedScan) : Pulled MergedScan (Except Error Storage.Entry) :=
  if scan.done then ⟨none, scan, []⟩
  else pull view table sequence upper scan.overlay scan.lower scan.base

/-- Call a merged scan until it returned some number of rows or ended. -/
def take : Nat → MergedScan → List (Except Error Storage.Entry) × List Storage.Entry
  | 0, _ => ([], [])
  | count + 1, scan =>
      match (scan.next view table sequence upper).item with
      | none => ([], (scan.next view table sequence upper).read)
      | some item =>
          let later := take count (scan.next view table sequence upper).rest
          (item :: later.1, (scan.next view table sequence upper).read ++ later.2)

end MergedScan

/-- Open a merged scan. -/
def openScan (lower : Bound Bytes) (overlay : Overlay) : Except (Fault Error) MergedScan := do
  raise id (validId table)
  raise id (refuse (sequence = maxU64) (.invalid "reserved snapshot sequence"))
  raise id (checkEndpoint lower)
  raise id (checkEndpoint upper)
  if inverted (overlayLower table lower) (overlayUpper table upper) then .error .panic
  else .ok ⟨overlay.range (overlayLower table lower) (overlayUpper table upper), lower, none, false⟩

/-! ## Remaining items -/

/-- The items after the open part. -/
def laterItems : List (Address × Option Bytes) → List (Except Error Storage.Entry)
  | [] => []
  | (address, value) :: rest =>
      (value.toList.map fun value => .ok (address.key, value)) ++
        merge view table sequence upper (.excluded address.key) rest

/-- The items of an open part. -/
def partItems : Option StateScan → List (Except Error Storage.Entry)
  | none => []
  | some base => base.items.map (Except.mapError .storage)

/-- Everything a merged scan will still return. -/
def MergedScan.items (scan : MergedScan) : List (Except Error Storage.Entry) :=
  if scan.done then []
  else
    match scan.base with
    | none => merge view table sequence upper scan.lower scan.overlay
    | some base => continueWith (partItems (some base)) (laterItems view table sequence upper scan.overlay)

end Calls

variable {view : View} {table sequence : Nat} {lower upper : Bound Bytes}

/-- A merge starts with its first part. -/
theorem merge_eq (lower : Bound Bytes) (overlay : List (Address × Option Bytes)) :
    merge view table sequence upper lower overlay =
      continueWith
        (if partEmpty lower overlay then []
          else baseItems view table sequence lower (partEnd upper overlay))
        (laterItems view table sequence upper overlay) := by
  cases overlay with
  | nil => simp [merge, partEmpty, partEnd, laterItems, continueWith]
  | cons entry rest => rfl

theorem baseItems_eq (lower stop : Bound Bytes) :
    baseItems view table sequence lower stop =
      match StateScan.start view table sequence lower stop with
      | .ok opened => partItems (some opened)
      | .error error => [.error (.storage error)] := by
  rw [baseItems, Storage.Mvcc.scan_eq_items]
  cases StateScan.start view table sequence lower stop <;> rfl

/-- Opening the next part keeps the remaining items, or is the one failing item. -/
theorem items_openPart (overlay : List (Address × Option Bytes)) (lower : Bound Bytes) (base : Option StateScan) :
    MergedScan.items view table sequence upper ⟨overlay, lower, base, false⟩ =
      match openPart view table sequence upper overlay lower base with
      | .ok opened => continueWith (partItems opened) (laterItems view table sequence upper overlay)
      | .error error => [.error (.storage error)] := by
  cases base with
  | some base => rfl
  | none =>
      simp only [MergedScan.items, Bool.false_eq_true, if_false, merge_eq, openPart]
      by_cases empty : partEmpty lower overlay
      · simp only [if_pos empty, partItems]
      · simp only [if_neg empty, baseItems_eq]
        cases StateScan.start view table sequence lower (partEnd upper overlay) with
        | ok opened => rfl
        | error error => rfl

theorem partItems_next (base : Option StateScan) :
    partItems base = match (nextBase base).item with
      | none => []
      | some entry => entry.mapError .storage :: partItems (nextBase base).rest := by
  cases base with
  | none => rfl
  | some base =>
      simp only [partItems, nextBase]
      rw [base.items_next]
      cases base.next.item <;> rfl

/-- A base scan ends with its first error. -/
theorem items_after_error {base : StateScan} {error : Storage.Error}
    (failed : base.next.item = some (.error error)) : base.next.rest.items = [] := by
  unfold StateScan.next at failed ⊢
  split_ifs at failed ⊢
  dsimp only at failed ⊢
  split at failed
  · cases failed
  · cases failed
  · rfl

theorem continueWith_cons (item : Except Error Storage.Entry) (items later : List (Except Error Storage.Entry)) :
    continueWith (item :: items) later =
      item :: if item.isOk then continueWith items later else items := by
  cases item with
  | error error => simp [continueWith, Except.isOk, Except.toBool]
  | ok entry =>
      have isOk : (Except.ok entry : Except Error Storage.Entry).isOk = true := rfl
      simp only [continueWith, List.all_cons, isOk, Bool.true_and, if_true]
      rw [apply_ite (List.cons (Except.ok entry))]
      rfl

/-- A row of the open part is the first remaining item. -/
theorem items_base {overlay : List (Address × Option Bytes)} {base : Option StateScan}
    {entry : Except Storage.Error Storage.Entry} (returned : (nextBase base).item = some entry) :
    continueWith (partItems base) (laterItems view table sequence upper overlay) =
      entry.mapError .storage ::
        MergedScan.items view table sequence upper ⟨overlay, lower, (nextBase base).rest, !entry.isOk⟩ := by
  rw [partItems_next, returned]
  simp only [continueWith_cons]
  cases base with
  | none => cases returned
  | some base =>
      cases entry with
      | ok row => rfl
      | error error =>
          have ended := items_after_error returned
          simp [Except.mapError, Except.isOk, Except.toBool, nextBase, partItems, ended, MergedScan.items]

/-- A walk returns the first remaining item. -/
theorem items_pull (overlay : List (Address × Option Bytes)) (lower : Bound Bytes) (base : Option StateScan) :
    MergedScan.items view table sequence upper ⟨overlay, lower, base, false⟩ =
      match (pull view table sequence upper overlay lower base).item with
      | none => []
      | some item =>
          item :: MergedScan.items view table sequence upper
            (pull view table sequence upper overlay lower base).rest := by
  induction overlay generalizing lower base with
  | nil =>
      rw [items_openPart, pull]
      cases openPart view table sequence upper [] lower base with
      | error error => rfl
      | ok opened =>
          simp only
          cases returned : (nextBase opened).item with
          | some entry => exact items_base returned
          | none =>
              rw [partItems_next, returned]
              rfl
  | cons write rest ih =>
      rw [items_openPart, pull]
      cases openPart view table sequence upper (write :: rest) lower base with
      | error error => rfl
      | ok opened =>
          simp only
          cases returned : (nextBase opened).item with
          | some entry => exact items_base returned
          | none =>
              rw [partItems_next, returned]
              obtain ⟨address, change⟩ := write
              cases change with
              | some value => rfl
              | none =>
                  -- a deletion is passed over
                  exact ih (.excluded address.key) none

/-- A call returns the first of the remaining items. -/
theorem MergedScan.items_next (scan : MergedScan) :
    scan.items view table sequence upper =
      match (scan.next view table sequence upper).item with
      | none => []
      | some item => item :: (scan.next view table sequence upper).rest.items view table sequence upper := by
  obtain ⟨overlay, lower, base, done⟩ := scan
  cases done with
  | true => rfl
  | false => exact items_pull overlay lower base

/-- An opened scan will return the items of the scan. -/
theorem scan_eq_openScan (overlay : Overlay) :
    scan view table sequence lower upper overlay =
      (openScan table sequence upper lower overlay).map (MergedScan.items view table sequence upper) := by
  simp only [scan, openScan]
  cases raise id (validId table) with
  | error error => rfl
  | ok _ =>
      cases raise id (refuse (sequence = maxU64) (Error.invalid "reserved snapshot sequence")) with
      | error error => rfl
      | ok _ =>
          cases raise id (checkEndpoint lower) with
          | error error => rfl
          | ok _ =>
              cases raise id (checkEndpoint upper) with
              | error error => rfl
              | ok _ =>
                  simp only [ok_bind]
                  split_ifs <;> rfl

/-! ## Reads -/

/-- A merged scan of an uncorrupted state between calls. -/
structure MergedScan.Ready (table : Nat) (upper : Bound Bytes) (scan : MergedScan) : Prop where
  lowerShort : ShortBound scan.lower
  short : ShortKeys scan.overlay
  between : Between table scan.lower upper scan.overlay
  within : ∀ base ∈ scan.base, base.Within table (partEnd upper scan.overlay)

/-- The scan after a private write. -/
theorem MergedScan.Ready.tail {address : Address} {change : Option Bytes} {rest : List (Address × Option Bytes)}
    {base : Option StateScan} {done : Bool}
    (ready : MergedScan.Ready table upper ⟨(address, change) :: rest, lower, base, done⟩) :
    MergedScan.Ready table upper ⟨rest, .excluded address.key, none, false⟩ := by
  refine ⟨?_, fun entry member => ready.short entry (List.mem_cons_of_mem _ member), ready.between.tail, ?_⟩
  · intro key same
    cases same
    exact ready.short _ List.mem_cons_self
  · intro base open'
    cases open'

theorem partEnd_short (upperShort : ShortBound upper) {overlay : List (Address × Option Bytes)}
    (short : ShortKeys overlay) : ShortBound (partEnd upper overlay) := by
  cases overlay with
  | nil => exact upperShort
  | cons entry rest =>
      intro key same
      cases same
      exact short _ List.mem_cons_self

theorem openPart_within (intact : Intact view table sequence) (upperShort : ShortBound upper)
    {overlay : List (Address × Option Bytes)} {base opened : Option StateScan} {done : Bool}
    (ready : MergedScan.Ready table upper ⟨overlay, lower, base, done⟩)
    (opens : openPart view table sequence upper overlay lower base = .ok opened) :
    ∀ base ∈ opened, base.Within table (partEnd upper overlay) := by
  cases base with
  | some base =>
      cases opens
      exact ready.within
  | none =>
      obtain ⟨started, starts, within⟩ := StateScan.start_spec intact.uncorrupted intact.table_pos
        intact.table_lt intact.sequence_lt ready.lowerShort (partEnd_short upperShort ready.short)
      simp only [openPart, starts] at opens
      split_ifs at opens <;> cases opens
      · intro base none
        cases none
      · intro base same
        cases same
        exact within

/-- Rows before a private write lie below it. -/
theorem nextBase_below {stop : Bound Bytes} {base : Option StateScan}
    (within : ∀ scan ∈ base, scan.Within table stop) :
    ∀ entry ∈ (nextBase base).read, ∃ row, Decodes table entry row ∧ stop.below row.1 := by
  cases base with
  | none => simp [nextBase]
  | some base => exact (within base rfl).read_below

/-- A row of the open part is the last one read, and the part stays open. -/
theorem nextBase_reads (bounded : table ≤ maxU64) {overlay : List (Address × Option Bytes)}
    {base opened : Option StateScan} {done done' : Bool}
    (ready : MergedScan.Ready table upper ⟨overlay, lower, base, done⟩)
    (within : ∀ scan ∈ opened, scan.Within table (partEnd upper overlay)) {key value : Bytes}
    (returned : (nextBase opened).item = some (.ok (key, value))) :
    ReadsUpTo table key (nextBase opened).read ∧
      MergedScan.Ready table upper ⟨overlay, lower, (nextBase opened).rest, done'⟩ := by
  cases opened with
  | none => cases returned
  | some opened =>
      refine ⟨(within opened rfl).readsUpTo bounded returned, ready.lowerShort, ready.short, ready.between, ?_⟩
      intro scan same
      cases same
      exact (within opened rfl).rest

/-- A row of the rest of a walk lies above the private write before it. -/
theorem lt_of_pull (intact : Intact view table sequence) (upperShort : ShortBound upper)
    {overlay : List (Address × Option Bytes)} {start : Bytes}
    (ready : MergedScan.Ready table upper ⟨overlay, .excluded start, none, false⟩) {key value : Bytes}
    (returned : (pull view table sequence upper overlay (.excluded start) none).item =
      some (.ok (key, value))) : start < key := by
  obtain ⟨rows, items, -, members⟩ := merge_spec intact upperShort ready.lowerShort ready.short ready.between
  have first := @items_pull view table sequence upper overlay (.excluded start) none
  rw [returned] at first
  have member : Except.ok (key, value) ∈ merge view table sequence upper (.excluded start) overlay := by
    rw [show merge view table sequence upper (.excluded start) overlay = _ from first]
    exact List.mem_cons_self
  rw [items] at member
  obtain ⟨row, isRow, same⟩ := List.mem_map.mp member
  cases same
  exact above_excluded.mp ((members key value).mp isRow).1

theorem mapError_ok_iff {entry : Except Storage.Error Storage.Entry} {row : Storage.Entry} :
    entry.mapError Error.storage = .ok row ↔ entry = .ok row := by
  cases entry <;> simp [Except.mapError]

/-- A call that returns a row reads no base version beyond it. -/
theorem pull_reads (intact : Intact view table sequence) (upperShort : ShortBound upper)
    {overlay : List (Address × Option Bytes)} {lower : Bound Bytes} {base : Option StateScan}
    (ready : MergedScan.Ready table upper ⟨overlay, lower, base, false⟩) {key value : Bytes}
    (returned : (pull view table sequence upper overlay lower base).item = some (.ok (key, value))) :
    ReadsUpTo table key (pull view table sequence upper overlay lower base).read ∧
      (pull view table sequence upper overlay lower base).rest.Ready table upper := by
  induction overlay generalizing lower base with
  | nil =>
      rw [pull] at returned ⊢
      cases opens : openPart view table sequence upper [] lower base with
      | error error =>
          rw [opens] at returned
          cases returned
      | ok opened =>
          have within := openPart_within intact upperShort ready opens
          rw [opens] at returned
          simp only at returned ⊢
          cases item : (nextBase opened).item with
          | none =>
              rw [item] at returned
              cases returned
          | some entry =>
              rw [item] at returned
              have row := mapError_ok_iff.mp (Option.some.inj returned)
              rw [row] at item
              exact nextBase_reads intact.table_lt.le ready within item
  | cons write rest ih =>
      rw [pull] at returned ⊢
      cases opens : openPart view table sequence upper (write :: rest) lower base with
      | error error =>
          rw [opens] at returned
          cases returned
      | ok opened =>
          have within := openPart_within intact upperShort ready opens
          rw [opens] at returned
          simp only at returned ⊢
          cases item : (nextBase opened).item with
          | some entry =>
              rw [item] at returned
              have row := mapError_ok_iff.mp (Option.some.inj returned)
              rw [row] at item
              exact nextBase_reads intact.table_lt.le ready within item
          | none =>
              rw [item] at returned
              obtain ⟨address, change⟩ := write
              have before : ∀ entry ∈ (nextBase opened).read, ∃ row, Decodes table entry row ∧ row.1 < address.key := by
                simpa [partEnd, Bound.below] using nextBase_below within
              cases change with
              | some written =>
                  cases returned
                  refine ⟨fun entry member => ?_, ready.tail⟩
                  obtain ⟨row, decodes, less⟩ := before entry member
                  exact ⟨row, decodes, less.le⟩
              | none =>
                  -- the rest of the walk starts above the deletion
                  obtain ⟨reads, later⟩ := ih ready.tail returned
                  refine ⟨fun entry member => ?_, later⟩
                  rcases List.mem_append.mp member with first | second
                  · obtain ⟨row, decodes, less⟩ := before entry first
                    exact ⟨row, decodes, (less.trans (lt_of_pull intact upperShort ready.tail returned)).le⟩
                  · exact reads entry second

/-- A call of a scan with rows left returns the first, reads nothing beyond it and
leaves a scan of the others. -/
theorem MergedScan.next_spec (intact : Intact view table sequence) (upperShort : ShortBound upper)
    {scan : MergedScan} (ready : scan.Ready table upper) {row : Storage.Entry} {rows : List Storage.Entry}
    (items : scan.items view table sequence upper = (row :: rows).map .ok) :
    (scan.next view table sequence upper).item = some (.ok row) ∧
      ReadsUpTo table row.1 (scan.next view table sequence upper).read ∧
      (scan.next view table sequence upper).rest.Ready table upper ∧
      (scan.next view table sequence upper).rest.items view table sequence upper = rows.map .ok := by
  have first := @MergedScan.items_next view table sequence upper scan
  cases returned : (scan.next view table sequence upper).item with
  | none =>
      rw [returned, items] at first
      cases first
  | some item =>
      rw [returned, items] at first
      injection first with same others
      subst same
      obtain ⟨overlay, lower, base, done⟩ := scan
      cases done with
      | true => cases returned
      | false =>
          obtain ⟨key, value⟩ := row
          obtain ⟨reads, later⟩ := pull_reads intact upperShort ready returned
          exact ⟨rfl, reads, later, others.symm⟩

theorem MergedScan.next_end {scan : MergedScan} (items : scan.items view table sequence upper = []) :
    (scan.next view table sequence upper).item = none := by
  have first := @MergedScan.items_next view table sequence upper scan
  cases returned : (scan.next view table sequence upper).item with
  | none => rfl
  | some item =>
      rw [returned, items] at first
      cases first

/-- Calls return the rows in order. -/
theorem MergedScan.take_items (intact : Intact view table sequence) (upperShort : ShortBound upper)
    (count : Nat) {scan : MergedScan} (ready : scan.Ready table upper) {rows : List Storage.Entry}
    (items : scan.items view table sequence upper = rows.map .ok) :
    (scan.take view table sequence upper count).1 = (rows.take count).map .ok := by
  induction count generalizing scan rows with
  | zero => rfl
  | succ count ih =>
      cases rows with
      | nil => simp [MergedScan.take, next_end items]
      | cons row rows =>
          obtain ⟨returned, -, later, rest⟩ := next_spec intact upperShort ready items
          simp only [MergedScan.take, returned, ih later rest, List.take_succ_cons, List.map_cons]

/-- Calls up to a row read no base version beyond it. -/
theorem MergedScan.take_reads (intact : Intact view table sequence) (upperShort : ShortBound upper)
    (count : Nat) {scan : MergedScan} (ready : scan.Ready table upper) {rows : List Storage.Entry}
    (items : scan.items view table sequence upper = rows.map .ok) (sorted : Increasing rows)
    {last : Storage.Entry} (isLast : rows[count]? = some last) :
    ReadsUpTo table last.1 (scan.take view table sequence upper (count + 1)).2 := by
  induction count generalizing scan rows with
  | zero =>
      cases rows with
      | nil => cases isLast
      | cons row rows =>
          cases isLast
          obtain ⟨returned, reads, -⟩ := next_spec intact upperShort ready items
          simpa [MergedScan.take, returned] using reads
  | succ count ih =>
      cases rows with
      | nil => cases isLast
      | cons row rows =>
          obtain ⟨returned, reads, later, rest⟩ := next_spec intact upperShort ready items
          obtain ⟨less, tail⟩ := List.pairwise_cons.mp sorted
          have laterReads := ih later rest tail isLast
          rw [MergedScan.take]
          simp only [returned]
          intro entry member
          rcases List.mem_append.mp member with first | second
          · obtain ⟨read, decodes, below⟩ := reads entry first
            exact ⟨read, decodes, below.trans (less last (List.mem_of_getElem? isLast)).le⟩
          · exact laterReads entry second

/-! ## The merged scan -/

/-- The iterator that a scan of admitted ends opens. -/
theorem openScan_spec (intact : Intact view table sequence) (admitted : AdmittedRange lower upper)
    {overlay : Overlay} (short : ShortWrites table overlay) :
    ∃ opened, openScan table sequence upper lower overlay = .ok opened ∧ opened.Ready table upper ∧
      opened.items view table sequence upper = merge view table sequence upper lower
        (overlay.range (overlayLower table lower) (overlayUpper table upper)) := by
  refine ⟨⟨overlay.range (overlayLower table lower) (overlayUpper table upper), lower, none, false⟩,
    ?_, ⟨admitted.lowerShort, fun entry member => ?_, range_between table lower upper overlay, ?_⟩, rfl⟩
  · simp only [openScan, validId, checkEndpoint_of_short admitted.lowerShort,
      checkEndpoint_of_short admitted.upperShort, raise_ok, ok_bind, admitted.not_inverted]
    rw [refuse_of_not _ (by simp [intact.table_pos, intact.table_lt.ne]),
      refuse_of_not _ intact.sequence_lt.ne]
    rfl
  · obtain ⟨stored, isTable⟩ := table_of_mem_range member
    exact short entry stored isTable
  · intro base none
    cases none

/-- Two rows of table one. -/
def Sample.twoRows : View :=
  ⟨fun _ => ⟨[(Storage.Mvcc.seekKey 1 [1] 2, [1, 1, 0, 0, 0, 7]),
    (Storage.Mvcc.seekKey 1 [3] 2, [1, 1, 0, 0, 0, 8])], by
    simp only [Increasing]
    decide⟩⟩

/-- A row written between them and a deletion of the second. -/
def Sample.privateWrites : Overlay :=
  ⟨[(⟨1, [2]⟩, some [9]), (⟨1, [3]⟩, none)], by
    simp only [Increasing]
    decide⟩

theorem Sample.twoRows_uncorrupted : Uncorrupted Sample.twoRows := by
  intro entry member
  have rows : entry = (Storage.Mvcc.seekKey 1 [1] 2, [1, 1, 0, 0, 0, 7]) ∨
      entry = (Storage.Mvcc.seekKey 1 [3] 2, [1, 1, 0, 0, 0, 8]) := by
    simpa [Sample.twoRows] using member
  rcases rows with rfl | rfl
  · exact ⟨⟨⟨1, [1], 2⟩, by rfl⟩, some [7], by rfl⟩
  · exact ⟨⟨⟨1, [3], 2⟩, by rfl⟩, some [8], by rfl⟩

end BlopDb.Vm.Database
