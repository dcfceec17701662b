/-
# Collection preserves protected reads

A dropped version always has a newer one of its address at or below the floor,
and that newer one is kept or has a newer one in turn.  So a read at or above
the floor never comes to a dropped version: a point read finds a kept version
first, and a scan has already selected the address.  A scan checks the frames of
the versions it skips, so it can tell a removed version whose value frame is
malformed.
-/

import BlopDb.Storage.Collect

namespace BlopDb.Storage.Collect

open BlopDb.Lib
open Mvcc (StateKey seekKey addressPrefix firstFrom Readable)

/-- The address and version of a physical key that decodes. -/
def stateKey (entry : Entry) : StateKey := (StateKey.decode entry.1).toOption.getD ⟨0, [], 0⟩

/-- Every state key decodes. -/
def KeysDecode (view : View) : Prop :=
  ∀ entry ∈ (view.roots .state).entries, ∃ key, StateKey.decode entry.1 = .ok key

section Keys

variable {view : View}

theorem KeysDecode.decode (decodes : KeysDecode view) {entry : Entry}
    (member : entry ∈ (view.roots .state).entries) :
    StateKey.decode entry.1 = .ok (stateKey entry) := by
  obtain ⟨key, decoded⟩ := decodes entry member
  rw [stateKey, decoded]
  rfl

theorem KeysDecode.shape (decodes : KeysDecode view) {entry : Entry}
    (member : entry ∈ (view.roots .state).entries) :
    entry.1 = seekKey (stateKey entry).tableId (stateKey entry).key (stateKey entry).sequence ∧
      (stateKey entry).Valid :=
  Mvcc.StateKey.decode_sound (decodes.decode member)

theorem KeysDecode.lt_iff (decodes : KeysDecode view) {left right : Entry}
    (inLeft : left ∈ (view.roots .state).entries) (inRight : right ∈ (view.roots .state).entries) :
    left.1 < right.1 ↔ Before (stateKey left) (stateKey right) := by
  obtain ⟨leftShape, leftValid⟩ := decodes.shape inLeft
  obtain ⟨rightShape, rightValid⟩ := decodes.shape inRight
  rw [leftShape, rightShape, Mvcc.seekKey_lt_iff leftValid.table_lt.le rightValid.table_lt.le
    leftValid.sequence_lt.le rightValid.sequence_lt.le]
  rfl

/-- The entries stand in the order of their addresses and versions. -/
theorem KeysDecode.sorted (decodes : KeysDecode view) {entries : List Entry}
    (increasing : Increasing entries) (inside : ∀ entry ∈ entries, entry ∈ (view.roots .state).entries) :
    entries.Pairwise fun left right => Before (stateKey left) (stateKey right) := by
  refine increasing.imp_of_mem ?_
  intro left right inLeft inRight less
  exact (decodes.lt_iff (inside left inLeft) (inside right inRight)).mp less

end Keys

/-! ## Collected states -/

/-- The state of a view after collection. -/
structure Collected (floor : Nat) (source after : View) : Prop where
  decodes : KeysDecode source
  state : (after.roots .state).entries =
    kept floor stateKey none (source.roots .state).entries

section Reads

variable {floor table sequence : Nat} {key : Bytes} {source after : View}

theorem Collected.subset (collected : Collected floor source after) {entry : Entry}
    (member : entry ∈ (after.roots .state).entries) : entry ∈ (source.roots .state).entries := by
  rw [collected.state] at member
  exact kept_sublist.subset member

/-- A version without a newer one at or below the floor is kept. -/
theorem Collected.keeps (collected : Collected floor source after) {entry : Entry}
    (member : entry ∈ (source.roots .state).entries)
    (newest : ∀ newer ∈ (source.roots .state).entries,
      SameAddress (stateKey newer) (stateKey entry) → (stateKey newer).sequence ≤ floor →
        (stateKey newer).sequence ≤ (stateKey entry).sequence) :
    entry ∈ (after.roots .state).entries := by
  by_contra dropped
  rw [collected.state] at dropped
  have sorted := collected.decodes.sorted (source.roots .state).increasing fun _ => id
  rcases newer_of_not_kept sorted member dropped with none | ⟨newer, inside, address, atFloor, less⟩
  · cases none
  · exact absurd (newest newer inside address atFloor) (not_le.mpr less)

/-- The address prefix of a physical key belongs to one address. -/
theorem address_of_prefix (decodes : KeysDecode source) (bounded : table ≤ maxU64) {entry : Entry}
    (member : entry ∈ (source.roots .state).entries) (isPrefix : addressPrefix table key <+: entry.1) :
    (stateKey entry).tableId = table ∧ (stateKey entry).key = key := by
  obtain ⟨shape, valid⟩ := decodes.shape member
  obtain ⟨rest, joined⟩ := isPrefix
  rw [shape, seekKey] at joined
  obtain ⟨tables, keys, -⟩ := Mvcc.addressPrefix_append_inj bounded valid.table_lt.le joined
  exact ⟨tables.symm, keys.symm⟩

/-- The first entry of a protected read is the same after collection when it is
of the read's address. -/
theorem firstFrom_collected (collected : Collected floor source after)
    (readable : Readable table key sequence) (protects : floor ≤ sequence) {entry : Entry}
    (first : firstFrom source table key sequence = some entry)
    (isPrefix : addressPrefix table key <+: entry.1) :
    firstFrom after table key sequence = some entry := by
  have decodes := collected.decodes
  obtain ⟨member, above, -⟩ := OrdMap.mem_range.mp (List.mem_of_head? first)
  obtain ⟨tables, keys⟩ := address_of_prefix decodes readable.table_lt.le member isPrefix
  have keeps : entry ∈ (after.roots .state).entries := by
    apply collected.keeps member
    intro newer inside address atFloor
    obtain ⟨newerShape, newerValid⟩ := decodes.shape inside
    rw [address.1, address.2, tables, keys] at newerShape
    obtain ⟨other, isFirst, least⟩ := Mvcc.firstFrom_le readable (atFloor.trans protects)
      (show (seekKey table key (stateKey newer).sequence, newer.2) ∈ _ by
        rw [← newerShape]
        exact inside)
    rw [first] at isFirst
    cases isFirst
    by_contra less
    have before : Before (stateKey newer) (stateKey entry) :=
      .inr ⟨address.1, .inr ⟨address.2, not_le.mp less⟩⟩
    rw [← newerShape] at least
    exact absurd ((decodes.lt_iff inside member).mpr before) (not_lt.mpr least)
  have inRange : entry ∈ (after.roots .state).range (.included (seekKey table key sequence))
      .unbounded := OrdMap.mem_range.mpr ⟨keeps, above, rfl⟩
  cases found : firstFrom after table key sequence with
  | none =>
      unfold firstFrom at found
      rw [List.head?_eq_none_iff.mp found] at inRange
      cases inRange
  | some other =>
      obtain ⟨otherMember, otherAbove, -⟩ := OrdMap.mem_range.mp (List.mem_of_head? found)
      have least := ((after.roots .state).increasing_range _ _).head_le found inRange
      have least' := ((source.roots .state).increasing_range _ _).head_le first
        (OrdMap.mem_range.mpr ⟨collected.subset otherMember, otherAbove, rfl⟩)
      have same : other.1 = entry.1 := le_antisymm least least'
      have value := (source.roots .state).increasing.lookupEntry_eq_some.mpr
        (show (other.1, other.2) ∈ _ from collected.subset otherMember)
      rw [same, (source.roots .state).increasing.lookupEntry_eq_some.mpr
        (show (entry.1, entry.2) ∈ _ from member)] at value
      exact congrArg some (Prod.ext same (Option.some.inj value).symm)

/-- An entry that a protected read finds for its address is also the first one
of the source. -/
theorem firstFrom_source (collected : Collected floor source after)
    (readable : Readable table key sequence) {entry : Entry}
    (first : firstFrom after table key sequence = some entry)
    (isPrefix : addressPrefix table key <+: entry.1) :
    ∃ other, firstFrom source table key sequence = some other ∧
      addressPrefix table key <+: other.1 := by
  have decodes := collected.decodes
  have bounded := readable.table_lt.le
  have snapshot := readable.sequence_lt.le
  obtain ⟨member, above, -⟩ := OrdMap.mem_range.mp (List.mem_of_head? first)
  have inSource := collected.subset member
  obtain ⟨tables, keys⟩ := address_of_prefix decodes bounded inSource isPrefix
  obtain ⟨shape, valid⟩ := decodes.shape inSource
  have inRange : entry ∈ (source.roots .state).range (.included (seekKey table key sequence))
      .unbounded := OrdMap.mem_range.mpr ⟨inSource, above, rfl⟩
  cases found : firstFrom source table key sequence with
  | none =>
      unfold firstFrom at found
      rw [List.head?_eq_none_iff.mp found] at inRange
      cases inRange
  | some other =>
      refine ⟨other, rfl, ?_⟩
      obtain ⟨otherMember, otherAbove, -⟩ := OrdMap.mem_range.mp (List.mem_of_head? found)
      have least := ((source.roots .state).increasing_range _ _).head_le found inRange
      obtain ⟨otherShape, otherValid⟩ := decodes.shape otherMember
      simp only [Bound.above, decide_eq_true_eq] at otherAbove
      rw [otherShape, Mvcc.seekKey_le_iff bounded otherValid.table_lt.le snapshot
        otherValid.sequence_lt.le] at otherAbove
      rw [otherShape, shape, tables, keys, Mvcc.seekKey_le_iff otherValid.table_lt.le bounded
        otherValid.sequence_lt.le valid.sequence_lt.le] at least
      -- The first entry lies between the seek key and a version of the address.
      have address : table = (stateKey other).tableId ∧ key = (stateKey other).key := by
        rcases otherAbove with less | ⟨sameTable, less | ⟨sameKey, -⟩⟩
        · omega
        · rcases least with less' | ⟨-, less' | ⟨same, -⟩⟩
          · omega
          · exact absurd (less.trans less') (lt_irrefl _)
          · exact absurd (same ▸ less) (lt_irrefl _)
        · exact ⟨sameTable, sameKey⟩
      rw [otherShape, ← address.1, ← address.2]
      exact ⟨_, rfl⟩

/-- A point read at or above the floor is the same after collection. -/
theorem get_collected (collected : Collected floor source after) (protects : floor ≤ sequence)
    (readable : Readable table key sequence) :
    Mvcc.get after table key sequence = Mvcc.get source table key sequence := by
  have notFound {view : View} (other : ∀ entry, firstFrom view table key sequence = some entry →
      ¬ addressPrefix table key <+: entry.1) : Mvcc.get view table key sequence = .ok none := by
    cases first : firstFrom view table key sequence with
    | none => exact Mvcc.get_of_firstFrom_none readable first
    | some entry =>
        obtain ⟨found, encoded⟩ := entry
        rw [Mvcc.get_of_firstFrom readable first, if_pos (other _ first)]
  by_cases found : ∃ entry, firstFrom source table key sequence = some entry ∧
      addressPrefix table key <+: entry.1
  · obtain ⟨⟨found, encoded⟩, first, isPrefix⟩ := found
    have same := firstFrom_collected collected readable protects first isPrefix
    rw [Mvcc.get_of_firstFrom readable first, Mvcc.get_of_firstFrom readable same]
  · rw [notFound, notFound]
    · intro entry first isPrefix
      exact found ⟨entry, first, isPrefix⟩
    · intro entry first isPrefix
      exact found (firstFrom_source collected readable first isPrefix)

end Reads

/-! ## Scans -/

section Scans

variable {floor table sequence : Nat} {source after : View} {lower upper : Bound Bytes}

/-- A walk over some entries skips those whose address is selected before. -/
theorem select_filter {entries : List Entry} (keep : Entry → Bool) (selected : Option Bytes)
    (sorted : entries.Pairwise fun left right => Before (stateKey left) (stateKey right))
    (decodes : ∀ entry ∈ entries, StateKey.decode entry.1 = .ok (stateKey entry) ∧
      (stateKey entry).tableId = table)
    (ahead : ∀ key ∈ selected, ∀ entry ∈ entries, key ≤ (stateKey entry).key)
    (covered : ∀ entry ∈ entries, keep entry = false →
      (∃ payload, Mvcc.valuePayload entry.2 = .ok payload) ∧
        (selected = some (stateKey entry).key ∨ ∃ newer ∈ entries,
          (stateKey newer).key = (stateKey entry).key ∧ (stateKey newer).sequence ≤ sequence ∧
            (stateKey entry).sequence < (stateKey newer).sequence)) :
    Mvcc.select table sequence selected (entries.filter keep) =
      Mvcc.select table sequence selected entries := by
  induction entries generalizing selected with
  | nil => rfl
  | cons first rest ih =>
      obtain ⟨later, sortedRest⟩ := List.pairwise_cons.mp sorted
      obtain ⟨decoded, isTable⟩ := decodes first List.mem_cons_self
      have decodesRest := fun entry (member : entry ∈ rest) =>
        decodes entry (List.mem_cons_of_mem _ member)
      have laterKey : ∀ entry ∈ rest, (stateKey first).key ≤ (stateKey entry).key := by
        intro entry member
        rcases later entry member with less | ⟨-, less | ⟨same, -⟩⟩
        · rw [isTable, (decodesRest entry member).2] at less
          exact absurd less (lt_irrefl _)
        · exact less.le
        · exact same.le
      have aheadRest : ∀ key ∈ selected, ∀ entry ∈ rest, key ≤ (stateKey entry).key :=
        fun key isSelected entry member => ahead key isSelected entry (List.mem_cons_of_mem _ member)
      -- What covers a later entry once the first one is passed with its address selected.
      have coveredBy {next : Option Bytes}
          (passed : ∀ entry ∈ rest, selected = some (stateKey entry).key →
            next = some (stateKey entry).key)
          (visible : (stateKey first).sequence ≤ sequence → next = some (stateKey first).key) :
          ∀ entry ∈ rest, keep entry = false →
            (∃ payload, Mvcc.valuePayload entry.2 = .ok payload) ∧
              (next = some (stateKey entry).key ∨ ∃ newer ∈ rest,
                (stateKey newer).key = (stateKey entry).key ∧
                  (stateKey newer).sequence ≤ sequence ∧
                  (stateKey entry).sequence < (stateKey newer).sequence) := by
        intro entry member dropped
        obtain ⟨payload, isSelected | ⟨newer, inside, same, atSequence, less⟩⟩ :=
          covered entry (List.mem_cons_of_mem _ member) dropped
        · exact ⟨payload, .inl (passed entry member isSelected)⟩
        · rcases List.mem_cons.mp inside with rfl | inRest
          · exact ⟨payload, .inl (same ▸ visible atSequence)⟩
          · exact ⟨payload, .inr ⟨newer, inRest, same, atSequence, less⟩⟩
      obtain ⟨encoded, value⟩ := first
      have isKey : Mvcc.corruptInput (StateKey.decode encoded) = .ok (stateKey (encoded, value)) := by
        rw [show StateKey.decode encoded = _ from decoded]
        rfl
      cases keeps : keep (encoded, value) with
      | false =>
          obtain ⟨⟨payload, isPayload⟩, known⟩ := covered _ List.mem_cons_self keeps
          have isSelected : selected = some (stateKey (encoded, value)).key := by
            refine known.resolve_right ?_
            rintro ⟨newer, inside, same, -, less⟩
            rcases List.mem_cons.mp inside with rfl | inRest
            · exact lt_irrefl _ less
            · rcases later newer inRest with before | ⟨-, before | ⟨-, older⟩⟩
              · rw [isTable, (decodesRest newer inRest).2] at before
                exact lt_irrefl _ before
              · exact absurd same before.ne'
              · exact lt_irrefl _ (less.trans older)
          rw [List.filter_cons_of_neg (by simp [keeps]), ih selected sortedRest decodesRest aheadRest
            (coveredBy (fun _ _ => id) fun _ => isSelected)]
          have framed : Mvcc.corruptInput (Mvcc.valuePayload value) = .ok payload := by
            rw [show Mvcc.valuePayload value = _ from isPayload]
            rfl
          simp only [Mvcc.select, isKey, framed]
          rw [if_neg (not_not.mpr isTable), if_pos (.inr isSelected)]
      | true =>
          rw [List.filter_cons_of_pos keeps]
          cases isPayload : Mvcc.corruptInput (Mvcc.valuePayload value) with
          | error error =>
              simp only [Mvcc.select, isKey, isPayload]
          | ok payload =>
              simp only [Mvcc.select, isKey, isPayload]
              rw [if_neg (not_not.mpr isTable), if_neg (not_not.mpr isTable)]
              by_cases skipped : (stateKey (encoded, value)).sequence > sequence ∨
                  selected = some (stateKey (encoded, value)).key
              · rw [if_pos skipped, if_pos skipped]
                refine ih selected sortedRest decodesRest aheadRest (coveredBy (fun _ _ => id) ?_)
                intro visible
                exact skipped.resolve_left (not_lt.mpr visible)
              · rw [if_neg skipped, if_neg skipped]
                have fresh := ih (some (stateKey (encoded, value)).key) sortedRest decodesRest
                  (by rintro _ ⟨⟩; exact laterKey)
                  (coveredBy (by
                    intro entry member isSelected
                    have notBeyond := ahead _ isSelected _ List.mem_cons_self
                    have same := le_antisymm (laterKey entry member) notBeyond
                    exact congrArg some same) fun _ => rfl)
                rw [fresh]

/-- The range of a scan holds the versions of its table between its bounds,
except those newer than the snapshot at an included lower key. -/
theorem mem_scanned_key {view : View} (decodes : KeysDecode view) (bounded : table < maxU64)
    (snapshot : sequence < maxU64) {entry : Entry} :
    entry ∈ Mvcc.scanned view table sequence lower upper ↔
      entry ∈ (view.roots .state).entries ∧ (stateKey entry).tableId = table ∧
        lower.above (stateKey entry).key ∧ upper.below (stateKey entry).key ∧
        (lower = .included (stateKey entry).key → (stateKey entry).sequence ≤ sequence) := by
  unfold Mvcc.scanned
  rw [OrdMap.mem_range]
  refine and_congr_right fun member => ?_
  obtain ⟨shape, valid⟩ := decodes.shape member
  simp only [Bound.above, Bound.below, decide_eq_true_eq]
  rw [shape, Mvcc.lowerKey_le_iff bounded.le valid.table_lt.le snapshot.le valid.sequence_lt.le,
    Mvcc.lt_upperKey_iff bounded valid.table_lt.le]
  constructor
  · rintro ⟨above | ⟨same, above, visible⟩, below | ⟨same', below⟩⟩
    · omega
    · omega
    · omega
    · exact ⟨same', above, below, visible⟩
  · rintro ⟨same, above, below, visible⟩
    exact ⟨.inr ⟨same.symm, above, visible⟩, .inr ⟨same, below⟩⟩

/-- The range of a scan after collection is the kept part of its range before. -/
theorem scanned_collected (collected : Collected floor source after) :
    Mvcc.scanned after table sequence lower upper =
      (Mvcc.scanned source table sequence lower upper).filter
        fun entry => decide (entry ∈ (after.roots .state).entries) := by
  unfold Mvcc.scanned
  refine ((after.roots .state).increasing_range _ _).ext
    (((source.roots .state).increasing_range _ _).filter _) ?_
  intro entry
  rw [List.mem_filter, OrdMap.mem_range, OrdMap.mem_range, decide_eq_true_eq]
  constructor
  · rintro ⟨member, bounds⟩
    exact ⟨⟨collected.subset member, bounds⟩, member⟩
  · rintro ⟨⟨-, bounds⟩, member⟩
    exact ⟨member, bounds⟩

/-- The walk of a scan at or above the floor is the same after collection when
the removed value frames decode. -/
theorem select_collected (collected : Collected floor source after) (protects : floor ≤ sequence)
    (bounded : table < maxU64) (snapshot : sequence < maxU64)
    (frames : ∀ entry ∈ (source.roots .state).entries, entry ∉ (after.roots .state).entries →
      ∃ payload, Mvcc.valuePayload entry.2 = .ok payload) :
    Mvcc.select table sequence none (Mvcc.scanned after table sequence lower upper) =
      Mvcc.select table sequence none (Mvcc.scanned source table sequence lower upper) := by
  have decodes := collected.decodes
  have inside : ∀ entry ∈ Mvcc.scanned source table sequence lower upper,
      entry ∈ (source.roots .state).entries ∧ (stateKey entry).tableId = table ∧ _ ∧ _ ∧ _ :=
    fun entry member => (mem_scanned_key decodes bounded snapshot).mp member
  rw [scanned_collected collected]
  refine select_filter _ none ?_ ?_ (by simp) ?_
  · exact decodes.sorted ((source.roots .state).increasing_range _ _) fun entry member =>
      (inside entry member).1
  · exact fun entry member => ⟨decodes.decode (inside entry member).1, (inside entry member).2.1⟩
  · intro entry member dropped
    obtain ⟨inSource, isTable, above, below, -⟩ := inside entry member
    have dropped : entry ∉ (after.roots .state).entries := of_decide_eq_false dropped
    refine ⟨frames entry inSource dropped, .inr ?_⟩
    rw [collected.state] at dropped
    have sorted := decodes.sorted (source.roots .state).increasing fun _ => id
    rcases newer_of_not_kept sorted inSource dropped with none | ⟨newer, inNewer, address, atFloor, less⟩
    · cases none
    · have visible := atFloor.trans protects
      refine ⟨newer, (mem_scanned_key decodes bounded snapshot).mpr ⟨inNewer, ?_, ?_, ?_,
        fun _ => visible⟩, address.2, visible, less⟩
      · exact address.1.trans isTable
      · rw [address.2]
        exact above
      · rw [address.2]
        exact below

end Scans

/-! ## Protected reads -/

/-- What collection at a floor protects. -/
structure Protects (floor : Nat) (source after : View) : Prop where
  gets : ∀ (table sequence : Nat) (key : Bytes), table ≤ maxU64 → sequence ≤ maxU64 →
    floor ≤ sequence → Mvcc.get after table key sequence = Mvcc.get source table key sequence
  scans : (∀ entry ∈ (source.roots .state).entries, entry ∉ (after.roots .state).entries →
      ∃ payload, Mvcc.valuePayload entry.2 = .ok payload) →
    ∀ (table sequence : Nat) (lower upper : Bound Bytes), table ≤ maxU64 → sequence ≤ maxU64 →
      floor ≤ sequence →
      Mvcc.scan after table sequence lower upper = Mvcc.scan source table sequence lower upper
  versions : ∀ entry ∈ (source.roots .state).entries, ∀ key, StateKey.decode entry.1 = .ok key →
    floor < key.sequence → entry ∈ (after.roots .state).entries
  outcomes : ∀ entry ∈ (source.roots .outcomes).entries, ∀ sequence,
    entrySequence .outcomes entry.1 = .ok sequence → floor < sequence →
      entry ∈ (after.roots .outcomes).entries
  unaltered : ∀ tree, ∀ entry ∈ (after.roots tree).entries, entry ∈ (source.roots tree).entries
  others : ∀ tree, tree ≠ .state → tree ≠ .outcomes → after.roots tree = source.roots tree
  single : ∀ left ∈ (after.roots .state).entries, ∀ right ∈ (after.roots .state).entries,
    ∀ first second : StateKey, StateKey.decode left.1 = .ok first →
      StateKey.decode right.1 = .ok second → first.tableId = second.tableId →
      first.key = second.key → first.sequence ≤ floor → second.sequence ≤ floor → left = right

section Protection

variable {floor frontier historyFloor table sequence : Nat} {key : Bytes} {source after : View}
variable {lower upper : Bound Bytes}

theorem get_protected (collected : Collected floor source after) (tableFits : table ≤ maxU64)
    (sequenceFits : sequence ≤ maxU64) (protects : floor ≤ sequence) :
    Mvcc.get after table key sequence = Mvcc.get source table key sequence := by
  by_cases tables : table = 0 ∨ table = maxU64
  · simp [Mvcc.get, Mvcc.checkSnapshot, refuse_of _ tables]
  · by_cases reserved : sequence = maxU64
    · simp [Mvcc.get, Mvcc.checkSnapshot, refuse_of_not _ tables, refuse_of _ reserved]
    · by_cases long : key.length > Encoding.maxKeyBytes
      · simp [Mvcc.get, Mvcc.checkSnapshot, refuse_of_not _ tables, refuse_of_not _ reserved,
          Mvcc.checkUserKey, refuse_of _ long]
      · rw [not_or] at tables
        exact get_collected collected protects ⟨tables.1, lt_of_le_of_ne tableFits tables.2,
          lt_of_le_of_ne sequenceFits reserved, not_lt.mp long⟩

theorem short_of_checkBound {bound : Bound Bytes}
    (checked : checkBound Mvcc.checkUserKey bound = .ok ()) : Mvcc.ShortBound bound := by
  intro key isKey
  rw [checkBound, isKey] at checked
  exact not_lt.mp (refuse_eq_ok.mp checked)

theorem scan_protected (collected : Collected floor source after)
    (frames : ∀ entry ∈ (source.roots .state).entries, entry ∉ (after.roots .state).entries →
      ∃ payload, Mvcc.valuePayload entry.2 = .ok payload)
    (tableFits : table ≤ maxU64) (sequenceFits : sequence ≤ maxU64) (protects : floor ≤ sequence) :
    Mvcc.scan after table sequence lower upper = Mvcc.scan source table sequence lower upper := by
  by_cases tables : table = 0 ∨ table = maxU64
  · simp [Mvcc.scan, Mvcc.checkSnapshot, refuse_of _ tables]
  · by_cases reserved : sequence = maxU64
    · simp [Mvcc.scan, Mvcc.checkSnapshot, refuse_of_not _ tables, refuse_of _ reserved]
    · cases lowerChecked : checkBound Mvcc.checkUserKey lower with
      | error error => simp [Mvcc.scan, lowerChecked]
      | ok _ =>
          cases upperChecked : checkBound Mvcc.checkUserKey upper with
          | error error => simp [Mvcc.scan, lowerChecked, upperChecked]
          | ok _ =>
              rw [not_or] at tables
              have bounded := lt_of_le_of_ne tableFits tables.2
              have snapshot := lt_of_le_of_ne sequenceFits reserved
              rw [Mvcc.scan_eq_select tables.1 bounded snapshot (short_of_checkBound lowerChecked)
                  (short_of_checkBound upperChecked),
                Mvcc.scan_eq_select tables.1 bounded snapshot (short_of_checkBound lowerChecked)
                  (short_of_checkBound upperChecked),
                select_collected collected protects bounded snapshot frames]

/-- The trees that a collection returns. -/
theorem collectView_eq_ok {poisoned : Bool} (decodes : KeysDecode source) {result : View × Nat × Nat}
    (returns : collectView poisoned historyFloor source floor frontier = .ok result) :
    Collected floor source result.1 ∧
      (result.1.roots .outcomes).entries = (source.roots .outcomes).entries.filter
        (fun entry => floor < outcomeSequence entry.1) ∧
      ∀ tree, tree ≠ .state → tree ≠ .outcomes → result.1.roots tree = source.roots tree := by
  simp only [collectView, bind_eq_ok] at returns
  obtain ⟨-, -, -, -, ⟨state, versions⟩, walkedState, ⟨outcomes, records⟩, walkedOutcomes, returns⟩ :=
    returns
  cases returns
  obtain ⟨after, count, walked, same⟩ := @collectState_eq floor stateKey none _ [] _ 0
    (fun entry member => decodes.decode member) (List.nil_append (source.roots .state).entries).symm
  rw [walkedState] at walked
  cases walked
  obtain ⟨after', count', walked', same'⟩ := @collectOutcomes_eq floor _ [] _ 0
    (decodes_of_collectOutcomes walkedOutcomes)
    (List.nil_append (source.roots .outcomes).entries).symm
  rw [walkedOutcomes] at walked'
  cases walked'
  refine ⟨⟨decodes, same⟩, same', ?_⟩
  intro tree notState notOutcomes
  cases tree <;> simp_all

/-- Collection returns a view when the outcome keys decode, and every view it
returns protects the reads at or above its floor. -/
theorem collectView_protects {poisoned : Bool} (decodes : KeysDecode source)
    (floorAllowed : historyFloor ≤ floor) (frontierAllowed : floor ≤ frontier) :
    (∀ result, collectView poisoned historyFloor source floor frontier = .ok result →
        Protects floor source result.1) ∧
      ((∀ entry ∈ (source.roots .outcomes).entries,
          ∃ sequence, entrySequence .outcomes entry.1 = .ok sequence) →
        ∃ result, collectView false historyFloor source floor frontier = .ok result) := by
  refine ⟨?_, ?_⟩
  · intro result returns
    obtain ⟨collected, outcomes, others⟩ := collectView_eq_ok decodes returns
    have sorted := decodes.sorted (source.roots .state).increasing fun _ => id
    refine ⟨?_, ?_, ?_, ?_, ?_, others, ?_⟩
    · intro table sequence key tableFits sequenceFits protects
      exact get_protected collected tableFits sequenceFits protects
    · intro frames table sequence lower upper tableFits sequenceFits protects
      exact scan_protected collected frames tableFits sequenceFits protects
    · intro entry member key decoded above
      rw [decodes.decode member] at decoded
      cases decoded
      rw [collected.state]
      exact mem_kept_of_gt member above
    · intro entry member sequence decoded above
      rw [outcomes, List.mem_filter, outcomeSequence, decoded]
      exact ⟨member, decide_eq_true above⟩
    · intro tree entry member
      by_cases isState : tree = .state
      · subst isState
        exact collected.subset member
      · by_cases isOutcomes : tree = .outcomes
        · subst isOutcomes
          rw [outcomes] at member
          exact (List.mem_filter.mp member).1
        · rwa [others tree isState isOutcomes] at member
    · intro left inLeft right inRight first second decodedFirst decodedSecond tables keys firstFloor
        secondFloor
      have leftKey := decodes.decode (collected.subset inLeft)
      have rightKey := decodes.decode (collected.subset inRight)
      rw [decodedFirst] at leftKey
      rw [decodedSecond] at rightKey
      cases leftKey
      cases rightKey
      rw [collected.state] at inLeft inRight
      exact (kept_unique sorted (by simp)).2 left inLeft right inRight ⟨tables, keys⟩ firstFloor
        secondFloor
  · intro outcomesDecode
    obtain ⟨state, versions, walked, -⟩ := @collectState_eq floor stateKey none _ [] _ 0
      (fun entry member => decodes.decode member)
      (List.nil_append (source.roots .state).entries).symm
    obtain ⟨outcomes, records, walked', -⟩ := @collectOutcomes_eq floor _ [] _ 0 outcomesDecode
      (List.nil_append (source.roots .outcomes).entries).symm
    have floors : ¬ (floor > frontier ∨ floor < historyFloor) := by omega
    simp [collectView, refuse_of_not _ floors, walked, walked']

end Protection

/-! ## A state with an obsolete version -/

namespace Sample

/-- Two versions of one address, the older with the given value frame. -/
def twoVersions (frame : Bytes) : View where
  roots tree := match tree with
    | .state => ⟨[(StateKey.encode ⟨1, [7], 5⟩, [1, 1, 0, 0, 0, 9]),
        (StateKey.encode ⟨1, [7], 3⟩, frame)], List.pairwise_pair.mpr
          (show StateKey.encode ⟨1, [7], 5⟩ < StateKey.encode ⟨1, [7], 3⟩ by decide)⟩
    | _ => ∅

theorem keysDecode_twoVersions (frame : Bytes) : KeysDecode (twoVersions frame) := by
  intro entry member
  simp only [twoVersions, List.mem_cons, List.not_mem_nil, or_false] at member
  rcases member with rfl | rfl
  · exact ⟨⟨1, [7], 5⟩, by decide⟩
  · exact ⟨⟨1, [7], 3⟩,
      show StateKey.decode (StateKey.encode ⟨1, [7], 3⟩) = .ok ⟨1, [7], 3⟩ by decide⟩

/-- Collection of a tombstone below a newer version. -/
theorem twoVersions_protected :
    (∀ result, collectView false 0 (twoVersions [0]) 5 5 = .ok result →
        Protects 5 (twoVersions [0]) result.1) ∧
      ∃ result, collectView false 0 (twoVersions [0]) 5 5 = .ok result :=
  have protects := @collectView_protects 5 5 0 (twoVersions [0]) false
    (keysDecode_twoVersions [0]) (by decide) (by decide)
  ⟨protects.1, protects.2 (by simp [twoVersions, EmptyCollection.emptyCollection, OrdMap.empty])⟩

/-- The scan of the source comes to the malformed frame of the removed version,
and the scan after collection does not. -/
theorem scan_sees_removed_frame :
    KeysDecode (twoVersions [9]) ∧
      ∃ result, collectView false 0 (twoVersions [9]) 5 5 = .ok result ∧
        Mvcc.scan result.1 1 5 .unbounded .unbounded = .ok [.ok ([7], [9])] ∧
        Mvcc.scan (twoVersions [9]) 1 5 .unbounded .unbounded =
          .ok [.ok ([7], [9]), .error (.corrupt "invalid state value tag or length")] := by
  refine ⟨keysDecode_twoVersions [9], ?_⟩
  have scanned : (collectView false 0 (twoVersions [9]) 5 5).toOption.map (fun result =>
      Mvcc.scan result.1 1 5 .unbounded .unbounded) = some (.ok [.ok ([7], [9])]) := by
    decide +kernel
  cases returns : collectView false 0 (twoVersions [9]) 5 5 with
  | error error =>
      rw [returns] at scanned
      cases scanned
  | ok result =>
      rw [returns] at scanned
      exact ⟨result, rfl, Option.some.inj scanned, by decide +kernel⟩

end Sample

end BlopDb.Storage.Collect
