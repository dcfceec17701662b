/-
# What versioned reads select

On a state tree whose entries all decode, a read returns the payload of the
newest version at or before its sequence, and a scan lists exactly the keys in
its range whose read returns a value.  Neither reports corruption.
-/

import BlopDb.Storage.MvccOrder

namespace BlopDb.Storage.Mvcc

open BlopDb.Lib
open Encoding (escapeInto unescape unescape_escapeInto unescape_sound length_escapeInto_le
  maxKeyBytes)

/-! ## Decoded keys -/

/-- What validation establishes of an address and version. -/
structure StateKey.Valid (key : StateKey) : Prop where
  table_pos : key.tableId ≠ 0
  table_lt : key.tableId < maxU64
  sequence_lt : key.sequence < maxU64
  key_le : key.key.length ≤ maxKeyBytes
  table_lt_sequence : key.tableId < key.sequence

theorem StateKey.new_eq_ok {tableId sequence : Nat} {key : Bytes} {result : StateKey} :
    StateKey.new tableId key sequence = .ok result ↔
      result = ⟨tableId, key, sequence⟩ ∧ result.tableId ≠ 0 ∧ result.tableId ≠ maxU64 ∧
        result.sequence ≠ maxU64 ∧ result.key.length ≤ maxKeyBytes ∧
        result.tableId < result.sequence := by
  simp only [StateKey.new, checkSnapshot, checkUserKey, bind_eq_ok, refuse_eq_ok, pure_eq_ok,
    Except.ok.injEq]
  constructor
  · rintro ⟨-, ⟨-, tables, sequences⟩, -, keys, -, later, rfl⟩
    simp only [not_or, gt_iff_lt, not_lt, not_le] at tables keys later
    exact ⟨rfl, tables.1, tables.2, sequences, keys, later⟩
  · rintro ⟨rfl, positive, bounded, sequences, keys, later⟩
    exact ⟨(), ⟨(), by simp [positive, bounded], sequences⟩, (), by simpa using keys, (),
      by simpa using later, rfl⟩

theorem length_addressPrefix_le {key : Bytes} (table : Nat) (short : key.length ≤ maxKeyBytes) :
    (addressPrefix table key).length ≤ 8 + 2 * maxKeyBytes + 2 := by
  have := length_escapeInto_le key
  simp only [addressPrefix, List.length_append, length_beBytes]
  omega

/-- A physical key that decodes is the encoding of a valid address and version. -/
theorem StateKey.decode_sound {encoded : Bytes} {key : StateKey}
    (decoded : StateKey.decode encoded = .ok key) : encoded = key.encode ∧ key.Valid := by
  simp only [StateKey.decode, bind_eq_ok, refuse_eq_ok] at decoded
  obtain ⟨-, length, ⟨user, consumed⟩, frame, -, whole, built⟩ := decoded
  simp only [not_not] at length whole
  obtain ⟨rfl, positive, bounded, sequences, short, later⟩ := StateKey.new_eq_ok.mp built
  obtain ⟨rest, split, rfl⟩ := unescape_sound frame
  have noRest : rest = [] := by
    have := congrArg List.length split
    rw [List.length_append, ← whole] at this
    exact List.length_eq_zero_iff.mp (by omega)
  rw [noRest, List.append_nil] at split
  have bits : beNat (encoded.drop (encoded.length - 8)) ≤ maxU64 := by
    have := beNat_lt (encoded.drop (encoded.length - 8))
    rw [List.length_drop, show encoded.length - (encoded.length - 8) = 8 by omega] at this
    unfold maxU64
    omega
  have tables : beNat (encoded.take 8) ≤ maxU64 := by
    have := beNat_lt (encoded.take 8)
    rw [List.length_take, show min 8 encoded.length = 8 by omega] at this
    unfold maxU64
    omega
  refine ⟨?_, positive, lt_of_le_of_ne tables bounded,
    lt_of_le_of_ne (complement_le _) sequences, short, later⟩
  have head : beBytes 8 (beNat (encoded.take 8)) = encoded.take 8 := by
    have := beBytes_beNat (encoded.take 8)
    rwa [List.length_take, show min 8 encoded.length = 8 by omega] at this
  have tail : beBytes 8 (beNat (encoded.drop (encoded.length - 8))) =
      encoded.drop (encoded.length - 8) := by
    have := beBytes_beNat (encoded.drop (encoded.length - 8))
    rwa [List.length_drop, show encoded.length - (encoded.length - 8) = 8 by omega] at this
  simp only [StateKey.encode, seekKey, addressPrefix, complement_complement bits, head, tail,
    ← split]
  rw [List.append_assoc, show encoded.drop (encoded.length - 8) =
    (encoded.drop 8).drop (encoded.length - 16) by rw [List.drop_drop]; congr 1; omega,
    List.take_append_drop, List.take_append_drop]

/-- The encoding of a valid address and version decodes to it. -/
theorem StateKey.decode_encode {key : StateKey} (valid : key.Valid) :
    StateKey.decode key.encode = .ok key := by
  obtain ⟨tableId, user, sequence⟩ := key
  obtain ⟨positive, bounded, sequences, short, later⟩ := valid
  have frameLength := length_addressPrefix_le tableId short
  have frame : ((seekKey tableId user sequence).drop 8).take
      ((seekKey tableId user sequence).length - 16) = escapeInto user := by
    simp only [seekKey, addressPrefix, List.append_assoc, List.length_append, length_beBytes]
    rw [List.drop_append_of_le_length (by simp), List.drop_of_length_le (by simp), List.nil_append,
      List.take_append_of_le_length (by omega), List.take_of_length_le (by omega)]
  have twoBytes : 2 ≤ (escapeInto user).length := by
    cases user with
    | nil => simp [escapeInto]
    | cons byte user =>
        have : 1 ≤ (escapeInto user).length := by
          by_contra empty
          have nil : escapeInto user = [] := List.length_eq_zero_iff.mp (by omega)
          have := unescape_escapeInto user []
          simp [nil, unescape] at this
        simp only [escapeInto]
        split_ifs <;> simp only [List.length_cons] <;> omega
  have unframed := unescape_escapeInto user []
  rw [List.append_nil] at unframed
  have head : beNat ((seekKey tableId user sequence).take 8) = tableId := by
    simp only [seekKey, addressPrefix, List.append_assoc]
    rw [List.take_append_of_le_length (by simp), List.take_of_length_le (by simp),
      beNat_beBytes _ _ (lt_width bounded.le)]
  have tail : beNat ((seekKey tableId user sequence).drop
      ((seekKey tableId user sequence).length - 8)) = complement sequence := by
    rw [length_seekKey, Nat.add_sub_cancel]
    simp only [seekKey]
    rw [List.drop_append_of_le_length le_rfl, List.drop_of_length_le le_rfl, List.nil_append,
      beNat_beBytes _ _ (lt_width (complement_le _))]
  simp only [StateKey.encode] at *
  simp only [StateKey.decode, frame, head, tail, unframed, complement_complement sequences.le]
  have lengths : (seekKey tableId user sequence).length = 16 + (escapeInto user).length := by
    simp [addressPrefix]
    omega
  rw [refuse_of_not _ (by
    simp only [not_not, lengths, maxStateKeyBytes]
    simp only [addressPrefix, List.length_append, length_beBytes] at frameLength
    omega)]
  simp only [ok_bind, ne_eq, not_true_eq_false, refuse_false]
  exact StateKey.new_eq_ok.mpr ⟨rfl, positive, bounded.ne, sequences.ne, short, later⟩

/-! ## Point reads -/

/-- Every state entry decodes. -/
def Uncorrupted (view : View) : Prop :=
  ∀ entry ∈ (view.roots .state).entries,
    (∃ key, StateKey.decode entry.1 = .ok key) ∧ ∃ payload, valuePayload entry.2 = .ok payload

/-- The entries hold a version of an address with this payload. -/
def Holds (entries : List Entry) (table : Nat) (key : Bytes) (sequence : Nat)
    (payload : Option Bytes) : Prop :=
  ∃ encoded, (seekKey table key sequence, encoded) ∈ entries ∧ valuePayload encoded = .ok payload

/-- Of the versions that hold, the newest at or before a sequence has this
payload. -/
def Newest (holds : Nat → Option Bytes → Prop) (sequence : Nat) (payload : Option Bytes) : Prop :=
  ∃ stored ≤ sequence, holds stored payload ∧
    ∀ other ≤ sequence, ∀ payload, holds other payload → other ≤ stored

/-- What a read at a sequence selects: the payload of the newest version, and
nothing when there is none or it is a deletion. -/
def Selects (view : View) (table : Nat) (key : Bytes) (sequence : Nat) (result : Option Bytes) :
    Prop :=
  Newest (Holds (view.roots .state).entries table key) sequence result ∨
    result = none ∧ ∀ stored ≤ sequence, ∀ payload,
      ¬ Holds (view.roots .state).entries table key stored payload

section Reads

variable {view : View} {table sequence : Nat} {key : Bytes}

/-- The entries of an uncorrupted state are versions of valid addresses. -/
theorem Uncorrupted.entry (uncorrupted : Uncorrupted view) {entry : Entry}
    (member : entry ∈ (view.roots .state).entries) :
    ∃ key : StateKey, ∃ payload, key.Valid ∧ StateKey.decode entry.1 = .ok key ∧
      entry.1 = seekKey key.tableId key.key key.sequence ∧
      valuePayload entry.2 = .ok payload := by
  obtain ⟨⟨key, decoded⟩, payload, value⟩ := uncorrupted entry member
  obtain ⟨encoded, valid⟩ := StateKey.decode_sound decoded
  exact ⟨key, payload, valid, decoded, encoded, value⟩

theorem Newest.unique {entries : List Entry} (sorted : Increasing entries)
    {left right : Option Bytes} (hleft : Newest (Holds entries table key) sequence left)
    (hright : Newest (Holds entries table key) sequence right) : left = right := by
  obtain ⟨s, hs, ⟨encoded, member, payload⟩, most⟩ := hleft
  obtain ⟨s', hs', ⟨encoded', member', payload'⟩, most'⟩ := hright
  obtain rfl : s = s' := le_antisymm (most' s hs _ ⟨_, member, payload⟩)
    (most s' hs' _ ⟨_, member', payload'⟩)
  have first := sorted.lookupEntry_eq_some.mpr member
  rw [sorted.lookupEntry_eq_some.mpr member'] at first
  cases first
  rw [payload] at payload'
  exact Except.ok.inj payload'

theorem Selects.unique {left right : Option Bytes} (hleft : Selects view table key sequence left)
    (hright : Selects view table key sequence right) : left = right := by
  rcases hleft with newest | ⟨rfl, absent⟩ <;> rcases hright with newest' | ⟨rfl, absent'⟩
  · exact newest.unique (view.roots .state).increasing newest'
  · obtain ⟨s, hs, holds, -⟩ := newest
    exact absurd holds (absent' s hs _)
  · obtain ⟨s, hs, holds, -⟩ := newest'
    exact absurd holds (absent s hs _)
  · rfl

/-- A version is at or above the seek key of a snapshot exactly when its table,
key and sequence are not before the sought ones. -/
theorem seekKey_le_iff {table' sequence' : Nat} (ht : table ≤ maxU64) (ht' : table' ≤ maxU64)
    (hs : sequence ≤ maxU64) (hs' : sequence' ≤ maxU64) (key' : Bytes) :
    seekKey table key sequence ≤ seekKey table' key' sequence' ↔
      table < table' ∨ table = table' ∧ (key < key' ∨ key = key' ∧ sequence' ≤ sequence) := by
  rw [← not_lt, seekKey_lt_iff ht' ht hs' hs]
  rcases lt_trichotomy table table' with below | rfl | above
  · simp [below, below.ne', below.le]
  · rcases lt_trichotomy key key' with less | rfl | greater
    · simp [less, less.ne', less.le]
    · simp
    · simp [greater, greater.ne', not_lt.mpr greater.le]
  · simp [above, above.ne', not_lt.mpr above.le]

/-- The arguments of a read that passes its input checks. -/
structure Readable (table : Nat) (key : Bytes) (sequence : Nat) : Prop where
  table_pos : table ≠ 0
  table_lt : table < maxU64
  sequence_lt : sequence < maxU64
  key_le : key.length ≤ maxKeyBytes

/-- The first entry at or above the seek key of a read. -/
def firstFrom (view : View) (table : Nat) (key : Bytes) (sequence : Nat) : Option Entry :=
  ((view.roots .state).range (.included (seekKey table key sequence)) .unbounded).head?

theorem length_seekKey_le {key : Bytes} (table sequence : Nat) (short : key.length ≤ maxKeyBytes) :
    (seekKey table key sequence).length ≤ maxKey := by
  have := length_addressPrefix_le table short
  simp only [length_seekKey, maxKey, maxKeyBytes] at *
  omega

theorem get_of_firstFrom_none (readable : Readable table key sequence)
    (first : firstFrom view table key sequence = none) :
    get view table key sequence = .ok none := by
  obtain ⟨positive, bounded, snapshot, short⟩ := readable
  have length := length_seekKey_le table sequence short
  simp only [get, checkSnapshot, checkUserKey, View.seek, checkKey]
  rw [refuse_of_not _ (by simp [positive, bounded.ne]), refuse_of_not _ snapshot.ne,
    refuse_of_not _ (by simpa using short), if_neg (by simpa using length)]
  unfold firstFrom at first
  simp [first]

/-- A read that finds an entry of its address returns the entry's payload, and
one that finds another address returns nothing. -/
theorem get_of_firstFrom (readable : Readable table key sequence) {found encoded : Bytes}
    (first : firstFrom view table key sequence = some (found, encoded)) :
    get view table key sequence =
      if ¬ addressPrefix table key <+: found then .ok none
      else (do
        refuse (found.length ≠ (seekKey table key sequence).length)
          (.corrupt "state seeker returned an unexpected address")
        let stored := complement (beNat (found.drop (addressPrefix table key).length))
        refuse (stored ≤ table ∨ stored > sequence) (.corrupt "invalid state seeker sequence")
        corruptInput (valuePayload encoded)) := by
  obtain ⟨positive, bounded, snapshot, short⟩ := readable
  have length := length_seekKey_le table sequence short
  have front : (seekKey table key sequence).take (addressPrefix table key).length =
      addressPrefix table key := by
    simp [seekKey]
  simp only [get, checkSnapshot, checkUserKey, View.seek, checkKey]
  rw [refuse_of_not _ (by simp [positive, bounded.ne]), refuse_of_not _ snapshot.ne,
    refuse_of_not _ (by simpa using short), if_neg (by simpa using length)]
  unfold firstFrom at first
  simp [first, front]

/-- A stored version at or before the snapshot is found at or above the seek
key. -/
theorem firstFrom_le (readable : Readable table key sequence) {stored : Nat} {encoded : Bytes}
    (visible : stored ≤ sequence)
    (member : (seekKey table key stored, encoded) ∈ (view.roots .state).entries) :
    ∃ first, firstFrom view table key sequence = some first ∧
      first.1 ≤ seekKey table key stored := by
  obtain ⟨-, bounded, snapshot, -⟩ := readable
  have inRange : (seekKey table key stored, encoded) ∈
      (view.roots .state).range (.included (seekKey table key sequence)) .unbounded := by
    refine OrdMap.mem_range.mpr ⟨member, ?_, rfl⟩
    simp only [Bound.above, decide_eq_true_eq]
    exact (seekKey_le_iff bounded.le bounded.le snapshot.le (by omega) key).mpr
      (.inr ⟨rfl, .inr ⟨rfl, visible⟩⟩)
  cases first : firstFrom view table key sequence with
  | none =>
      unfold firstFrom at first
      rw [List.head?_eq_none_iff.mp first] at inRange
      simp at inRange
  | some entry =>
      exact ⟨entry, rfl, ((view.roots .state).increasing_range _ _).head_le first inRange⟩

/-- A read of an uncorrupted state succeeds and selects the newest version at or
before its sequence. -/
theorem get_selects (uncorrupted : Uncorrupted view) (readable : Readable table key sequence) :
    ∃ result, get view table key sequence = .ok result ∧
      Selects view table key sequence result := by
  have bounded := readable.table_lt
  have snapshot := readable.sequence_lt
  cases first : firstFrom view table key sequence with
  | none =>
      refine ⟨none, get_of_firstFrom_none readable first, .inr ⟨rfl, ?_⟩⟩
      rintro stored visible payload ⟨encoded, member, -⟩
      obtain ⟨entry, some, -⟩ := firstFrom_le readable visible member
      simp [first] at some
  | some entry =>
      obtain ⟨found, encoded⟩ := entry
      obtain ⟨member, above, -⟩ := OrdMap.mem_range.mp (List.mem_of_head? first)
      obtain ⟨⟨table', key', sequence'⟩, payload, valid, -, shape, value⟩ :=
        uncorrupted.entry member
      obtain ⟨-, bounded', snapshot', -, later⟩ := valid
      simp only at shape bounded' snapshot' later value
      simp only [Bound.above, decide_eq_true_eq] at above
      rw [shape, seekKey_le_iff bounded.le bounded'.le snapshot.le snapshot'.le] at above
      rw [get_of_firstFrom readable first]
      by_cases same : addressPrefix table key <+: found
      · obtain ⟨rest, joined⟩ := same
        rw [shape, seekKey] at joined
        obtain ⟨rfl, rfl, rfl⟩ := addressPrefix_append_inj bounded.le bounded'.le joined
        have visible : sequence' ≤ sequence := by simpa using above
        have stored : complement (beNat (found.drop (addressPrefix table key).length)) =
            sequence' := by
          rw [shape, seekKey, List.drop_append_of_le_length le_rfl, List.drop_of_length_le le_rfl,
            List.nil_append, beNat_beBytes _ _ (lt_width (complement_le _)),
            complement_complement snapshot'.le]
        have current : ¬ (sequence' ≤ table ∨ sequence' > sequence) := by omega
        refine ⟨payload, ?_, .inl ⟨sequence', visible, ⟨encoded, shape ▸ member, value⟩, ?_⟩⟩
        · rw [if_neg (by simp [shape, seekKey]), refuse_of_not _ (by simp [shape]), stored]
          simp [refuse_of_not _ current, corruptInput, value]
        · rintro other otherVisible _ ⟨_, otherMember, -⟩
          obtain ⟨entry, found', least⟩ := firstFrom_le readable otherVisible otherMember
          rw [first] at found'
          cases found'
          simp only [shape, seekKey_le_iff bounded.le bounded.le snapshot'.le
            (show other ≤ maxU64 by omega)] at least
          simpa using least
      · refine ⟨none, if_pos same, Or.inr ⟨rfl, ?_⟩⟩
        rintro stored visible _ ⟨_, storedMember, -⟩
        obtain ⟨entry, found', least⟩ := firstFrom_le readable visible storedMember
        rw [first] at found'
        cases found'
        simp only [shape, seekKey_le_iff bounded'.le bounded.le snapshot'.le
          (show stored ≤ maxU64 by omega)] at least
        -- The first entry lies between the seek key and a version of the address.
        have address : table = table' ∧ key = key' := by
          rcases above with less | ⟨rfl, less | ⟨rfl, -⟩⟩
          · omega
          · rcases least with less' | ⟨-, less' | ⟨same', -⟩⟩
            · omega
            · exact absurd (less.trans less') (lt_irrefl _)
            · exact absurd (same' ▸ less) (lt_irrefl _)
          · exact ⟨rfl, rfl⟩
        obtain ⟨rfl, rfl⟩ := address
        exact same ⟨_, shape.symm⟩

/-- A read returns exactly what the snapshot selects. -/
theorem get_eq_ok_iff (uncorrupted : Uncorrupted view) (readable : Readable table key sequence)
    {result : Option Bytes} :
    get view table key sequence = .ok result ↔ Selects view table key sequence result := by
  obtain ⟨found, value, selects⟩ := get_selects uncorrupted readable
  rw [value, Except.ok.injEq]
  exact ⟨fun same => same ▸ selects, fun other => selects.unique other⟩

/-! ## Scans -/

/-- A decoded version of a table: its key, its sequence and its payload. -/
abbrev Row := Bytes × Nat × Option Bytes

/-- Keys ascend, and versions of one key descend. -/
def Row.Before (left right : Row) : Prop :=
  left.1 < right.1 ∨ left.1 = right.1 ∧ right.2.1 < left.2.1

/-- The walk of a scan on decoded versions. -/
def choose (sequence : Nat) : Option Bytes → List Row → List Entry
  | _, [] => []
  | selected, (key, stored, payload) :: rest =>
      if stored > sequence ∨ selected = some key then choose sequence selected rest
      else
        match payload with
        | some value => (key, value) :: choose sequence (some key) rest
        | none => choose sequence (some key) rest

/-- An entry holds a decoded version of a table. -/
def Decodes (table : Nat) (entry : Entry) (row : Row) : Prop :=
  StateKey.decode entry.1 = .ok ⟨table, row.1, row.2.1⟩ ∧ valuePayload entry.2 = .ok row.2.2

theorem select_eq_choose (selected : Option Bytes) {entries : List Entry} {rows : List Row}
    (decoded : List.Forall₂ (Decodes table) entries rows) :
    select table sequence selected entries = (choose sequence selected rows).map .ok := by
  induction decoded generalizing selected with
  | nil => rfl
  | @cons entry row entries rows head tail ih =>
      obtain ⟨key, stored, payload⟩ := row
      obtain ⟨keys, values⟩ := head
      simp only [select, keys, values, corruptInput, choose, ne_eq, not_true_eq_false, if_false]
      split_ifs
      · exact ih selected
      · cases payload with
        | none => exact ih _
        | some value => simp [ih]

section Newest

variable {first : Bytes} {stored : Nat} {payload : Option Bytes} {rest : List Row}

/-- A version newer than the snapshot does not count. -/
theorem newest_cons_of_newer (newer : stored > sequence) (value : Option Bytes) :
    Newest (fun s p => (key, s, p) ∈ (first, stored, payload) :: rest) sequence value ↔
      Newest (fun s p => (key, s, p) ∈ rest) sequence value := by
  have skip {s : Nat} (hs : s ≤ sequence) (p : Option Bytes) :
      (key, s, p) ∈ (first, stored, payload) :: rest ↔ (key, s, p) ∈ rest := by
    have : s ≠ stored := by omega
    simp [this]
  constructor
  · rintro ⟨s, hs, member, most⟩
    exact ⟨s, hs, (skip hs _).mp member, fun s' hs' p m => most s' hs' p ((skip hs' p).mpr m)⟩
  · rintro ⟨s, hs, member, most⟩
    exact ⟨s, hs, (skip hs _).mpr member, fun s' hs' p m => most s' hs' p ((skip hs' p).mp m)⟩

/-- A version of another key does not count. -/
theorem newest_cons_of_ne (hne : key ≠ first) (value : Option Bytes) :
    Newest (fun s p => (key, s, p) ∈ (first, stored, payload) :: rest) sequence value ↔
      Newest (fun s p => (key, s, p) ∈ rest) sequence value := by
  simp [Newest, hne]

/-- The first visible version of a key is its newest. -/
theorem newest_cons_self (visible : stored ≤ sequence)
    (later : ∀ row ∈ rest, Row.Before (first, stored, payload) row) (value : Option Bytes) :
    Newest (fun s p => (first, s, p) ∈ (first, stored, payload) :: rest) sequence value ↔
      value = payload := by
  have older {s : Nat} {p : Option Bytes} (member : (first, s, p) ∈ rest) : s < stored := by
    rcases later _ member with less | ⟨-, less⟩
    · exact absurd less (lt_irrefl _)
    · exact less
  constructor
  · rintro ⟨s, hs, member, most⟩
    have := most stored visible payload List.mem_cons_self
    rcases List.mem_cons.mp member with same | member
    · cases same
      rfl
    · have := older member
      omega
  · rintro rfl
    refine ⟨stored, visible, List.mem_cons_self, fun s' hs' p m => ?_⟩
    rcases List.mem_cons.mp m with same | m
    · cases same
      rfl
    · exact (older m).le

end Newest

/-- A walk over sorted versions chooses, in key order, the newest visible value
of every key but the one already selected. -/
theorem choose_spec (selected : Option Bytes) {rows : List Row}
    (sorted : rows.Pairwise Row.Before) (after : ∀ key ∈ selected, ∀ row ∈ rows, key ≤ row.1) :
    Increasing (choose sequence selected rows) ∧
      ∀ key value, (key, value) ∈ choose sequence selected rows ↔
        selected ≠ some key ∧ Newest (fun s p => (key, s, p) ∈ rows) sequence (some value) := by
  induction rows generalizing selected with
  | nil => simp [choose, Increasing, Newest]
  | cons row rest ih =>
      obtain ⟨first, stored, payload⟩ := row
      obtain ⟨later, tail⟩ := List.pairwise_cons.mp sorted
      have afterFirst : ∀ row ∈ rest, first ≤ row.1 := fun row member => by
        rcases later row member with less | ⟨same, -⟩
        · exact less.le
        · exact same.le
      simp only [choose]
      split_ifs with skip
      · obtain ⟨increasing, members⟩ := ih selected tail
          fun key hkey row member => after key hkey row (List.mem_cons_of_mem _ member)
        refine ⟨increasing, fun key value => ?_⟩
        rw [members key value]
        rcases skip with newer | rfl
        · rw [newest_cons_of_newer newer]
        · by_cases same : key = first
          · simp [same]
          · rw [newest_cons_of_ne same]
      · simp only [not_or, gt_iff_lt, not_lt] at skip
        obtain ⟨visible, fresh⟩ := skip
        obtain ⟨increasing, members⟩ := ih (some first) tail
          fun key hkey row member => Option.some.inj hkey ▸ afterFirst row member
        -- Keys after the head were not selected before.
        have unselected {key : Bytes} {value : Option Bytes} (hne : key ≠ first)
            (newest : Newest (fun s p => (key, s, p) ∈ rest) sequence value) :
            selected ≠ some key := by
          rintro rfl
          obtain ⟨s, -, member, -⟩ := newest
          exact hne (le_antisymm (after key rfl _ List.mem_cons_self) (afterFirst _ member))
        have whole (key value : Bytes) :
            (key = first ∧ payload = some value) ∨
                (key, value) ∈ choose sequence (some first) rest ↔
              selected ≠ some key ∧
                Newest (fun s p => (key, s, p) ∈ (first, stored, payload) :: rest) sequence
                  (some value) := by
          rw [members key value]
          by_cases same : key = first
          · subst same
            rw [newest_cons_self visible later]
            simp [fresh, eq_comm]
          · have different : some first ≠ some key := fun h => same (Option.some.inj h).symm
            rw [newest_cons_of_ne same]
            simp only [same, false_and, false_or, different, true_and, ne_eq, not_false_eq_true]
            exact ⟨fun newest => ⟨unselected same newest, newest⟩, And.right⟩
        cases payload with
        | none =>
            refine ⟨increasing, fun key value => ?_⟩
            rw [← whole]
            simp
        | some value =>
            refine ⟨List.pairwise_cons.mpr ⟨fun entry member => ?_, increasing⟩, fun key v => ?_⟩
            · obtain ⟨hne, s, -, inRest, -⟩ := (members entry.1 entry.2).mp member
              exact lt_of_le_of_ne (afterFirst _ inRest) fun same => hne (congrArg some same)
            · rw [← whole]
              simp [eq_comm]

/-- Sorted physical entries of one table are sorted decoded versions. -/
theorem exists_rows (bounded : table ≤ maxU64) {entries : List Entry} (sorted : Increasing entries)
    (decoded : ∀ entry ∈ entries, ∃ row, Decodes table entry row) :
    ∃ rows, List.Forall₂ (Decodes table) entries rows ∧ rows.Pairwise Row.Before ∧
      ∀ key s p, (key, s, p) ∈ rows ↔ Holds entries table key s p := by
  induction entries with
  | nil => exact ⟨[], .nil, .nil, by simp [Holds]⟩
  | cons entry entries ih =>
      obtain ⟨later, tail⟩ := List.pairwise_cons.mp sorted
      obtain ⟨rows, all, ordered, members⟩ :=
        ih tail fun entry member => decoded entry (List.mem_cons_of_mem _ member)
      obtain ⟨⟨key, s, p⟩, keys, values⟩ := decoded entry List.mem_cons_self
      obtain ⟨shape, valid⟩ := StateKey.decode_sound keys
      obtain ⟨encodedKey, encodedValue⟩ := entry
      simp only [StateKey.encode] at shape values
      subst shape
      refine ⟨(key, s, p) :: rows, .cons ⟨keys, values⟩ all, List.pairwise_cons.mpr ⟨?_, ordered⟩, ?_⟩
      · rintro ⟨key', s', p'⟩ member
        obtain ⟨encoded', inRest, -⟩ := (members key' s' p').mp member
        obtain ⟨⟨row, keys', -⟩, less⟩ :=
          And.intro (decoded _ (List.mem_cons_of_mem _ inRest)) (later _ inRest)
        obtain ⟨shape', valid'⟩ := StateKey.decode_sound keys'
        obtain ⟨-, -, rfl⟩ := seekKey_inj bounded bounded valid'.sequence_lt shape'
        rw [seekKey_lt_iff bounded bounded valid.sequence_lt.le valid'.sequence_lt.le] at less
        simpa [Row.Before] using less
      · intro key' s' p'
        rw [List.mem_cons, members]
        constructor
        · rintro (same | ⟨encoded', inRest, value'⟩)
          · cases same
            exact ⟨encodedValue, List.mem_cons_self, values⟩
          · exact ⟨encoded', List.mem_cons_of_mem _ inRest, value'⟩
        · rintro ⟨encoded', member, value'⟩
          rcases List.mem_cons.mp member with head | inRest
          · obtain ⟨same, rfl⟩ := Prod.mk.inj head
            obtain ⟨-, rfl, rfl⟩ := seekKey_inj bounded bounded valid.sequence_lt same
            rw [values] at value'
            exact .inl (by rw [Except.ok.inj value'])
          · exact .inr ⟨encoded', inRest, value'⟩

/-- The keys of a bound pass the user-key ceiling. -/
def ShortBound (bound : Bound Bytes) : Prop := ∀ key ∈ boundKey bound, key.length ≤ maxKeyBytes

theorem checkBound_of_short {bound : Bound Bytes} (short : ShortBound bound) :
    checkBound checkUserKey bound = .ok () := by
  cases bound with
  | unbounded => rfl
  | included key | excluded key =>
      exact refuse_of_not _ (by simpa using short key rfl)

theorem length_afterKey (table : Nat) (key : Bytes) :
    (afterKey table key).length ≤ (addressPrefix table key).length + 1 := by
  simp [afterKey]

/-- The physical bounds of a scan respect the physical key ceiling. -/
theorem length_lowerKey_le {lower : Bound Bytes} (short : ShortBound lower) (table sequence : Nat) :
    (lowerKey table sequence lower).length ≤ maxKey := by
  cases lower with
  | unbounded => simp [lowerKey, maxKey]
  | included key => exact length_seekKey_le table sequence (short key rfl)
  | excluded key =>
      have := length_addressPrefix_le table (short key rfl)
      have := length_afterKey table key
      simp only [lowerKey, maxKey, maxKeyBytes] at *
      omega

theorem length_upperKey_le {upper : Bound Bytes} (short : ShortBound upper) (table : Nat) :
    (upperKey table upper).length ≤ maxKey := by
  cases upper with
  | unbounded => simp [upperKey, maxKey]
  | included key =>
      have := length_addressPrefix_le table (short key rfl)
      have := length_afterKey table key
      simp only [upperKey, maxKey, maxKeyBytes] at *
      omega
  | excluded key =>
      have := length_addressPrefix_le table (short key rfl)
      simp only [upperKey, maxKey, maxKeyBytes] at *
      omega

/-- The physical range of a scan. -/
def scanned (view : View) (table sequence : Nat) (lower upper : Bound Bytes) : List Entry :=
  (view.roots .state).range (.included (lowerKey table sequence lower))
    (.excluded (upperKey table upper))

theorem scan_eq_select (positive : table ≠ 0) (bounded : table < maxU64)
    (snapshot : sequence < maxU64) {lower upper : Bound Bytes} (lowerShort : ShortBound lower)
    (upperShort : ShortBound upper) :
    scan view table sequence lower upper =
      .ok (select table sequence none (scanned view table sequence lower upper)) := by
  have atLower := length_lowerKey_le lowerShort table sequence
  have atUpper := length_upperKey_le upperShort table
  simp only [scan, checkSnapshot, View.scan, checkBound_of_short lowerShort,
    checkBound_of_short upperShort]
  rw [refuse_of_not _ (by simp [positive, bounded.ne]), refuse_of_not _ snapshot.ne]
  simp only [ok_bind, checkBound, boundKey, checkKey]
  rw [if_neg (by simpa using atLower), if_neg (by simpa using atUpper)]
  rfl

/-- The physical range of a scan holds the versions of its table between its
bounds, except those newer than the snapshot at an included lower key. -/
theorem mem_scanned (uncorrupted : Uncorrupted view) (bounded : table < maxU64)
    (snapshot : sequence < maxU64) {lower upper : Bound Bytes} {entry : Entry} :
    entry ∈ scanned view table sequence lower upper ↔
      entry ∈ (view.roots .state).entries ∧ ∃ row, Decodes table entry row ∧
        lower.above row.1 ∧ upper.below row.1 ∧ (lower = .included row.1 → row.2.1 ≤ sequence) := by
  unfold scanned
  rw [OrdMap.mem_range]
  refine and_congr_right fun member => ?_
  obtain ⟨⟨table', key', stored⟩, payload, valid, decoded, shape, value⟩ :=
    uncorrupted.entry member
  have unique {row : Row} (same : Decodes table entry row) :
      table = table' ∧ row = (key', stored, payload) := by
    obtain ⟨k, s, p⟩ := row
    have keys := same.1
    have values := same.2
    rw [decoded] at keys
    rw [value] at values
    cases keys
    cases values
    exact ⟨rfl, rfl⟩
  simp only [Bound.above, Bound.below, decide_eq_true_eq]
  rw [shape, lowerKey_le_iff bounded.le valid.table_lt.le snapshot.le valid.sequence_lt.le,
    lt_upperKey_iff bounded valid.table_lt.le]
  simp only
  constructor
  · rintro ⟨above | ⟨rfl, above, visible⟩, below | ⟨same, below⟩⟩
    · omega
    · omega
    · omega
    · exact ⟨(key', stored, payload), ⟨decoded, value⟩, above, below, visible⟩
  · rintro ⟨row, decodes, above, below, visible⟩
    obtain ⟨rfl, rfl⟩ := unique decodes
    exact ⟨.inr ⟨rfl, above, visible⟩, .inr ⟨rfl, below⟩⟩

/-- A key has the same newest version in the range of a scan as in the whole
state, if it lies between the bounds, and none otherwise. -/
theorem newest_scanned (uncorrupted : Uncorrupted view) (bounded : table < maxU64)
    (snapshot : sequence < maxU64) {lower upper : Bound Bytes} {payload : Option Bytes} :
    Newest (Holds (scanned view table sequence lower upper) table key) sequence payload ↔
      lower.above key ∧ upper.below key ∧
        Newest (Holds (view.roots .state).entries table key) sequence payload := by
  have holds_iff {s : Nat} (hs : s ≤ sequence) (p : Option Bytes) :
      Holds (scanned view table sequence lower upper) table key s p ↔
        lower.above key ∧ upper.below key ∧ Holds (view.roots .state).entries table key s p := by
    constructor
    · rintro ⟨encoded, member, value⟩
      obtain ⟨stored, row, ⟨decoded, -⟩, above, below, -⟩ :=
        (mem_scanned uncorrupted bounded snapshot).mp member
      obtain ⟨shape, valid⟩ := StateKey.decode_sound decoded
      obtain ⟨-, rfl, -⟩ := seekKey_inj bounded.le bounded.le valid.sequence_lt shape
      exact ⟨above, below, encoded, stored, value⟩
    · rintro ⟨above, below, encoded, stored, value⟩
      refine ⟨encoded, (mem_scanned uncorrupted bounded snapshot).mpr ⟨stored, ?_⟩, value⟩
      obtain ⟨stateKey, -, valid, decoded, shape, -⟩ := uncorrupted.entry stored
      obtain ⟨table', key', s'⟩ := stateKey
      obtain ⟨rfl, rfl, rfl⟩ := seekKey_inj bounded.le valid.table_lt.le valid.sequence_lt shape
      exact ⟨(key, s, p), ⟨decoded, value⟩, above, below, fun _ => hs⟩
  constructor
  · rintro ⟨s, hs, holds, most⟩
    obtain ⟨above, below, holds⟩ := (holds_iff hs _).mp holds
    exact ⟨above, below, s, hs, holds,
      fun s' hs' p held => most s' hs' p ((holds_iff hs' p).mpr ⟨above, below, held⟩)⟩
  · rintro ⟨above, below, s, hs, holds, most⟩
    exact ⟨s, hs, (holds_iff hs _).mpr ⟨above, below, holds⟩,
      fun s' hs' p held => most s' hs' p ((holds_iff hs' p).mp held).2.2⟩

/-- A read returns a value exactly when the newest version is that value. -/
theorem get_eq_some_iff (uncorrupted : Uncorrupted view) (positive : table ≠ 0)
    (bounded : table < maxU64) (snapshot : sequence < maxU64) {value : Bytes} :
    get view table key sequence = .ok (some value) ↔
      Newest (Holds (view.roots .state).entries table key) sequence (some value) := by
  by_cases short : key.length ≤ maxKeyBytes
  · rw [get_eq_ok_iff uncorrupted ⟨positive, bounded, snapshot, short⟩]
    simp [Selects]
  · constructor
    · intro found
      simp only [get, checkUserKey, bind_eq_ok, refuse_eq_ok] at found
      obtain ⟨-, -, -, fits, -⟩ := found
      exact absurd (not_lt.mp fits) short
    · rintro ⟨s, -, ⟨encoded, member, -⟩, -⟩
      obtain ⟨stateKey, -, valid, -, shape, -⟩ := uncorrupted.entry member
      obtain ⟨-, rfl, -⟩ := seekKey_inj bounded.le valid.table_lt.le valid.sequence_lt shape
      exact absurd valid.key_le short

/-- A scan of an uncorrupted state succeeds and lists, in strictly increasing
order, exactly the keys between its bounds whose read returns a value. -/
theorem scan_spec (uncorrupted : Uncorrupted view) (positive : table ≠ 0)
    (bounded : table < maxU64) (snapshot : sequence < maxU64) {lower upper : Bound Bytes}
    (lowerShort : ShortBound lower) (upperShort : ShortBound upper) :
    ∃ chosen, scan view table sequence lower upper = .ok (chosen.map .ok) ∧
      Increasing chosen ∧ ∀ key value, (key, value) ∈ chosen ↔
        lower.above key ∧ upper.below key ∧ get view table key sequence = .ok (some value) := by
  obtain ⟨rows, decoded, ordered, members⟩ := exists_rows bounded.le
    ((view.roots .state).increasing_range _ _)
    fun entry (member : entry ∈ scanned view table sequence lower upper) => by
      obtain ⟨-, row, decodes, -⟩ := (mem_scanned uncorrupted bounded snapshot).mp member
      exact ⟨row, decodes⟩
  have walked : Increasing (choose sequence none rows) ∧ _ := choose_spec none ordered (by simp)
  obtain ⟨increasing, chosen⟩ := walked
  refine ⟨_, ?_, increasing, fun key value => ?_⟩
  · rw [scan_eq_select positive bounded snapshot lowerShort upperShort]
    exact congrArg _ (select_eq_choose none decoded)
  · rw [chosen, get_eq_some_iff uncorrupted positive bounded snapshot,
      ← newest_scanned uncorrupted bounded snapshot]
    simp [members, scanned]

end Reads

end BlopDb.Storage.Mvcc
