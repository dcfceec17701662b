/-
# Collection of obsolete history

Collection builds roots without the state versions and outcomes that no reader
at or above a floor can need.  The one pass over the state keeps every version
above the floor and, of each address, the first version at or below it; it
relies on the physical order, which lists the versions of an address together
and newest first.
-/

import BlopDb.Storage.MvccSpec

namespace BlopDb.Storage

open BlopDb.Lib
open Mvcc (StateKey)

/-- Malformed persisted keys are corruption. -/
def persisted {α : Type} (result : Except Error α) : Except Error α := Mvcc.corruptInput result

/-- The sequence in a physical key of a system tree. -/
def entrySequence (tree : TreeId) (key : Bytes) : Except Error Nat := do
  let sequence ← match tree with
    | .state => do
        let key ← persisted (StateKey.decode key)
        pure key.sequence
    | .catalogue => do
        refuse (key.length ≠ 16) (.corrupt "invalid catalogue key length")
        let table := beNat (key.take 8)
        let sequence := Mvcc.complement (beNat (key.drop 8))
        refuse (table = 0 ∨ table > sequence) (.corrupt "invalid catalogue version identity")
        pure sequence
    | .policy | .outcomes | .cursors => do
        refuse (key.length ≠ 8) (.corrupt "invalid system key length")
        let sequence := beNat key
        refuse (tree ≠ .policy ∧ sequence = 0) (.corrupt "reserved system key")
        pure sequence
  refuse (sequence = maxU64) (.corrupt "reserved system sequence or ID")
  return sequence

namespace Collect

/-- Keep versions above the floor, and the first version at or below it as the
baseline of its address.  The baseline is the last address that has one. -/
def keepState (key : StateKey) (floor : Nat) (baseline : Option (Nat × Bytes)) :
    Bool × Option (Nat × Bytes) :=
  if key.sequence > floor then (true, baseline)
  else if baseline = some (key.tableId, key.key) then (false, baseline)
  else (true, some (key.tableId, key.key))

/-- Delete a physical key. -/
def delete (tree : Tree) (key : Bytes) : Except Error Tree := do
  checkKey key
  return tree.erase key

/-- Walk the state entries of the source and delete the obsolete versions. -/
def collectState (floor : Nat) :
    Option (Nat × Bytes) → List Entry → Tree → Nat → Except Error (Tree × Nat)
  | _, [], tree, removed => .ok (tree, removed)
  | baseline, (encoded, _) :: rest, tree, removed => do
      let key ← StateKey.decode encoded
      match keepState key floor baseline with
      | (true, baseline) => collectState floor baseline rest tree removed
      | (false, baseline) => do
          let tree ← delete tree encoded
          collectState floor baseline rest tree (removed + 1)

/-- Walk the outcome entries of the source and delete those at or below the
floor. -/
def collectOutcomes (floor : Nat) : List Entry → Tree → Nat → Except Error (Tree × Nat)
  | [], tree, removed => .ok (tree, removed)
  | (key, _) :: rest, tree, removed => do
      let sequence ← entrySequence .outcomes key
      if sequence > floor then collectOutcomes floor rest tree removed
      else do
        let tree ← delete tree key
        collectOutcomes floor rest tree (removed + 1)

/-- Roots with eligible history removed, and the numbers of removed versions and
outcomes. -/
def collectView (poisoned : Bool) (historyFloor : Nat) (source : View) (floor frontier : Nat) :
    Except Error (View × Nat × Nat) := do
  refuse (poisoned = true) .needsRecovery
  refuse (floor > frontier ∨ floor < historyFloor) (.invalidInput "invalid collection floor")
  let state := source.roots .state
  let outcomes := source.roots .outcomes
  let (state, versions) ← collectState floor none state.entries state 0
  let (outcomes, records) ← collectOutcomes floor outcomes.entries outcomes 0
  let roots := fun tree => match tree with
    | .state => state
    | .outcomes => outcomes
    | other => source.roots other
  return (⟨roots⟩, versions, records)

/-! ## What the walk keeps -/

/-- The state entries that the walk keeps, when all keys decode. -/
def kept (floor : Nat) (keyOf : Entry → StateKey) : Option (Nat × Bytes) → List Entry → List Entry
  | _, [] => []
  | baseline, entry :: rest =>
      match keepState (keyOf entry) floor baseline with
      | (true, baseline) => entry :: kept floor keyOf baseline rest
      | (false, baseline) => kept floor keyOf baseline rest

/-- The physical order of addresses and versions. -/
def Before (left right : StateKey) : Prop :=
  left.tableId < right.tableId ∨ left.tableId = right.tableId ∧
    (left.key < right.key ∨ left.key = right.key ∧ right.sequence < left.sequence)

/-- A version of the same address. -/
def SameAddress (left right : StateKey) : Prop :=
  left.tableId = right.tableId ∧ left.key = right.key

/-- An address is not beyond that of a version. -/
def NotBeyond (address : Nat × Bytes) (key : StateKey) : Prop :=
  address.1 < key.tableId ∨ address.1 = key.tableId ∧ address.2 ≤ key.key

section Kept

variable {floor : Nat} {keyOf : Entry → StateKey} {baseline : Option (Nat × Bytes)}
variable {entries : List Entry}

theorem kept_sublist : (kept floor keyOf baseline entries).Sublist entries := by
  induction entries generalizing baseline with
  | nil => exact .slnil
  | cons entry rest ih =>
      rw [kept]
      split
      · exact ih.cons_cons _
      · exact ih.cons _

theorem mem_kept_of_gt {entry : Entry} (member : entry ∈ entries)
    (above : floor < (keyOf entry).sequence) : entry ∈ kept floor keyOf baseline entries := by
  induction entries generalizing baseline with
  | nil => cases member
  | cons first rest ih =>
      rcases List.mem_cons.mp member with rfl | later
      · simp [kept, keepState, above]
      · rw [kept]
        split
        · exact List.mem_cons_of_mem _ (ih later)
        · exact ih later

/-- A dropped version has a newer one at or below the floor, or its address
already has a baseline. -/
theorem newer_of_not_kept {entry : Entry}
    (sorted : entries.Pairwise fun left right => Before (keyOf left) (keyOf right))
    (member : entry ∈ entries) (dropped : entry ∉ kept floor keyOf baseline entries) :
    baseline = some ((keyOf entry).tableId, (keyOf entry).key) ∨
      ∃ newer ∈ entries, SameAddress (keyOf newer) (keyOf entry) ∧
        (keyOf newer).sequence ≤ floor ∧ (keyOf entry).sequence < (keyOf newer).sequence := by
  induction entries generalizing baseline with
  | nil => cases member
  | cons first rest ih =>
      obtain ⟨later, sorted⟩ := List.pairwise_cons.mp sorted
      rw [kept, keepState] at dropped
      rcases List.mem_cons.mp member with rfl | inRest
      · left
        by_contra other
        by_cases above : (keyOf entry).sequence > floor
        · simp [above] at dropped
        · simp [above, other] at dropped
      · have fromRest {baseline' : Option (Nat × Bytes)}
            (dropped : entry ∉ kept floor keyOf baseline' rest) :
            baseline' = some ((keyOf entry).tableId, (keyOf entry).key) ∨
              ∃ newer ∈ first :: rest, SameAddress (keyOf newer) (keyOf entry) ∧
                (keyOf newer).sequence ≤ floor ∧
                (keyOf entry).sequence < (keyOf newer).sequence := by
          rcases ih sorted inRest dropped with same | ⟨newer, inside, rest⟩
          · exact .inl same
          · exact .inr ⟨newer, List.mem_cons_of_mem _ inside, rest⟩
        split_ifs at dropped with above same
        · exact fromRest fun inKept => dropped (List.mem_cons_of_mem _ inKept)
        · exact fromRest dropped
        · -- The first entry became the baseline of its address.
          rcases fromRest fun inKept => dropped (List.mem_cons_of_mem _ inKept) with
            address | newer
          · obtain ⟨tables, keys⟩ := Prod.mk.inj (Option.some.inj address)
            refine .inr ⟨first, List.mem_cons_self, ⟨tables, keys⟩, not_lt.mp above, ?_⟩
            rcases later entry inRest with less | ⟨-, less | ⟨-, newer⟩⟩
            · exact absurd tables less.ne
            · exact absurd keys less.ne
            · exact newer
          · exact .inr newer

/-- Of each address at most one kept version is at or below the floor, and none
when the address already has a baseline. -/
theorem kept_unique
    (sorted : entries.Pairwise fun left right => Before (keyOf left) (keyOf right))
    (ahead : ∀ address ∈ baseline, ∀ entry ∈ entries, NotBeyond address (keyOf entry)) :
    (∀ entry ∈ kept floor keyOf baseline entries, (keyOf entry).sequence ≤ floor →
        baseline ≠ some ((keyOf entry).tableId, (keyOf entry).key)) ∧
      ∀ left ∈ kept floor keyOf baseline entries, ∀ right ∈ kept floor keyOf baseline entries,
        SameAddress (keyOf left) (keyOf right) → (keyOf left).sequence ≤ floor →
          (keyOf right).sequence ≤ floor → left = right := by
  induction entries generalizing baseline with
  | nil => simp [kept]
  | cons first rest ih =>
      obtain ⟨later, sorted⟩ := List.pairwise_cons.mp sorted
      have aheadRest : ∀ address ∈ baseline, ∀ entry ∈ rest, NotBeyond address (keyOf entry) :=
        fun address isBaseline entry member =>
          ahead address isBaseline entry (List.mem_cons_of_mem _ member)
      rw [kept, keepState]
      split_ifs with above same
      · obtain ⟨fresh, unique⟩ := ih sorted aheadRest
        refine ⟨?_, ?_⟩
        · intro entry member atFloor
          rcases List.mem_cons.mp member with rfl | inRest
          · omega
          · exact fresh entry inRest atFloor
        · intro left inLeft right inRight address leftFloor rightFloor
          rcases List.mem_cons.mp inLeft with rfl | inLeft
          · omega
          · rcases List.mem_cons.mp inRight with rfl | inRight
            · omega
            · exact unique left inLeft right inRight address leftFloor rightFloor
      · exact ih sorted aheadRest
      · have aheadNew : ∀ address ∈ some ((keyOf first).tableId, (keyOf first).key),
            ∀ entry ∈ rest, NotBeyond address (keyOf entry) := by
          rintro _ ⟨⟩ entry member
          rcases later entry member with less | ⟨tables, less | ⟨keys, -⟩⟩
          · exact .inl less
          · exact .inr ⟨tables, less.le⟩
          · exact .inr ⟨tables, keys.le⟩
        obtain ⟨fresh, unique⟩ := ih sorted aheadNew
        have apart : ∀ entry ∈ kept floor keyOf (some ((keyOf first).tableId, (keyOf first).key))
            rest, (keyOf entry).sequence ≤ floor → ¬ SameAddress (keyOf first) (keyOf entry) := by
          rintro entry member atFloor ⟨tables, keys⟩
          exact fresh entry member atFloor (by rw [tables, keys])
        refine ⟨?_, ?_⟩
        · intro entry member atFloor address
          rcases List.mem_cons.mp member with rfl | inRest
          · exact same address
          · have inEntries := kept_sublist.subset inRest
            have behind := ahead _ address first List.mem_cons_self
            refine apart entry inRest atFloor ?_
            rcases later entry inEntries with less | ⟨tables, less | ⟨keys, -⟩⟩
            · rcases behind with before | ⟨tables, -⟩
              · exact absurd (before.trans less) (lt_irrefl _)
              · exact absurd tables.symm less.ne
            · rcases behind with before | ⟨-, notBeyond⟩
              · exact absurd tables before.ne'
              · exact absurd less (not_lt.mpr notBeyond)
            · exact ⟨tables, keys⟩
        · intro left inLeft right inRight address leftFloor rightFloor
          rcases List.mem_cons.mp inLeft with rfl | inLeft
          · rcases List.mem_cons.mp inRight with rfl | inRight
            · rfl
            · exact absurd address (apart right inRight rightFloor)
          · rcases List.mem_cons.mp inRight with rfl | inRight
            · exact absurd ⟨address.1.symm, address.2.symm⟩ (apart left inLeft leftFloor)
            · exact unique left inLeft right inRight address leftFloor rightFloor

end Kept

/-! ## The collected trees -/

section Walks

variable {floor : Nat}

theorem erase_middle {tree : Tree} {left right : List Entry} {entry : Entry}
    (entries : tree.entries = left ++ entry :: right) : (tree.erase entry.1).entries = left ++ right := by
  have sorted := tree.increasing
  rw [entries, Increasing, List.pairwise_append, List.pairwise_cons] at sorted
  obtain ⟨-, ⟨later, -⟩, earlier⟩ := sorted
  rw [OrdMap.erase, OrdMap.filter]
  show tree.entries.filter _ = left ++ right
  rw [entries, List.filter_append, List.filter_eq_self.mpr, List.filter_cons_of_neg,
    List.filter_eq_self.mpr]
  · intro other member
    simpa using (later other member).ne'
  · simp
  · intro other member
    simpa using (earlier other member entry List.mem_cons_self).ne

/-- The walk over the state leaves what it keeps. -/
theorem collectState_eq {keyOf : Entry → StateKey} {baseline : Option (Nat × Bytes)}
    {entries passed : List Entry} {tree : Tree} (removed : Nat)
    (decodes : ∀ entry ∈ entries, StateKey.decode entry.1 = .ok (keyOf entry))
    (whole : tree.entries = passed ++ entries) :
    ∃ after count, collectState floor baseline entries tree removed = .ok (after, count) ∧
      after.entries = passed ++ kept floor keyOf baseline entries := by
  induction entries generalizing baseline passed tree removed with
  | nil => exact ⟨tree, removed, rfl, whole⟩
  | cons first rest ih =>
      obtain ⟨encoded, value⟩ := first
      have decoded := decodes _ List.mem_cons_self
      have decodesRest : ∀ entry ∈ rest, StateKey.decode entry.1 = .ok (keyOf entry) :=
        fun entry member => decodes entry (List.mem_cons_of_mem _ member)
      rw [collectState, decoded, ok_bind, kept]
      cases keeps : keepState (keyOf (encoded, value)) floor baseline with
      | mk keep next =>
          cases keep with
          | true =>
              obtain ⟨after, count, walked, same⟩ := @ih next _ _ removed decodesRest
                (show tree.entries = (passed ++ [(encoded, value)]) ++ rest by simpa using whole)
              exact ⟨after, count, walked, by simpa using same⟩
          | false =>
              obtain ⟨shape, valid⟩ := Mvcc.StateKey.decode_sound decoded
              have fits : checkKey encoded = .ok () := by
                rw [checkKey, if_neg]
                rw [show encoded = _ from shape, StateKey.encode]
                exact not_lt.mpr (Mvcc.length_seekKey_le _ _ valid.key_le)
              obtain ⟨after, count, walked, same⟩ := @ih next _ _ (removed + 1) decodesRest
                (erase_middle whole)
              refine ⟨after, count, ?_, same⟩
              simp only [delete, fits, ok_bind, pure_eq_ok, walked]

/-- The sequence of an outcome key that has one. -/
def outcomeSequence (key : Bytes) : Nat := (entrySequence .outcomes key).toOption.getD 0

/-- The walk over the outcomes leaves those above the floor. -/
theorem collectOutcomes_eq {entries passed : List Entry} {tree : Tree} (removed : Nat)
    (decodes : ∀ entry ∈ entries, ∃ sequence, entrySequence .outcomes entry.1 = .ok sequence)
    (whole : tree.entries = passed ++ entries) :
    ∃ after count, collectOutcomes floor entries tree removed = .ok (after, count) ∧
      after.entries = passed ++ entries.filter fun entry => floor < outcomeSequence entry.1 := by
  induction entries generalizing passed tree removed with
  | nil => exact ⟨tree, removed, rfl, by simpa using whole⟩
  | cons first rest ih =>
      obtain ⟨key, value⟩ := first
      obtain ⟨sequence, decoded⟩ := decodes _ List.mem_cons_self
      have decodesRest : ∀ entry ∈ rest, ∃ sequence,
          entrySequence .outcomes entry.1 = .ok sequence :=
        fun entry member => decodes entry (List.mem_cons_of_mem _ member)
      have isSequence : outcomeSequence key = sequence := by
        rw [outcomeSequence, show entrySequence .outcomes key = _ from decoded]
        rfl
      rw [collectOutcomes, decoded, ok_bind]
      by_cases above : sequence > floor
      · obtain ⟨after, count, walked, same⟩ := ih removed decodesRest
          (show tree.entries = (passed ++ [(key, value)]) ++ rest by simpa using whole)
        refine ⟨after, count, by rw [if_pos above, walked], ?_⟩
        rw [List.filter_cons_of_pos (by simpa [isSequence] using above)]
        simpa using same
      · have length : key.length = 8 := by
          by_contra other
          simp [entrySequence, refuse, other] at decoded
        have fits : checkKey key = .ok () := by
          rw [checkKey, if_neg (by rw [length]; decide)]
        obtain ⟨after, count, walked, same⟩ := ih (removed + 1) decodesRest (erase_middle whole)
        refine ⟨after, count, ?_, ?_⟩
        · rw [if_neg above]
          simp only [delete, fits, ok_bind, pure_eq_ok, walked]
        · rw [List.filter_cons_of_neg (by simpa [isSequence] using above)]
          exact same

/-- A walk over the outcomes that returns has decoded every key. -/
theorem decodes_of_collectOutcomes {entries : List Entry} {tree : Tree} {removed : Nat}
    {result : Tree × Nat} (walked : collectOutcomes floor entries tree removed = .ok result) :
    ∀ entry ∈ entries, ∃ sequence, entrySequence .outcomes entry.1 = .ok sequence := by
  induction entries generalizing tree removed with
  | nil => simp
  | cons first rest ih =>
      simp only [collectOutcomes, bind_eq_ok] at walked
      obtain ⟨sequence, decoded, walked⟩ := walked
      intro entry member
      rcases List.mem_cons.mp member with rfl | inRest
      · exact ⟨sequence, decoded⟩
      · split_ifs at walked
        · exact ih walked entry inRest
        · simp only [bind_eq_ok] at walked
          obtain ⟨tree, -, walked⟩ := walked
          exact ih walked entry inRest

end Walks

end Collect

end BlopDb.Storage
