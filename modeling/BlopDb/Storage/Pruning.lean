/-
# Checkpoints behind the live roots

A checkpoint at a sequence is a private copy of the live roots without the logical
entries above that sequence.  Every key is decoded on the way, so a malformed one
fails the checkpoint.
-/

import BlopDb.Storage.Collect

namespace BlopDb.Storage

open BlopDb.Lib

/-- The trees whose entries have sequences. -/
def logicalTrees : List TreeId := [.state, .catalogue, .policy, .outcomes]

namespace Pruning

/-- Walk the entries of a tree and delete those above a sequence. -/
def pruneEntries (tree : TreeId) (sequence : Nat) : List Entry → Tree → Except Error Tree
  | [], pruned => .ok pruned
  | (key, _) :: rest, pruned => do
      let written ← entrySequence tree key
      if written > sequence then do
        let pruned ← Collect.delete pruned key
        pruneEntries tree sequence rest pruned
      else pruneEntries tree sequence rest pruned

/-- Delete the entries above a sequence from one tree. -/
def pruneTree (source : View) (sequence : Nat) (pruned : View) (tree : TreeId) : Except Error View := do
  let entries ← pruneEntries tree sequence (source.roots tree).entries (pruned.roots tree)
  return ⟨Function.update pruned.roots tree entries⟩

/-- Build separate roots without the logical entries above a sequence. -/
def prepareCheckpoint (checkpoint : Nat) (source : View) (sequence : Nat) : Except Error View := do
  refuse (sequence < checkpoint ∨ sequence = maxU64) (.invalidInput "invalid checkpoint sequence")
  logicalTrees.foldlM (pruneTree source sequence) source

/-! ## What remains -/

/-- The walk leaves the entries at or below the sequence. -/
theorem pruneEntries_eq_ok {tree : TreeId} {sequence : Nat} {entries passed : List Entry} {pruned after : Tree}
    (whole : pruned.entries = passed ++ entries)
    (walked : pruneEntries tree sequence entries pruned = .ok after) :
    (∀ entry ∈ entries, ∃ written, entrySequence tree entry.1 = .ok written) ∧
      ∀ entry, entry ∈ after.entries ↔ entry ∈ passed ∨
        entry ∈ entries ∧ ∃ written ≤ sequence, entrySequence tree entry.1 = .ok written := by
  induction entries generalizing passed pruned with
  | nil =>
      cases walked
      simp [whole]
  | cons first rest ih =>
      obtain ⟨key, value⟩ := first
      obtain ⟨written, decoded, walked⟩ := bind_eq_ok.mp walked
      by_cases above : written > sequence
      · rw [if_pos above] at walked
        obtain ⟨_, deleted, walked⟩ := bind_eq_ok.mp walked
        obtain ⟨⟨⟩, -, same⟩ := bind_eq_ok.mp deleted
        cases same
        obtain ⟨decodes, remain⟩ := ih (Collect.erase_middle whole) walked
        refine ⟨List.forall_mem_cons.mpr ⟨⟨written, decoded⟩, decodes⟩, fun entry => (remain entry).trans ?_⟩
        refine or_congr_right ⟨fun kept => ⟨List.mem_cons_of_mem _ kept.1, kept.2⟩, ?_⟩
        rintro ⟨member, below⟩
        rcases List.mem_cons.mp member with rfl | inRest
        · obtain ⟨written', low, decoded'⟩ := below
          obtain rfl := Except.ok.inj (decoded.symm.trans decoded')
          omega
        · exact ⟨inRest, below⟩
      · rw [if_neg above] at walked
        obtain ⟨decodes, remain⟩ := ih (show pruned.entries = (passed ++ [(key, value)]) ++ rest by simpa using whole)
          walked
        refine ⟨List.forall_mem_cons.mpr ⟨⟨written, decoded⟩, decodes⟩, fun entry => (remain entry).trans ?_⟩
        rw [List.mem_append, List.mem_singleton, List.mem_cons, or_assoc]
        refine or_congr_right ⟨?_, ?_⟩
        · rintro (rfl | kept)
          · exact ⟨.inl rfl, written, not_lt.mp above, decoded⟩
          · exact ⟨.inr kept.1, kept.2⟩
        · rintro ⟨rfl | inRest, below⟩
          · exact .inl rfl
          · exact .inr ⟨inRest, below⟩

/-- What one tree keeps. -/
theorem pruneTree_eq_ok {source pruned after : View} {sequence : Nat} {tree : TreeId}
    (same : pruned.roots tree = source.roots tree)
    (done : pruneTree source sequence pruned tree = .ok after) :
    ((∀ entry ∈ (source.roots tree).entries, ∃ written, entrySequence tree entry.1 = .ok written) ∧
      ∀ entry, entry ∈ (after.roots tree).entries ↔ entry ∈ (source.roots tree).entries ∧
        ∃ written ≤ sequence, entrySequence tree entry.1 = .ok written) ∧
      ∀ other, other ≠ tree → after.roots other = pruned.roots other := by
  obtain ⟨entries, walked, isAfter⟩ := bind_eq_ok.mp done
  cases isAfter
  rw [same] at walked
  obtain ⟨decodes, remain⟩ := pruneEntries_eq_ok (List.nil_append _).symm walked
  refine ⟨⟨decodes, fun entry => ?_⟩, fun other different => Function.update_of_ne different _ _⟩
  simp only [Function.update_self]
  exact (remain entry).trans (by simp)

/-- A checkpoint keeps the entries at or below its sequence, and all cursors. -/
theorem prepareCheckpoint_eq_ok {checkpoint sequence : Nat} {source after : View}
    (prepared : prepareCheckpoint checkpoint source sequence = .ok after) :
    (∀ tree, tree ≠ .cursors →
        (∀ entry ∈ (source.roots tree).entries, ∃ written, entrySequence tree entry.1 = .ok written) ∧
        ∀ entry, entry ∈ (after.roots tree).entries ↔
          entry ∈ (source.roots tree).entries ∧ ∃ written ≤ sequence, entrySequence tree entry.1 = .ok written) ∧
      after.roots .cursors = source.roots .cursors := by
  obtain ⟨⟨⟩, -, prepared⟩ := bind_eq_ok.mp prepared
  simp only [logicalTrees, List.foldlM_cons, List.foldlM_nil, bind_eq_ok, pure_eq_ok, Except.ok.injEq] at prepared
  obtain ⟨first, one, second, two, third, three, last, four, rfl⟩ := prepared
  obtain ⟨state, inFirst⟩ := pruneTree_eq_ok rfl one
  have sameCatalogue : first.roots .catalogue = source.roots .catalogue := inFirst .catalogue nofun
  obtain ⟨catalogue, inSecond⟩ := pruneTree_eq_ok sameCatalogue two
  have samePolicy : second.roots .policy = source.roots .policy := (inSecond .policy nofun).trans (inFirst .policy nofun)
  obtain ⟨policy, inThird⟩ := pruneTree_eq_ok samePolicy three
  have sameOutcomes : third.roots .outcomes = source.roots .outcomes :=
    (inThird .outcomes nofun).trans ((inSecond .outcomes nofun).trans (inFirst .outcomes nofun))
  obtain ⟨outcomes, inLast⟩ := pruneTree_eq_ok sameOutcomes four
  constructor
  · intro tree logical
    cases tree with
    | state => simpa only [inLast .state nofun, inThird .state nofun, inSecond .state nofun] using state
    | catalogue => simpa only [inLast .catalogue nofun, inThird .catalogue nofun] using catalogue
    | policy => simpa only [inLast .policy nofun] using policy
    | outcomes => exact outcomes
    | cursors => exact absurd rfl logical
  · rw [inLast .cursors nofun, inThird .cursors nofun, inSecond .cursors nofun, inFirst .cursors nofun]

end Pruning

end BlopDb.Storage
