/-
# Coverage of access declarations

A manifest grants a mode on a scope through an entry for the scope itself or for
its whole table.  Normalization keeps every declared mode granted, and a
validated manifest grants every mode that the derived manifest grants.
-/

import Mathlib.Data.Nat.Bitwise
import BlopDb.Vm.Access

namespace BlopDb.Vm

open BlopDb.Lib
open Storage (LimitPolicy)

/-- An entry grants a mode bit on a scope. -/
def Grants (entries : List (Scope × AccessMode)) (bit : Nat) (scope : Scope) : Prop :=
  ∃ entry ∈ entries, (entry.1 = scope ∨ entry.1 = .table scope.tableId) ∧
    entry.2.bits.testBit bit = true

theorem Grants.mono {entries more : List (Scope × AccessMode)} {bit : Nat} {scope : Scope}
    (subset : ∀ entry ∈ entries, entry ∈ more) (granted : Grants entries bit scope) :
    Grants more bit scope := by
  obtain ⟨entry, member, rest⟩ := granted
  exact ⟨entry, subset entry member, rest⟩

/-- Granting passes through entries that are granted themselves. -/
theorem Grants.trans {entries more : List (Scope × AccessMode)} {bit : Nat} {scope : Scope}
    (granted : Grants entries bit scope)
    (each : ∀ entry ∈ entries, entry.2.bits.testBit bit = true → Grants more bit entry.1) :
    Grants more bit scope := by
  obtain ⟨entry, member, same, set⟩ := granted
  obtain ⟨entry', member', same', set'⟩ := each entry member set
  refine ⟨entry', member', ?_, set'⟩
  rcases same with rfl | whole
  · exact same'
  · rw [whole] at same'
    simp only [Scope.tableId, or_self] at same'
    exact .inr same'

/-- A granted read covers the addresses of the scope. -/
theorem covered_reads {manifest : AccessManifest} {table : Nat} {key : Bytes}
    (granted : Grants manifest.entries 0 (.key table key)) :
    AccessManifest.Covered manifest.reads ⟨table, key⟩ := by
  obtain ⟨⟨scope, mode⟩, member, same, set⟩ := granted
  have listed : scope ∈ manifest.reads :=
    List.mem_map.mpr ⟨(scope, mode), List.mem_filter.mpr ⟨member, set⟩, rfl⟩
  rcases same with rfl | rfl
  · exact .inr listed
  · exact .inl listed

/-- A granted write covers the addresses of the scope. -/
theorem covered_writes {manifest : AccessManifest} {table : Nat} {key : Bytes}
    (granted : Grants manifest.entries 1 (.key table key)) :
    AccessManifest.Covered manifest.writes ⟨table, key⟩ := by
  obtain ⟨⟨scope, mode⟩, member, same, set⟩ := granted
  have listed : scope ∈ manifest.writes :=
    List.mem_map.mpr ⟨(scope, mode), List.mem_filter.mpr ⟨member, set⟩, rfl⟩
  rcases same with rfl | rfl
  · exact .inr listed
  · exact .inl listed

/-- A grant on a whole table is a grant on each of its keys. -/
theorem Grants.key {entries : List (Scope × AccessMode)} {bit table : Nat}
    (granted : Grants entries bit (.table table)) (key : Bytes) :
    Grants entries bit (.key table key) := by
  obtain ⟨entry, member, same, set⟩ := granted
  simp only [Scope.tableId, or_self] at same
  exact ⟨entry, member, .inr same, set⟩

/-! ## Normalization -/

namespace AccessManifest

/-- The bits declared for a scope. -/
def declared (declarations : OrdMap Scope Nat) (scope : Scope) : Nat :=
  (declarations.find? scope).getD 0

theorem declared_insert (declarations : OrdMap Scope Nat) (scope other : Scope) (bits : Nat) :
    declared (declarations.insert scope bits) other =
      if scope = other then bits else declared declarations other := by
  unfold declared
  rw [OrdMap.find?_insert]
  split_ifs <;> rfl

/-- Combining keeps declared bits and adds those of every entry. -/
theorem combine_declared {entries : List (Scope × AccessMode)} {combined result : OrdMap Scope Nat}
    (united : combine entries combined = .ok result) (bit : Nat) :
    (∀ scope, (declared combined scope).testBit bit = true →
      (declared result scope).testBit bit = true) ∧
    ∀ entry ∈ entries, entry.2.bits.testBit bit = true →
      (declared result entry.1).testBit bit = true := by
  induction entries generalizing combined with
  | nil =>
      cases united
      exact ⟨fun _ => id, by simp⟩
  | cons entry entries ih =>
      obtain ⟨scope, mode⟩ := entry
      obtain ⟨⟨⟩, -, rest⟩ := bind_eq_ok.mp united
      obtain ⟨keeps, adds⟩ := ih rest
      constructor
      · intro other set
        apply keeps
        rw [declared_insert]
        split_ifs with same
        · subst same
          rw [Nat.testBit_or, Bool.or_eq_true]
          exact .inl set
        · exact set
      · intro other member set
        rcases List.mem_cons.mp member with rfl | inRest
        · apply keeps
          rw [declared_insert, if_pos rfl, Nat.testBit_or, Bool.or_eq_true]
          exact .inr set
        · exact adds other inRest set

theorem bits_ofBits {bits : Nat} {mode : AccessMode} (found : AccessMode.ofBits bits = .ok mode) :
    mode.bits = bits := by
  unfold AccessMode.ofBits at found
  split at found <;> cases found <;> rfl

/-- The modes carried in apply only to points of the same table. -/
theorem suppress_key (id : Nat) (key : Bytes) (bits : Nat) (rest : List (Scope × Nat))
    (table modes : Nat) :
    suppress ((.key id key, bits) :: rest) (table, modes) =
      suppress ((.key id key, bits) :: rest) (id, if table = id then modes else 0) := by
  by_cases same : table = id
  · rw [if_pos same, same]
  · simp [suppress, Scope.tableId, same]

/-- Suppression drops a point mode only where the whole table declares it: in an
entry that is kept, or in the modes carried in. -/
theorem suppress_grants {entries : List (Scope × Nat)} {table modes : Nat}
    {kept : List (Scope × AccessMode)} (suppressed : suppress entries (table, modes) = .ok kept)
    (bit : Nat) : ∀ entry ∈ entries, entry.2.testBit bit = true →
      Grants kept bit entry.1 ∨ (entry.1.tableId = table ∧ modes.testBit bit = true) := by
  induction entries generalizing table modes kept with
  | nil => simp
  | cons entry entries ih =>
      obtain ⟨scope, bits⟩ := entry
      cases scope with
      | table id =>
          simp only [suppress] at suppressed
          split at suppressed
          next present =>
            obtain ⟨mode, known, rest⟩ := bind_eq_ok.mp suppressed
            obtain ⟨others, suppressedRest, same⟩ := bind_eq_ok.mp rest
            cases same
            have whole (other : Scope) (inTable : other.tableId = id)
                (set : bits.testBit bit = true) :
                Grants ((Scope.table id, mode) :: others) bit other :=
              ⟨(.table id, mode), List.mem_cons_self, .inr (by rw [inTable]), by
                rw [bits_ofBits known]
                exact set⟩
            intro entry member set
            left
            rcases List.mem_cons.mp member with rfl | inRest
            · exact whole _ rfl set
            · rcases ih suppressedRest entry inRest set with granted | ⟨inTable, carried⟩
              · exact granted.mono fun other inOthers => List.mem_cons_of_mem _ inOthers
              · exact whole _ inTable carried
          next absent =>
            have empty : bits = 0 := not_not.mp absent
            subst empty
            intro entry member set
            rcases List.mem_cons.mp member with rfl | inRest
            · simp at set
            · rcases ih suppressed entry inRest set with granted | ⟨-, carried⟩
              · exact .inl granted
              · simp at carried
      | key id key =>
          have carries {other : Scope} (inTable : other.tableId = id)
              (carried : (if table = id then modes else 0).testBit bit = true) :
              other.tableId = table ∧ modes.testBit bit = true := by
            by_cases same : table = id
            · rw [if_pos same] at carried
              exact ⟨inTable.trans same.symm, carried⟩
            · rw [if_neg same] at carried
              simp at carried
          rw [suppress_key] at suppressed
          generalize (if table = id then modes else 0) = active at suppressed carries
          simp only [suppress, Scope.tableId, ne_eq, not_true_eq_false, if_false] at suppressed
          intro entry member set
          split at suppressed
          next present =>
            obtain ⟨mode, known, rest⟩ := bind_eq_ok.mp suppressed
            obtain ⟨others, suppressedRest, same⟩ := bind_eq_ok.mp rest
            cases same
            rcases List.mem_cons.mp member with rfl | inRest
            · by_cases carried : active.testBit bit = true
              · exact .inr (carries rfl carried)
              · left
                refine ⟨(.key id key, mode), List.mem_cons_self, .inl rfl, ?_⟩
                rw [bits_ofBits known, Nat.testBit_ldiff]
                simp only [Bool.and_eq_true, Bool.not_eq_true', set, true_and]
                simpa using carried
            · rcases ih suppressedRest entry inRest set with granted | ⟨inTable, carried⟩
              · exact .inl (granted.mono fun other inOthers => List.mem_cons_of_mem _ inOthers)
              · exact .inr (carries inTable carried)
          next absent =>
            rcases List.mem_cons.mp member with rfl | inRest
            · right
              apply carries rfl
              have none : (bits.ldiff active).testBit bit = false := by
                rw [not_not.mp absent, Nat.zero_testBit]
              rw [Nat.testBit_ldiff, set] at none
              simpa using none
            · rcases ih suppressed entry inRest set with granted | ⟨inTable, carried⟩
              · exact .inl granted
              · exact .inr (carries inTable carried)

/-- Normalized declarations grant every mode that was declared. -/
theorem new_grants {entries : List (Scope × AccessMode)} {manifest : AccessManifest}
    (normalized : new entries = .ok manifest) {bit : Nat} {scope : Scope}
    (granted : Grants entries bit scope) : Grants manifest.entries bit scope := by
  obtain ⟨combined, united, rest⟩ := bind_eq_ok.mp normalized
  obtain ⟨kept, suppressed, same⟩ := bind_eq_ok.mp rest
  cases same
  apply granted.trans
  intro entry member set
  have present := (combine_declared united bit).2 entry member set
  unfold declared at present
  cases found : combined.find? entry.1 with
  | none => simp [found] at present
  | some bits =>
      rw [found, Option.getD_some] at present
      have inside : (entry.1, bits) ∈ combined.entries := OrdMap.find?_eq_some.mp found
      rcases suppress_grants suppressed bit _ inside present with granted | ⟨-, carried⟩
      · exact granted
      · simp at carried

end AccessManifest

/-! ## Validation -/

namespace Access

open AccessManifest (declared declared_insert)

/-- Declared bits come from an entry of the manifest. -/
theorem declare_grants {tables : List Table} {entries : List (Scope × AccessMode)}
    {declarations result : OrdMap Scope Nat}
    (collected : declare tables entries declarations = .ok result) {bit : Nat} {scope : Scope}
    (set : (declared result scope).testBit bit = true) :
    (declared declarations scope).testBit bit = true ∨
      ∃ entry ∈ entries, entry.1 = scope ∧ entry.2.bits.testBit bit = true := by
  induction entries generalizing declarations with
  | nil =>
      cases collected
      exact .inl set
  | cons entry entries ih =>
      obtain ⟨other, mode⟩ := entry
      obtain ⟨⟨⟩, -, rest⟩ := bind_eq_ok.mp collected
      rcases ih rest with earlier | ⟨entry, member, same, found⟩
      · rw [declared_insert] at earlier
        split_ifs at earlier with same
        · exact .inr ⟨(other, mode), List.mem_cons_self, same, earlier⟩
        · exact .inl earlier
      · exact .inr ⟨entry, List.mem_cons_of_mem _ member, same, found⟩

/-- Covered declarations have every required bit, on the scope or its table. -/
theorem coverAll_declared {declarations : OrdMap Scope Nat} {required : List (Scope × AccessMode)}
    (covers : coverAll declarations required = .ok ()) (bit : Nat) :
    ∀ entry ∈ required, entry.2.bits.testBit bit = true →
      (declared declarations (.table entry.1.tableId)).testBit bit = true ∨
        (declared declarations entry.1).testBit bit = true := by
  induction required with
  | nil => simp
  | cons entry required ih =>
      obtain ⟨scope, mode⟩ := entry
      obtain ⟨⟨⟩, enough, rest⟩ := bind_eq_ok.mp covers
      intro other member set
      rcases List.mem_cons.mp member with rfl | inRest
      · rw [refuse_eq_ok, not_not] at enough
        rw [← enough, Nat.testBit_and, Bool.and_eq_true, Nat.testBit_or, Bool.or_eq_true] at set
        exact set.1
      · exact ih rest other inRest set

/-- A validated manifest grants whatever the required one grants. -/
theorem validate_grants {manifest required : AccessManifest} {tables : List Table}
    {claims : LimitPolicy} (valid : validate manifest required tables claims = .ok ()) {bit : Nat}
    {scope : Scope} (granted : Grants required.entries bit scope) :
    Grants manifest.entries bit scope := by
  obtain ⟨⟨⟩, -, rest⟩ := bind_eq_ok.mp valid
  obtain ⟨declarations, collected, covers⟩ := bind_eq_ok.mp rest
  apply granted.trans
  intro entry member set
  have empty (scope : Scope) : ¬ (declared ∅ scope).testBit bit = true := by
    simp [declared]
  rcases coverAll_declared covers bit entry member set with onTable | onScope
  · rcases declare_grants collected onTable with none | ⟨found, inside, same, present⟩
    · exact absurd none (empty _)
    · exact ⟨found, inside, .inr same, present⟩
  · rcases declare_grants collected onScope with none | ⟨found, inside, same, present⟩
    · exact absurd none (empty _)
    · exact ⟨found, inside, .inl same, present⟩

end Access

end BlopDb.Vm
