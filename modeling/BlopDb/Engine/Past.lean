/-
# Reads of the past

A record is checked against the catalogue and the policies before it.  Trees that
present more records answer these reads as the trees before the record did, so a record
that was valid stays valid and a catalogue record keeps its outcome.
-/

import BlopDb.Engine.Logical

namespace BlopDb.Engine

open BlopDb.Lib
open Storage (LimitPolicy TreeId View maxU64)
open Vm (Command Ledger Outcome OutcomeRecord Wrote)
open Vm.Database (Keyed Latest Stored)

variable {initialPolicy : LimitPolicy} {records : List OutcomeRecord} {last last' : Bytes} {floor floor' count : Nat}
variable {earlier view : View}

/-- A record writes entries of its sequence. -/
theorem dated_of_wrote (ledger : Ledger initialPolicy records last floor view) {record : OutcomeRecord}
    (member : record ∈ records) {tree : TreeId} {entry : Storage.Entry} (wrote : Wrote record tree entry) :
    Dated tree record.sequence entry.1 := by
  obtain ⟨effect, inOutcome, stored⟩ := wrote
  exact dated_of_effectEntry ((ledger.fits record member).valid effect inOutcome) stored

/-- Catalogue and policies up to a sequence are those of the records up to it. -/
theorem mem_iff_past (inside : count ≤ records.length) (ledger' : Ledger initialPolicy (records.take count) last' floor' earlier)
    (ledger : Ledger initialPolicy records last floor view) {tree : TreeId} (versioned : tree ≠ .state)
    (resolved : tree ≠ .outcomes) {sequence : Nat} (within : sequence ≤ count) {entry : Storage.Entry}
    (dated : Dated tree sequence entry.1) :
    entry ∈ (earlier.roots tree).entries ↔ entry ∈ (view.roots tree).entries := by
  have small := ledger.small
  have small' := ledger'.small
  rw [mem_iff_of_ledger ledger' versioned resolved, mem_iff_of_ledger ledger versioned resolved]
  refine or_congr_right ⟨?_, ?_⟩
  · rintro ⟨record, member, wrote⟩
    exact ⟨record, List.mem_of_mem_take member, wrote⟩
  · rintro ⟨record, member, wrote⟩
    obtain ⟨position, isInside, rfl⟩ := List.mem_iff_getElem.mp member
    have numbered := ledger.numbered (List.getElem?_eq_getElem isInside)
    have bounded := (ledger.fits _ member).small
    have same := Dated.unique (show sequence < maxU64 by omega) bounded dated (dated_of_wrote ledger member wrote)
    exact ⟨_, List.mem_take_iff_getElem.mpr ⟨position, by omega, rfl⟩, wrote⟩

/-- Two views have the same catalogue and the same policies up to a sequence. -/
structure SamePast (bound : Nat) (earlier view : View) : Prop where
  small : bound < maxU64
  keyed : ∃ frontier, Keyed earlier frontier
  keyed' : ∃ frontier, Keyed view frontier
  latest : ∀ {id : Nat} {version : Vm.CatalogueVersion},
    Latest earlier id (bound + 1) version ↔ Latest view id (bound + 1) version
  policy : Vm.Database.policy earlier bound = Vm.Database.policy view bound

/-- Trees that present more records have the same past. -/
theorem samePast_of_ledger (inside : count ≤ records.length)
    (ledger' : Ledger initialPolicy (records.take count) last' floor' earlier)
    (ledger : Ledger initialPolicy records last floor view) : SamePast count earlier view := by
  have width : maxU64 < 256 ^ 8 := by decide
  have small := ledger.small
  have small' := ledger'.small
  have length : (records.take count).length = count := by
    rw [List.length_take]
    omega
  have stored {id sequence : Nat} {version : Vm.CatalogueVersion} (within : sequence < count + 1) :
      Stored earlier id sequence version ↔ Stored view id sequence version := by
    have order : Stored earlier id sequence version ∨ Stored view id sequence version → id ≤ sequence := by
      rintro (held | held)
      · obtain ⟨entry, -, -, -, below, -⟩ := ledger'.life.keyed.stored held
        exact below
      · obtain ⟨entry, -, -, -, below, -⟩ := ledger.life.keyed.stored held
        exact below
    have agree (bytes : Bytes) (below : id ≤ sequence) :=
      mem_iff_past inside ledger' ledger (show TreeId.catalogue ≠ .state from nofun) nofun (Nat.le_of_lt_succ within)
        (show Dated .catalogue sequence (Vm.Database.catalogueKey id sequence, bytes).1 from ⟨id, below, rfl⟩)
    constructor
    · intro held
      have below := order (.inl held)
      obtain ⟨inId, inSequence, bytes, member, decoded⟩ := held
      exact ⟨inId, inSequence, bytes, (agree bytes below).mp member, decoded⟩
    · intro held
      have below := order (.inr held)
      obtain ⟨inId, inSequence, bytes, member, decoded⟩ := held
      exact ⟨inId, inSequence, bytes, (agree bytes below).mpr member, decoded⟩
  refine ⟨by omega, ⟨_, ledger'.life.keyed⟩, ⟨_, ledger.life.keyed⟩, ?_, ?_⟩
  · intro id version
    unfold Latest
    refine exists_congr fun sequence => and_congr_right fun within => ?_
    rw [stored within]
    refine and_congr_right fun _ => forall_congr' fun other => forall_congr' fun within' => forall_congr' fun version' => ?_
    rw [stored within']
  · have recent {records : List OutcomeRecord} {last : Bytes} {floor : Nat} {view : View}
        (ledger : Ledger initialPolicy records last floor view) {entry : Storage.Entry}
        (member : entry ∈ (view.roots .policy).entries)
        (high : (Bound.included (beBytes 8 count)).below entry.1 = true) :
        ∃ sequence ≤ count, Dated .policy sequence entry.1 := by
      obtain ⟨sequence, old, policy, rfl⟩ := ledger.policyKeyed entry member
      have bounded := ledger.small
      refine ⟨sequence, ?_, rfl⟩
      by_contra later
      have less := (Storage.Mvcc.beBytes_lt_iff (show count < 256 ^ 8 by omega)
        (show sequence < 256 ^ 8 by omega)).mpr (not_le.mp later)
      exact absurd (of_decide_eq_true high) (not_le.mpr less)
    have same : (earlier.roots .policy).range .unbounded (.included (beBytes 8 count)) =
        (view.roots .policy).range .unbounded (.included (beBytes 8 count)) := by
      apply Increasing.ext ((earlier.roots .policy).increasing_range _ _) ((view.roots .policy).increasing_range _ _)
      intro entry
      rw [OrdMap.mem_range, OrdMap.mem_range]
      refine ⟨fun ⟨member, low, high⟩ => ?_, fun ⟨member, low, high⟩ => ?_⟩
      · obtain ⟨sequence, within, dated⟩ := recent ledger' member high
        exact ⟨(mem_iff_past inside ledger' ledger (show TreeId.policy ≠ .state from nofun) nofun within dated).mp member, low, high⟩
      · obtain ⟨sequence, within, dated⟩ := recent ledger member high
        exact ⟨(mem_iff_past inside ledger' ledger (show TreeId.policy ≠ .state from nofun) nofun within dated).mpr member, low, high⟩
    simp only [Vm.Database.policy, View.scan, same]

namespace SamePast

variable {bound : Nat} (past : SamePast bound earlier view)

include past

/-- The version of a table at the bound. -/
theorem catalogueVersion {id : Nat} (small : id < 2 ^ 64) :
    Vm.Database.catalogueVersion earlier id bound = Vm.Database.catalogueVersion view id bound := by
  obtain ⟨frontier, keyed⟩ := past.keyed
  obtain ⟨frontier', keyed'⟩ := past.keyed'
  by_cases valid : id ≠ 0 ∧ id ≠ maxU64
  · have bounded : id < maxU64 := by
      have := valid.2
      unfold maxU64 at this ⊢
      omega
    obtain ⟨result, read, means⟩ := Vm.Database.catalogueVersion_latest keyed valid.1 bounded past.small
    obtain ⟨result', read', means'⟩ := Vm.Database.catalogueVersion_latest keyed' valid.1 bounded past.small
    rw [read, read']
    refine congrArg Except.ok (Option.ext fun version => ?_)
    exact (means version).trans (past.latest.trans (means' version).symm)
  · have refused : Vm.Database.validId id ≠ .ok () := fun accepted => valid (Vm.Database.validId_eq_ok.mp accepted)
    cases isValid : Vm.Database.validId id with
    | ok done => exact absurd isValid refused
    | error error => simp only [Vm.Database.catalogueVersion, isValid, error_bind]

/-- A table that was found is found again. -/
theorem table {id : Nat} {table : Vm.Table} (found : Vm.Database.table earlier id bound = .ok table) :
    Vm.Database.table view id bound = .ok table := by
  obtain ⟨frontier, keyed⟩ := past.keyed
  have small : id < 2 ^ 64 := by
    obtain ⟨version, read, isLive⟩ := bind_eq_ok.mp found
    cases version with
    | none => cases isLive
    | some version =>
        obtain ⟨⟨last, -, ⟨inside, -⟩, -⟩, -⟩ := Vm.Database.latest_of_catalogueVersion keyed past.small read
        unfold maxU64 at inside
        omega
  rw [Vm.Database.table, ← past.catalogueVersion small]
  exact found

theorem resolveTables {ids : List Nat} {tables : List Vm.Table}
    (resolved : Vm.resolveTables earlier bound ids = .ok tables) : Vm.resolveTables view bound ids = .ok tables := by
  induction ids generalizing tables with
  | nil => exact resolved
  | cons id ids ih =>
      obtain ⟨table, found, resolved⟩ := bind_eq_ok.mp resolved
      obtain ⟨rest, resolvedRest, same⟩ := bind_eq_ok.mp resolved
      simp only [Vm.resolveTables, past.table found, ih resolvedRest, ok_bind]
      exact same

/-- A program that was prepared is prepared again. -/
theorem prepareProgram {program arguments : Bytes} {claims : LimitPolicy} {result : Nat × Vm.Program}
    (prepared : Vm.prepareProgram earlier (bound + 1) program arguments claims = .ok result) :
    Vm.prepareProgram view (bound + 1) program arguments claims = .ok result := by
  obtain ⟨prior, isPrior, known⟩ := bind_eq_ok.mp prepared
  obtain ⟨policy, isPolicy, known⟩ := bind_eq_ok.mp known
  obtain ⟨⟨⟩, allowed, known⟩ := bind_eq_ok.mp known
  obtain ⟨ids, listed, known⟩ := bind_eq_ok.mp known
  obtain ⟨tables, resolved, decoded⟩ := bind_eq_ok.mp known
  have same : prior = bound := Nat.succ_injective (Vm.priorSequence_eq_ok isPrior).2.symm
  rw [same] at isPolicy resolved
  rw [past.policy] at isPolicy
  simp only [Vm.prepareProgram, isPrior, same, isPolicy, allowed, listed, past.resolveTables resolved, ok_bind]
  rw [← same]
  exact decoded

/-- A name is in use at the bound or not. -/
theorem nameInUse (name : String) (except : Option Nat) :
    Vm.Database.nameInUse earlier bound name except = Vm.Database.nameInUse view bound name except := by
  obtain ⟨frontier, keyed⟩ := past.keyed
  obtain ⟨frontier', keyed'⟩ := past.keyed'
  obtain ⟨used, read, means⟩ := @Vm.Database.nameInUse_latest earlier frontier bound keyed name except
  obtain ⟨used', read', means'⟩ := @Vm.Database.nameInUse_latest view frontier' bound keyed' name except
  rw [read, read']
  refine congrArg Except.ok (Bool.eq_iff_iff.mpr (means.trans (Iff.trans ?_ means'.symm)))
  exact exists_congr fun id => exists_congr fun version => and_congr_left fun _ => past.latest

/-- A catalogue record keeps its outcome. -/
theorem catalogue {operation : Vm.CatalogueOperation} (described : Vm.Database.Described operation) :
    Vm.Database.catalogue earlier (bound + 1) operation = Vm.Database.catalogue view (bound + 1) operation := by
  cases operation with
  | create name key value => simp only [Vm.Database.catalogue, Nat.add_sub_cancel, past.nameInUse]
  | rename table name =>
      simp only [Vm.Database.catalogue, Vm.Database.liveVersion, Nat.add_sub_cancel, past.nameInUse,
        past.catalogueVersion described]
  | drop table =>
      simp only [Vm.Database.catalogue, Vm.Database.liveVersion, Nat.add_sub_cancel, past.catalogueVersion described]

variable [Sha256]

theorem prepareTransaction {transaction : Vm.Transaction} {claims : LimitPolicy} {manifest : Option Vm.AccessManifest}
    {ready : Vm.PreparedTransaction}
    (prepared : Vm.prepareTransaction earlier (bound + 1) transaction claims manifest = .ok ready) :
    Vm.prepareTransaction view (bound + 1) transaction claims manifest = .ok ready := by
  obtain ⟨⟨prior, program⟩, read, prepared⟩ := bind_eq_ok.mp prepared
  simp only [Vm.prepareTransaction, past.prepareProgram (raise_eq_ok.mp read), raise_ok, ok_bind]
  exact prepared

/-- A record that was valid is valid. -/
theorem prepare {command prepared : Command} (valid : Record.prepare earlier (bound + 1) command = .ok prepared) :
    Record.prepare view (bound + 1) command = .ok prepared := by
  cases command with
  | limits policy => exact valid
  | catalogue operation => exact valid
  | transaction transaction claims manifest =>
      obtain ⟨⟨⟩, reserved, valid⟩ := bind_eq_ok.mp valid
      obtain ⟨⟨⟩, supplied, valid⟩ := bind_eq_ok.mp valid
      obtain ⟨ready, found, valid⟩ := bind_eq_ok.mp valid
      simp only [Record.prepare, reserved, supplied, past.prepareTransaction found, ok_bind]
      exact valid

end SamePast

end BlopDb.Engine
