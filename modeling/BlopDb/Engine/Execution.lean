/-
# Executing one record

Replay and administration execute one record after another: the command of a record
is checked against the state before it, its outcome is computed, and both are
installed.  On the state that earlier records leave, a prepared transaction always
completes, and what it returns can be installed.
-/

import BlopDb.Engine.RecordCodec
import BlopDb.Engine.Rows
import BlopDb.Vm.Administration

namespace BlopDb.Vm

open BlopDb.Lib
open Storage (View LimitPolicy maxU64)

/-- Check that a record is the next one after the resolved records of a store. -/
def nextView (checkpoint : Nat) (view : View) (sequence : Nat) : Except Error Unit := do
  let prior ← priorSequence sequence
  refuse (sequence ≤ checkpoint) (.invalid "record is already checkpointed")
  if prior ≠ checkpoint then do
    let found ← (view.get .outcomes (beBytes 8 prior)).mapError .storage
    refuse (found = none) (.invalid "reference execution requires the preceding outcome")
  let resolved ← (view.scan .outcomes (.included (beBytes 8 sequence)) .unbounded).mapError .storage
  refuse (resolved ≠ []) (.invalid "reference execution cannot replace resolved history")

/-- Validate and interpret bytes without changing storage. -/
def interpret [Sha256] (view : View) (sequence : Nat) (program arguments : Bytes) (claims : LimitPolicy) :
    Option (Except (Fault Error) Outcome) :=
  match prepareProgram view sequence program arguments claims with
  | .ok (prior, program) => Runtime.run view prior program claims
  | .error error => some (.error (.raised error))

end BlopDb.Vm

namespace BlopDb.Engine

open BlopDb.Lib
open Storage (LimitPolicy View maxU64)
open Storage.Wal (Record)
open Vm (Command Error Ledger Outcome OutcomeRecord)
open Vm.Database (install)

variable [Sha256]

namespace Record

/-- The outcome of a validated command. -/
def compute (view : View) (sequence : Nat) : Command → Option (Except (Fault Error) Outcome)
  | .transaction transaction claims _ =>
      Vm.interpret view sequence transaction.programBytes transaction.argumentBytes claims
  | .catalogue operation => some (Vm.Database.catalogue view sequence operation)
  | .limits policy => some (.ok (Vm.Database.limits policy))

/-- Install an outcome beside returning it. -/
def installed (checkpoint : Nat) (view : View) (sequence : Nat) (digest : Bytes) (kind : Nat)
    (outcome : Outcome) : Except (Fault Error) (Outcome × View) := do
  let view ← install false checkpoint view sequence digest kind outcome
  return (outcome, view)

/-- Validate, compute and install the next record. -/
def execute (checkpoint : Nat) (view : View) (sequence : Nat) (digest : Bytes) (command : Command) :
    Option (Except (Fault Error) (Outcome × View)) :=
  match prepare view sequence command with
  | .error error => some (.error error)
  | .ok _ =>
      match Vm.nextView checkpoint view sequence with
      | .error error => some (.error (.raised error))
      | .ok () => (compute view sequence command).map fun result =>
          result.bind (installed checkpoint view sequence digest command.kind)

end Record

/-- The command of a log record. -/
def recordCommand (record : Record) : Except (Fault Error) Command :=
  Record.decode (uintAt 1 record.bytes 24) (slice record.bytes 64 (record.bytes.length - recordOverhead))

/-! ## Completion -/

section Completion

variable {initialPolicy : LimitPolicy} {records : List OutcomeRecord} {last : Bytes} {floor : Nat} {view : View}

omit [Sha256] in
/-- Only a put leaves a value in a row. -/
theorem effectOn_eq_put {table : Nat} {key value : Bytes} {effect : Vm.Effect}
    (written : effectOn table key effect = some (some value)) : effect = .put table key value := by
  cases effect with
  | put table' key' value' =>
      rw [effectOn] at written
      split_ifs at written with same
      obtain ⟨rfl, rfl⟩ := same
      cases written
      rfl
  | delete table' key' =>
      rw [effectOn] at written
      split_ifs at written
      cases written
  | catalogue table' value' => cases written
  | limits policy => cases written

omit [Sha256] in
/-- The stored rows of a live table decode under its types. -/
theorem rowsDecode_of_ledger (ledger : Ledger initialPolicy records last floor view) {table : Vm.Table}
    {schema : Storage.Encoding.Schema} (admitted : table.Admitted schema)
    (positive : table.id ≠ 0) (bounded : table.id < maxU64) {bound : Nat} {version : Vm.CatalogueVersion}
    (known : Vm.Database.Latest view table.id bound version) (same : version.table = table) {prior : Nat}
    (snapshot : prior < maxU64) : Vm.Runtime.RowsDecode view prior table schema := by
  have uncorrupted := uncorrupted_of_ledger ledger
  refine ⟨⟨uncorrupted, positive, bounded, snapshot⟩, fun key value row => ?_⟩
  obtain ⟨sequence, -, ⟨encoded, member, payload⟩, -⟩ :=
    (Storage.Mvcc.get_eq_some_iff uncorrupted positive bounded snapshot).mp row
  rcases ledger.written (show Storage.TreeId.state ≠ .outcomes from nofun) member with
    ⟨tree, -⟩ | ⟨record, inRecords, effect, inEffects, stored⟩
  · cases tree
  have fits := ledger.fits record inRecords
  have valid := fits.valid effect inEffects
  obtain ⟨id, _, written, below, shape, decoded, on⟩ := effectOn_of_entry valid stored
  obtain ⟨rfl, rfl, -⟩ := Storage.Mvcc.seekKey_inj bounded.le (below.trans fits.small).le fits.small shape
  obtain rfl : written = some value := Except.ok.inj (decoded.symm.trans payload)
  obtain rfl := effectOn_eq_put on
  have one : record.recordKind = 1 := by
    by_contra other
    rw [Vm.Outcome.validateEffect, if_neg other] at valid
    cases valid
  obtain ⟨current, latest, -, ⟨keyValue, accepted, isKey⟩, values⟩ := (fits.transaction one).rows _ inEffects
  have types : current.table = table := by
    obtain ⟨_, -, first, -⟩ := latest
    obtain ⟨_, -, second, -⟩ := known
    exact (ledger.life.tables first second).trans same
  rw [types] at accepted values
  obtain ⟨rowValue, valued, rfl⟩ := values value rfl
  refine ⟨⟨keyValue.encode, keyValue, ?_, Vm.decodeValue_encode admitted.key.formed accepted⟩,
    rowValue, Vm.decodeValue_encode admitted.value valued⟩
  change key = keyValue.keyBytes at isKey
  rw [isKey]
  exact admitted.key.decodeKey accepted

/-- A prepared transaction completes on the state that the records before it leave. -/
theorem interpretPrepared_total (ledger : Ledger initialPolicy records last floor view)
    {transaction : Vm.Transaction} {claims : LimitPolicy} {manifest : Option Vm.AccessManifest}
    {prepared : Vm.PreparedTransaction}
    (found : Vm.prepareTransaction view (records.length + 1) transaction claims manifest = .ok prepared) :
    ∃ outcome, Vm.interpretPrepared view prepared = some (.ok outcome) := by
  obtain ⟨read, same, -⟩ := Vm.prepareTransaction_eq_ok found
  have established := Vm.prepareProgram_prepared read
  have next := established.sequence_eq
  have runnable : Vm.Runtime.Runnable False view prepared.prior prepared.program claims := by
    refine ⟨established.loaded, fun table member => ?_⟩
    obtain ⟨schema, admitted⟩ := (established.tables table member).1.admitted
    obtain ⟨positive, bounded⟩ := established.loaded.tables table member
    obtain ⟨version, latest, -, named⟩ := Vm.prepareProgram_latest ledger.life.keyed read table member
    have small := ledger.small
    exact ⟨schema, admitted, fun _ =>
      rowsDecode_of_ledger ledger admitted positive bounded latest named (by omega)⟩
  obtain ⟨result, ran, safe⟩ := Vm.Runtime.run_safe runnable
  cases result with
  | ok outcome => exact ⟨outcome, by rw [Vm.interpretPrepared, same, ran]⟩
  | error fault => cases fault <;> exact safe.elim

omit [Sha256] in
/-- A valid effect has an entry within the physical ceilings. -/
theorem effectEntry_total {sequence kind : Nat} {effect : Vm.Effect}
    (valid : Vm.Outcome.validateEffect sequence kind effect = .ok ()) :
    ∃ tree key value, Vm.Database.effectEntry sequence effect = .ok (tree, key, value) ∧
      key.length ≤ Storage.maxKey ∧ value.length ≤ Storage.maxValue := by
  cases effect with
  | put table key value =>
      by_cases one : kind = 1
      · subst one
        refine ⟨_, _, _, Vm.Database.effectEntry_put valid, ?_⟩
        obtain ⟨⟨⟩, address, size⟩ := bind_eq_ok.mp valid
        have short := (Vm.Outcome.validateAddress_eq_ok.mp address).2.2.2.1
        rw [refuse_eq_ok, not_lt] at size
        refine ⟨Storage.Mvcc.length_seekKey_le _ _ short, ?_⟩
        simp only [Vm.Database.putBytes, List.length_cons, List.length_append, length_leBytes, Storage.maxValue]
        omega
      · rw [Vm.Outcome.validateEffect, if_neg one] at valid
        cases valid
  | delete table key =>
      by_cases one : kind = 1
      · subst one
        have short := (Vm.Outcome.validateAddress_eq_ok.mp valid).2.2.2.1
        exact ⟨_, _, _, Vm.Database.effectEntry_delete valid, Storage.Mvcc.length_seekKey_le _ _ short,
          by decide⟩
      · rw [Vm.Outcome.validateEffect, if_neg one] at valid
        cases valid
  | catalogue table value =>
      by_cases two : kind = 2
      · subst two
        obtain ⟨version, decoded, -⟩ := bind_eq_ok.mp valid
        refine ⟨_, _, _, rfl, ?_, (Vm.Database.length_catalogue_le decoded).trans (by decide)⟩
        simp only [Vm.Database.catalogueKey, List.length_append, length_beBytes, Storage.maxKey]
        omega
      · rw [Vm.Outcome.validateEffect, if_neg two] at valid
        cases valid
  | limits policy =>
      refine ⟨_, _, _, rfl, ?_, ?_⟩
      · simp only [length_beBytes, Storage.maxKey]
        omega
      · simp only [LimitPolicy.length_encode, Storage.maxValue]
        omega

omit [Sha256] in
/-- The edits of valid effects are within the physical ceilings. -/
theorem effectChanges_total {sequence kind : Nat} {effects : List Vm.Effect}
    (valid : ∀ effect ∈ effects, Vm.Outcome.validateEffect sequence kind effect = .ok ()) :
    ∃ changes, Vm.Database.effectChanges sequence effects = .ok changes ∧
      Storage.oversized changes = false := by
  induction effects with
  | nil => exact ⟨[], rfl, rfl⟩
  | cons effect effects ih =>
      obtain ⟨changes, changed, within⟩ := ih fun other member => valid other (List.mem_cons_of_mem _ member)
      obtain ⟨tree, key, value, stored, shortKey, shortValue⟩ := effectEntry_total (valid effect List.mem_cons_self)
      refine ⟨⟨tree, key, some value⟩ :: changes, by simp only [Vm.Database.effectChanges, stored, ok_bind,
        changed, pure_eq_ok], ?_⟩
      simp only [Storage.oversized, List.any_cons, Option.any_some, Bool.or_eq_false_iff, decide_eq_false_iff_not,
        not_lt, gt_iff_lt] at within ⊢
      exact ⟨⟨shortKey, shortValue⟩, within⟩

omit [Sha256] in
/-- An encoded outcome is installed where its sequence has none. -/
theorem install_total {checkpoint sequence kind : Nat} {digest bytes : Bytes} {outcome : Outcome} {view : View}
    (above : checkpoint < sequence)
    (encoded : Vm.Outcome.encodeOutcome sequence digest kind outcome = .ok bytes)
    (fresh : ∀ value, (beBytes 8 sequence, value) ∉ (view.roots .outcomes).entries) :
    ∃ after, install false checkpoint view sequence digest kind outcome = .ok after := by
  obtain ⟨valid, known, body, -, -, short⟩ := Vm.Outcome.encodeOutcome_eq_ok.mp encoded
  obtain ⟨changes, changed, within⟩ := effectChanges_total (Vm.Database.encodeOutcome_effects encoded).1
  have got : view.get .outcomes (beBytes 8 sequence) = .ok none := by
    simp only [View.get, Storage.checkKey, length_beBytes, Storage.maxKey, gt_iff_lt, pure_eq_ok,
      OrdMap.find?_eq_none.mpr fresh]
    rfl
  have fits : Storage.oversized (changes ++ [⟨.outcomes, beBytes 8 sequence, some bytes⟩]) = false := by
    simp only [Storage.oversized, List.any_append, List.any_cons, List.any_nil, Bool.or_false, Option.any_some,
      Bool.or_eq_false_iff, decide_eq_false_iff_not, not_lt, gt_iff_lt] at within ⊢
    refine ⟨within, ?_, short⟩
    simp only [length_beBytes, Storage.maxKey]
    omega
  simp only [install, valid, raise_ok, ok_bind, refuse_of_not _ (not_not.mpr known), refuse_of_not _ (not_le.mpr above), got,
    Option.isSome_none, Bool.false_eq_true, refuse_false, encoded, changed, Storage.apply, fits, pure_eq_ok]
  exact ⟨_, rfl⟩

end Completion

/-! ## Execution -/

section Execution

variable {checkpoint sequence : Nat} {view after : View} {digest : Bytes} {command : Command} {outcome : Outcome}

/-- The outcome of a validated command is the one computed from its preparation. -/
theorem compute_eq_outcome {prepared : Command} (valid : Record.prepare view sequence command = .ok prepared) :
    Record.compute view sequence command = command.outcome view sequence := by
  cases command with
  | catalogue operation => rfl
  | limits policy => rfl
  | transaction transaction claims manifest =>
      obtain ⟨⟨⟩, -, valid⟩ := bind_eq_ok.mp valid
      obtain ⟨⟨⟩, -, valid⟩ := bind_eq_ok.mp valid
      obtain ⟨prepared, found, -⟩ := bind_eq_ok.mp valid
      obtain ⟨read, same, -⟩ := Vm.prepareTransaction_eq_ok found
      simp only [Record.compute, Vm.interpret, read, Command.outcome, found, Vm.interpretPrepared, same]

/-- What executing a record does. -/
theorem execute_eq_ok : Record.execute checkpoint view sequence digest command = some (.ok (outcome, after)) ↔
    (∃ prepared, Record.prepare view sequence command = .ok prepared) ∧
      Vm.nextView checkpoint view sequence = .ok () ∧
      command.outcome view sequence = some (.ok outcome) ∧
      install false checkpoint view sequence digest command.kind outcome = .ok after := by
  rw [Record.execute]
  cases valid : Record.prepare view sequence command with
  | error error => simp
  | ok prepared =>
      rw [← compute_eq_outcome valid]
      cases next : Vm.nextView checkpoint view sequence with
      | error error => simp
      | ok done =>
          cases computed : Record.compute view sequence command with
          | none => simp
          | some result =>
              cases result with
              | error fault => simp [Except.bind]
              | ok found =>
                  simp only [Option.map_some, Except.bind, Option.some.injEq, Record.installed, bind_eq_ok, pure_eq_ok,
                    Except.ok.injEq, Prod.mk.injEq, exists_eq', true_and]
                  constructor
                  · rintro ⟨_, stored, rfl, rfl⟩
                    exact ⟨rfl, stored⟩
                  · rintro ⟨rfl, stored⟩
                    exact ⟨after, stored, rfl, rfl⟩

end Execution

end BlopDb.Engine
