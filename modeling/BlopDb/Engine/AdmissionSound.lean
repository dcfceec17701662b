/-
# Admitted records execute

A record that admission builds decodes to the command that was prepared, and its
preparation is the one that the serial history makes before it.  Admission may look at
any trees with the catalogue and the policies of the history.
-/

import BlopDb.Engine.Admission
import BlopDb.Engine.Serial

namespace BlopDb.Vm

open BlopDb.Lib
open Storage (LimitPolicy View)

section Bounded

variable [Sha256] {view : View} {sequence capacity : Nat} {transaction : Transaction} {claims : LimitPolicy}
variable {manifest : Option AccessManifest} {prepared : PreparedTransaction}

/-- Within the capacity the bounded preparation is the plain one. -/
theorem prepareTransaction_of_bounded
    (ready : prepareTransactionBounded view sequence transaction claims manifest capacity =
      .ok (.ready prepared)) : prepareTransaction view sequence transaction claims manifest = .ok prepared := by
  obtain ⟨decoding, -, ready⟩ := bind_eq_ok.mp ready
  split_ifs at ready with large
  · cases ready
  · obtain ⟨⟨prior, program⟩, read, ready⟩ := bind_eq_ok.mp ready
    obtain ⟨analysis, -, ready⟩ := bind_eq_ok.mp ready
    split_ifs at ready with large'
    · cases ready
    · obtain ⟨prepared', finished, same⟩ := bind_eq_ok.mp ready
      cases same
      simp only [prepareTransaction, read, ok_bind, finished]

/-- The manifest of a preparation is accepted in its place. -/
theorem prepareTransaction_manifest
    (found : prepareTransaction view sequence transaction claims manifest = .ok prepared) :
    prepareTransaction view sequence transaction claims (some prepared.manifest) = .ok prepared ∧
      prepared.manifest.checkCount (claims.value 6) = .ok () := by
  obtain ⟨⟨prior, program⟩, read, found⟩ := bind_eq_ok.mp found
  obtain ⟨required, derived, found⟩ := bind_eq_ok.mp found
  obtain ⟨⟨⟩, valid, same⟩ := bind_eq_ok.mp found
  cases same
  have counted := valid
  rw [raise_eq_ok] at counted
  obtain ⟨⟨⟩, counted, -⟩ := bind_eq_ok.mp counted
  refine ⟨?_, counted⟩
  simp only [prepareTransaction, read, ok_bind, finishPreparation, derived, Option.getD_some, valid, pure_eq_ok]

end Bounded

end BlopDb.Vm

namespace BlopDb.Engine

open BlopDb.Lib
open Storage (Digest LimitPolicy View maxU64 sha256)
open Storage.Wal (Record)
open Vm (AccessManifest Command PreparedTransaction SameMetadata)

theorem relay_eq_ok {ε δ α : Type} {into : ε → δ} {x : Except (Fault ε) α} {value : α} :
    relay into x = .ok value ↔ x = .ok value := by
  cases x with
  | ok => simp [relay]
  | error fault => cases fault <;> simp [relay]

section Frames

variable [Crc32c]

/-- The kind and the body of an envelope. -/
theorem fields_of_envelope {sequence kind : Nat} {predecessor : Digest} {body bytes : Bytes}
    (framed : envelope sequence predecessor kind body = .ok bytes) :
    uintAt 1 bytes 24 = kind ∧ slice bytes 64 (bytes.length - recordOverhead) = body := by
  obtain ⟨-, -, -, kinded, rfl⟩ := envelope_eq_ok.mp framed
  have header := recordHeader_slices sequence predecessor kind body.length
  have long := length_recordHeader sequence predecessor kind body.length
  rw [length_frame, Nat.add_sub_cancel, Engine.frame, List.append_assoc]
  constructor
  · have inside : slice (recordHeader sequence predecessor kind body.length ++ (body ++
        (leBytes 4 (Crc32c.checksum (recordHeader sequence predecessor kind body.length ++ body)) ++
          leBytes 4 (body.length + recordOverhead)))) 24 1 = leBytes 1 kind := by
      rw [← header.2.2.2.2.2.2.1, slice, slice, List.drop_append_of_le_length (by omega),
        List.take_append_of_le_length (by rw [List.length_drop]; omega)]
    exact Storage.Wal.uintAt_of_slice inside (by omega)
  · rw [slice_append_right _ _ (by omega), long, Nat.sub_self]
    exact slice_zero_append _ rfl

end Frames

/-- The command of an envelope is the one whose body it frames. -/
theorem recordCommand_of_envelope [Crc32c] {record : Record} {sequence kind : Nat} {predecessor : Digest}
    {body : Bytes} {command : Command} (framed : envelope sequence predecessor kind body = .ok record.bytes)
    (decoded : Record.decode kind body = .ok command) :
    recordCommand record = .ok command ∧ uintAt 1 record.bytes 24 = kind := by
  obtain ⟨isKind, isBody⟩ := fields_of_envelope framed
  exact ⟨by rw [recordCommand, isKind, isBody, decoded], isKind⟩

/-- What a coordinator is told is what it records, with a manifest where there was none. -/
inductive Completes : Command → Command → Prop
  | transaction {transaction : Vm.Transaction} {claims : LimitPolicy} {declared : Option AccessManifest}
      {manifest : AccessManifest} (kept : ∀ supplied ∈ declared, supplied = manifest) :
      Completes (.transaction transaction claims declared) (.transaction transaction claims (some manifest))
  | catalogue (operation : Vm.CatalogueOperation) : Completes (.catalogue operation) (.catalogue operation)
  | limits (policy : LimitPolicy) : Completes (.limits policy) (.limits policy)

/-- The log record of a prepared transaction. -/
def Prepared.logged [Sha256] (prepared : Prepared) : Record :=
  ⟨prepared.transaction.sequence, sha256 prepared.bytes, prepared.bytes⟩

/-- A prepared transaction is the next record of a log whose records leave some trees. -/
structure Sequenced [Sha256] (log : List Record) (final : View) (command : Command) (prepared : Prepared) : Prop where
  small : log.length + 1 < maxU64
  numbered : prepared.transaction.sequence = log.length + 1
  kind : uintAt 1 prepared.bytes 24 = 1
  decoded : recordCommand prepared.logged = .ok command
  /-- The serial history prepares the recorded command alike. -/
  found : ∃ transaction claims, command = .transaction transaction claims (some prepared.transaction.manifest) ∧
    Vm.prepareTransaction final (log.length + 1) transaction claims (some prepared.transaction.manifest) =
      .ok prepared.transaction

/-- The admitted record fits the capacities. -/
structure Prepared.Fits (options : EngineOptions) (prepared : Prepared) : Prop where
  bytes : prepared.bytes.length ≤ options.assignedBacklogBytes
  reservation : prepared.reservation ≤ options.executionBytes

section Sound

variable [Crc32c] [Sha256] {view final : View} {options : EngineOptions} {predecessor : Digest}

/-- An admitted transaction is the next record. -/
theorem prepareRecord_eq_ok {log : List Record} {transaction : Vm.Transaction} {claims : LimitPolicy}
    {manifest : Option AccessManifest} {command : Command} {prepared : Prepared}
    (same : SameMetadata view final) (built : ∀ supplied ∈ manifest, supplied.Built)
    (accepted : prepareRecord view options log.length predecessor transaction claims manifest =
      .ok (command, prepared)) :
    Completes (.transaction transaction claims manifest) command ∧ Sequenced log final command prepared ∧
      prepared.Fits options := by
  obtain ⟨sequence, next, accepted⟩ := bind_eq_ok.mp accepted
  obtain ⟨⟨⟩, small, isSequence⟩ := bind_eq_ok.mp (raise_eq_ok.mp next)
  cases isSequence
  rw [refuse_eq_ok, not_le] at small
  obtain ⟨preparation, bounded, accepted⟩ := bind_eq_ok.mp accepted
  cases preparation with
  | capacity required => cases accepted
  | ready ready =>
      have found := Vm.prepareTransaction_of_bounded (relay_eq_ok.mp bounded)
      have isManifest : ∀ supplied ∈ manifest, supplied = ready.manifest := by
        rintro supplied ⟨⟩
        obtain ⟨-, -, required, -, kept, -⟩ := Vm.prepareTransaction_eq_ok found
        exact kept.symm
      obtain ⟨body', written, decoded, -⟩ := (Record.prepareTransaction_bounded built found).written
      rw [Vm.prepareTransaction_congr same] at found
      have next := (Vm.prepareProgram_prepared (Vm.prepareTransaction_eq_ok found).1).sequence_eq
      have again := (Vm.prepareTransaction_manifest found).1
      obtain ⟨running, -, accepted⟩ := bind_eq_ok.mp accepted
      obtain ⟨backlog, -, accepted⟩ := bind_eq_ok.mp accepted
      obtain ⟨input, -, accepted⟩ := bind_eq_ok.mp accepted
      obtain ⟨⟨⟩, room, accepted⟩ := bind_eq_ok.mp accepted
      obtain ⟨⟨⟩, -, accepted⟩ := bind_eq_ok.mp accepted
      obtain ⟨⟨kind, body⟩, encoded, accepted⟩ := bind_eq_ok.mp accepted
      obtain ⟨bytes, framed, accepted⟩ := bind_eq_ok.mp accepted
      obtain ⟨⟨⟩, short, accepted⟩ := bind_eq_ok.mp accepted
      cases accepted
      rw [relay_eq_ok, written] at encoded
      cases encoded
      obtain ⟨isCommand, isKind⟩ := @recordCommand_of_envelope _ (Prepared.logged ⟨ready, bytes, _⟩) _ _ _ _ _
        (raise_eq_ok.mp framed) decoded
      refine ⟨.transaction isManifest, ⟨small, ?_, isKind, isCommand, transaction, claims, rfl, again⟩, ?_, ?_⟩
      · change ready.prior + 1 = log.length + 1
        omega
      · exact not_lt.mp (refuse_eq_ok.mp (raise_eq_ok.mp short))
      · exact not_lt.mp (refuse_eq_ok.mp (raise_eq_ok.mp room))

omit [Crc32c] in
/-- The next record is a valid one of the serial history. -/
theorem Sequenced.valid {log : List Record} {command : Command} {prepared : Prepared}
    (sequenced : Sequenced log final command prepared) :
    Record.prepare final (log.length + 1) command = .ok command := by
  have small := sequenced.small
  obtain ⟨transaction, claims, rfl, found⟩ := sequenced.found
  have counted := (Vm.prepareTransaction_manifest found).2
  simp only [Record.prepare, refuse_of_not _ (show ¬ (log.length + 1 = 0 ∨ log.length + 1 = maxU64) by omega), raise_ok,
    ok_bind, Record.checkSupplied, counted, found, pure_eq_ok]

end Sound

end BlopDb.Engine
