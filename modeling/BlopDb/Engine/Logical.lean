/-
# Logical trees

Cursors apart, the live roots of a source without records ahead are its serial trees,
and so is a checkpoint that prunes the live roots to the frontier.  What a record
computes depends on these trees only.
-/

import BlopDb.Engine.Course
import BlopDb.Storage.Pruning
import BlopDb.Storage.StateScan

namespace BlopDb.Engine

open BlopDb.Lib
open Storage (LimitPolicy TreeId View entrySequence maxU64)
open Vm (Command SameMetadata)

/-! ## Sequences of keys -/

/-- A key whose sequence is read belongs to that sequence. -/
theorem dated_of_entrySequence {tree : TreeId} {key : Bytes} {sequence : Nat} (logical : tree ≠ .cursors)
    (read : entrySequence tree key = .ok sequence) : Dated tree sequence key ∧ sequence < maxU64 := by
  have small {bytes : Bytes} (width : bytes.length = 8) : beNat bytes ≤ maxU64 := by
    have := beNat_lt bytes
    rw [width] at this
    unfold maxU64
    omega
  have whole {bytes : Bytes} (width : bytes.length = 8) : beBytes 8 (beNat bytes) = bytes := by
    have := beBytes_beNat bytes
    rwa [width] at this
  cases tree with
  | state =>
      simp only [entrySequence, bind_eq_ok, refuse_eq_ok, pure_eq_ok, Except.ok.injEq, exists_const] at read
      obtain ⟨stored, decoded, _, rfl, -, rfl⟩ := read
      obtain ⟨encoded, valid⟩ := Storage.Mvcc.StateKey.decode_sound (Storage.Mvcc.corruptInput_eq_ok.mp decoded)
      exact ⟨⟨_, _, valid.table_lt_sequence, encoded⟩, valid.sequence_lt⟩
  | catalogue =>
      simp only [entrySequence, bind_eq_ok, refuse_eq_ok, pure_eq_ok, Except.ok.injEq, exists_const] at read
      obtain ⟨width, order, _, rfl, bounded, rfl⟩ := read
      simp only [not_not, not_or, not_lt] at width order
      have front : (key.take 8).length = 8 := by simp [width]
      have back : (key.drop 8).length = 8 := by simp [width]
      refine ⟨⟨_, order.2, ?_⟩, lt_of_le_of_ne (Storage.Mvcc.complement_le _) bounded⟩
      rw [Vm.Database.catalogueKey, Storage.Mvcc.complement_complement (small back), whole front, whole back,
        List.take_append_drop]
  | policy | outcomes =>
      simp only [entrySequence, bind_eq_ok, refuse_eq_ok, pure_eq_ok, Except.ok.injEq, exists_const] at read
      obtain ⟨width, -, _, rfl, bounded, rfl⟩ := read
      rw [not_not] at width
      exact ⟨(whole width).symm, lt_of_le_of_ne (small width) bounded⟩
  | cursors => exact absurd rfl logical

/-! ## Views with the same logical trees -/

namespace SameTrees

variable {view view' view'' : View}

theorem refl (view : View) : SameTrees view view := fun _ _ => rfl

theorem trans (same : SameTrees view view') (same' : SameTrees view' view'') : SameTrees view view'' :=
  fun tree logical => (same' tree logical).trans (same tree logical)

theorem symm (same : SameTrees view view') : SameTrees view' view := fun tree logical => (same tree logical).symm

theorem sameMetadata (same : SameTrees view view') : SameMetadata view view' :=
  ⟨(same .catalogue nofun).symm, (same .policy nofun).symm⟩

theorem get (same : SameTrees view view') (table : Nat) (key : Bytes) (sequence : Nat) :
    Storage.Mvcc.get view table key sequence = Storage.Mvcc.get view' table key sequence := by
  simp only [Storage.Mvcc.get, View.seek, same .state (by decide)]

variable [Sha256]

/-- A record computes the same outcome. -/
theorem outcome (same : SameTrees view view') (uncorrupted : Storage.Mvcc.Uncorrupted view) {sequence : Nat}
    (small : sequence ≤ maxU64) (command : Command) :
    command.outcome view sequence = command.outcome view' sequence := by
  have uncorrupted' : Storage.Mvcc.Uncorrupted view' := by
    rwa [Storage.Mvcc.Uncorrupted, same .state nofun]
  cases command with
  | limits policy => rfl
  | catalogue operation => rw [Command.outcome, Command.outcome, Vm.catalogue_congr same.sameMetadata]
  | transaction transaction claims manifest =>
      rw [Command.outcome, Command.outcome, ← Vm.prepareTransaction_congr same.sameMetadata]
      cases found : Vm.prepareTransaction view sequence transaction claims manifest with
      | error error => rfl
      | ok prepared =>
          apply Vm.interpretPrepared_congr found small uncorrupted uncorrupted'
          exact fun address _ => same.get address.table address.key prepared.prior

end SameTrees

/-- A record is checked against the catalogue and the policies. -/
theorem Record.prepare_congr [Sha256] {view view' : View} (same : SameMetadata view view') (sequence : Nat)
    (command : Command) : Record.prepare view sequence command = Record.prepare view' sequence command := by
  cases command with
  | limits policy => rfl
  | catalogue operation => rfl
  | transaction transaction claims manifest => simp only [Record.prepare, Vm.prepareTransaction_congr same]

/-! ## Sources -/

namespace Source.Sound

variable [Crc32c] [Sha256] {initialPolicy : LimitPolicy} {source : Source}

/-- No record is ahead of everything durable. -/
theorem ahead_eq_none (sound : source.Sound initialPolicy)
    (drained : source.frontier = source.store.manifest.durableSequence) (sequence : Nat) :
    source.ahead sequence = none := by
  rw [Option.eq_none_iff_forall_ne_some]
  intro installed present
  obtain ⟨above, logged, -⟩ := sound.pending present
  have bounded := sound.logged_le logged
  omega

/-- The live roots of a drained source are its serial trees. -/
theorem drained (sound : source.Sound initialPolicy)
    (drained : source.frontier = source.store.manifest.durableSequence) :
    SameTrees source.serial source.store.view := by
  intro tree logical
  apply OrdMap.ext
  intro key
  apply Option.ext
  intro value
  rw [OrdMap.find?_eq_some, OrdMap.find?_eq_some, sound.live logical, or_iff_left]
  rintro ⟨sequence, installed, present, -⟩
  rw [sound.ahead_eq_none drained] at present
  cases present

/-- A checkpoint at the frontier has the serial trees. -/
theorem pruned (sound : source.Sound initialPolicy) {checkpoint : Nat} {after : View}
    (prepared : Storage.Pruning.prepareCheckpoint checkpoint source.store.view source.frontier = .ok after) :
    SameTrees source.serial after := by
  obtain ⟨trees, -⟩ := Storage.Pruning.prepareCheckpoint_eq_ok prepared
  obtain ⟨last, ledger⟩ := sound.ledger
  have counted := sound.counted
  have durable := sound.durable
  have small := sound.small
  intro tree logical
  obtain ⟨decodes, kept⟩ := trees tree logical
  apply OrdMap.ext
  intro key
  apply Option.ext
  intro value
  rw [OrdMap.find?_eq_some, OrdMap.find?_eq_some, kept]
  constructor
  · rintro ⟨member, written, below, read⟩
    obtain ⟨dated, bounded⟩ := dated_of_entrySequence logical read
    rcases (sound.live logical _).mp member with old | ⟨sequence, installed, present, writes⟩
    · exact old
    · -- What is ahead of the frontier belongs to a later sequence.
      obtain ⟨above, logged, encoded⟩ := sound.pending present
      have inLog := sound.logged_le logged
      have same := Dated.unique bounded (show sequence < maxU64 by omega) dated (writes.dated encoded)
      omega
  · intro old
    have member := (sound.live logical _).mpr (.inl old)
    obtain ⟨written, read⟩ := decodes _ member
    obtain ⟨dated, bounded⟩ := dated_of_entrySequence logical read
    obtain ⟨sequence, visible, dated'⟩ := dated_of_ledger ledger old
    have same := Dated.unique bounded (show sequence < maxU64 by omega) dated dated'
    exact ⟨member, written, by omega, read⟩

end Source.Sound

/-- Collection reads the logical trees only. -/
theorem collectView_congr {view view' after : View} {historyFloor floor frontier : Nat} {removed : Nat × Nat}
    (same : SameTrees view view')
    (collected : Storage.Collect.collectView false historyFloor view' floor frontier = .ok (after, removed)) :
    ∃ after', Storage.Collect.collectView false historyFloor view floor frontier = .ok (after', removed) ∧
      SameTrees after' after := by
  simp only [Storage.Collect.collectView, bind_eq_ok, Prod.exists, pure_eq_ok, Except.ok.injEq, Prod.mk.injEq]
    at collected ⊢
  obtain ⟨⟨⟩, healthy, ⟨⟩, valid, state, versions, walked, outcomes, records, walked', rfl, isRemoved⟩ := collected
  rw [same .state (by decide)] at walked
  rw [same .outcomes (by decide)] at walked'
  refine ⟨_, ⟨(), healthy, (), valid, state, versions, walked, outcomes, records, walked', rfl, isRemoved⟩, ?_⟩
  intro tree logical
  cases tree with
  | cursors => exact absurd rfl logical
  | state => rfl
  | outcomes => rfl
  | catalogue => exact same .catalogue (by decide)
  | policy => exact same .policy (by decide)

end BlopDb.Engine
