/-
# Outcomes pass their checkers

The interpreter and the checkers of stored outcomes state their rules in
separate places.  Every outcome that a prepared transaction can produce encodes,
decodes to the same record, and passes the check against its source program and
against the limits of its claims and of the policy in force.
-/

import BlopDb.Vm.AccessSound
import BlopDb.Vm.OutcomeCodec

namespace BlopDb.Vm

open BlopDb.Lib
open Storage (View LimitPolicy maxU64)

/-! ## Preparation -/

/-- Claims that do not exceed a policy are under it at every position. -/
theorem value_le_of_not_exceeds {claims policy : LimitPolicy}
    (under : exceedsPolicy claims policy = false) (position : Nat) :
    claims.value position ≤ policy.value position := by
  by_cases inside : position < 17
  · have left : position < claims.values.length := claims.length_values ▸ inside
    have right : position < policy.values.length := policy.length_values ▸ inside
    have member : (claims.values[position], policy.values[position]) ∈
        claims.values.zip policy.values :=
      List.mem_iff_getElem.mpr ⟨position, by simp [left, right], by simp⟩
    simp only [exceedsPolicy, List.any_eq_false, decide_eq_true_eq, gt_iff_lt, not_lt] at under
    simpa [LimitPolicy.value, left, right] using under _ member
  · have outside : claims.values.length ≤ position := by
      rw [claims.length_values]
      omega
    simp [LimitPolicy.value, outside]

theorem priorSequence_eq_ok {sequence prior : Nat} (found : priorSequence sequence = .ok prior) :
    sequence ≠ maxU64 ∧ sequence = prior + 1 := by
  obtain ⟨⟨⟩, open', same⟩ := bind_eq_ok.mp found
  cases same
  rw [refuse_eq_ok, not_or] at open'
  exact ⟨open'.2, by omega⟩

/-- A live table was catalogued at or before the sequence. -/
theorem table_catalogued {view : View} {id prior : Nat} {table : Table}
    (found : Database.table view id prior = .ok table) :
    table.Catalogued ∧ table.id = id ∧ id ≤ prior := by
  obtain ⟨version, read, live⟩ := bind_eq_ok.mp found
  obtain ⟨⟨⟩, -, read⟩ := bind_eq_ok.mp read
  obtain ⟨⟨⟩, -, read⟩ := bind_eq_ok.mp read
  obtain ⟨entries, -, read⟩ := bind_eq_ok.mp read
  cases entries with
  | nil =>
      cases read
      cases live
  | cons entry entries =>
      obtain ⟨⟨foundId, foundSequence⟩, key, read⟩ := bind_eq_ok.mp read
      obtain ⟨⟨⟩, expected, read⟩ := bind_eq_ok.mp read
      obtain ⟨decoded, value, same⟩ := bind_eq_ok.mp read
      cases same
      rw [refuse_eq_ok, not_or, not_not, not_lt] at expected
      obtain ⟨rfl, old⟩ := expected
      obtain ⟨⟨⟩, -, key⟩ := bind_eq_ok.mp key
      obtain ⟨⟨⟩, -, key⟩ := bind_eq_ok.mp key
      obtain ⟨⟨⟩, -, key⟩ := bind_eq_ok.mp key
      obtain ⟨⟨⟩, created, same⟩ := bind_eq_ok.mp key
      cases same
      rw [refuse_eq_ok, not_lt] at created
      have value := mapError_eq_ok.mp value
      simp only at live
      split at live
      · cases live
        have named := (decodeCatalogue_admitted value).1
        exact ⟨⟨_, decoded, named ▸ value, rfl⟩, named, created.trans old⟩
      · cases live

theorem resolveTables_catalogued {view : View} {prior : Nat} {ids : List Nat} {tables : List Table}
    (resolved : resolveTables view prior ids = .ok tables) :
    ∀ table ∈ tables, table.Catalogued ∧ table.id ≤ prior := by
  induction ids generalizing tables with
  | nil =>
      cases resolved
      simp
  | cons id ids ih =>
      obtain ⟨table, found, rest⟩ := bind_eq_ok.mp resolved
      obtain ⟨others, resolvedRest, same⟩ := bind_eq_ok.mp rest
      cases same
      obtain ⟨catalogued, rfl, old⟩ := table_catalogued found
      simp only [List.mem_cons, forall_eq_or_imp]
      exact ⟨⟨catalogued, old⟩, ih resolvedRest⟩

/-- What preparing a program establishes. -/
structure Prepared (view : View) (sequence : Nat) (claims : LimitPolicy) (prior : Nat)
    (program : Program) : Prop where
  sequence_ne : sequence ≠ maxU64
  sequence_eq : sequence = prior + 1
  policy : ∃ policy, Database.policy view prior = .ok policy ∧
    exceedsPolicy claims policy = false
  loaded : program.Loaded claims
  tables : ∀ table ∈ program.tables, table.Catalogued ∧ table.id ≤ prior

theorem prepareProgram_prepared {view : View} {sequence : Nat} {programBytes argumentBytes : Bytes}
    {claims : LimitPolicy} {prior : Nat} {program : Program}
    (prepared : prepareProgram view sequence programBytes argumentBytes claims =
      .ok (prior, program)) :
    Prepared view sequence claims prior program := by
  obtain ⟨prior', found, prepared⟩ := bind_eq_ok.mp prepared
  obtain ⟨policy, known, prepared⟩ := bind_eq_ok.mp prepared
  obtain ⟨⟨⟩, under, prepared⟩ := bind_eq_ok.mp prepared
  obtain ⟨ids, -, prepared⟩ := bind_eq_ok.mp prepared
  obtain ⟨tables, resolved, prepared⟩ := bind_eq_ok.mp prepared
  obtain ⟨program', decoded, same⟩ := bind_eq_ok.mp prepared
  cases same
  obtain ⟨different, next⟩ := priorSequence_eq_ok found
  rw [refuse_eq_ok, Bool.not_eq_true] at under
  obtain ⟨loaded, rfl⟩ := Program.decode_loaded decoded
  exact ⟨different, next, ⟨policy, known, under⟩, loaded, resolveTables_catalogued resolved⟩

theorem prepareTransaction_eq_ok [Sha256] {view : View} {sequence : Nat} {transaction : Transaction}
    {claims : LimitPolicy} {manifest : Option AccessManifest} {prepared : PreparedTransaction}
    (found : prepareTransaction view sequence transaction claims manifest = .ok prepared) :
    prepareProgram view sequence transaction.programBytes transaction.argumentBytes claims =
        .ok (prepared.prior, prepared.program) ∧ prepared.claims = claims ∧
      ∃ required, AccessAnalysis.derive prepared.program = .ok required ∧
        prepared.manifest = manifest.getD required ∧
        Access.validate prepared.manifest required prepared.program.tables claims = .ok () := by
  obtain ⟨⟨prior, program⟩, read, found⟩ := bind_eq_ok.mp found
  obtain ⟨required, derived, found⟩ := bind_eq_ok.mp found
  obtain ⟨⟨⟩, valid, same⟩ := bind_eq_ok.mp found
  cases same
  exact ⟨raise_eq_ok.mp read, rfl, required, derived, rfl, raise_eq_ok.mp valid⟩

/-- A prepared program runs on every view, faulty ones included. -/
theorem Prepared.runnable {view state : View} {sequence prior : Nat} {claims : LimitPolicy}
    {program : Program} (prepared : Prepared view sequence claims prior program) :
    Runtime.Runnable True state prior program claims := by
  refine ⟨prepared.loaded, fun table member => ?_⟩
  obtain ⟨schema, admitted⟩ := (prepared.tables table member).1.admitted
  exact ⟨schema, admitted, fun sound => absurd trivial sound⟩

/-! ## Successes -/

namespace Runtime

open Outcome (effectAddress overlayBytes validateEffect validateSuccess validateAbort)
open History (effectBytes transactionLimits writes writeTarget legalAbort isDelete)

@[simp]
theorem effectAddress_effect (entry : Address × Option Bytes) :
    effectAddress (effect entry) = entry.1 := by
  obtain ⟨address, value⟩ := entry
  cases value <;> rfl

@[simp]
theorem overlayBytes_effect (entry : Address × Option Bytes) :
    overlayBytes (effect entry) = overlayCharge entry := by
  obtain ⟨address, value⟩ := entry
  cases value <;> rfl

@[simp]
theorem isDelete_effect (entry : Address × Option Bytes) :
    isDelete (effect entry) = entry.2.isNone := by
  obtain ⟨address, value⟩ := entry
  cases value <;> rfl

section Successes

variable {view : View} {sequence prior : Nat} {claims : LimitPolicy} {program : Program}
variable {overlay : Overlay} {usage : Usage}

theorem map_overlayBytes (overlay : Overlay) :
    ((overlay.entries.map effect).map overlayBytes).sum = overlay.weight overlayCharge := by
  simp [OrdMap.weight, Function.comp_def]

theorem increasing_effects (overlay : Overlay) :
    (overlay.entries.map effect).Pairwise fun a b => effectAddress a < effectAddress b := by
  rw [List.pairwise_map]
  simp only [effectAddress_effect]
  exact overlay.increasing

/-- The effect of a private write is valid at the sequence of the record. -/
theorem Written.validateEffect (prepared : Prepared view sequence claims prior program)
    {entry : Address × Option Bytes} (written : Written program claims entry) :
    validateEffect sequence 1 (effect entry) = .ok () := by
  obtain ⟨⟨id, key⟩, value⟩ := entry
  obtain ⟨short, position, table, instruction, found, rfl, -, -, -, stores⟩ := written
  have member := List.mem_of_getElem? found
  obtain ⟨positive, bounded⟩ := prepared.loaded.tables table member
  have old := (prepared.tables table member).2
  have later := prepared.sequence_eq
  have keys := claims.value_le_ceiling 9
  have values := claims.value_le_ceiling 10
  simp only [Storage.limitCeilings, List.getD_cons_succ, List.getD_cons_zero] at keys values short
  have address : Outcome.validateAddress sequence table.id key = .ok () :=
    Outcome.validateAddress_eq_ok.mpr ⟨positive, bounded.ne, prepared.sequence_ne, by omega, by omega⟩
  cases value with
  | none => exact address
  | some bytes =>
      have size := (stores bytes rfl).1
      simp only [effect, Outcome.validateEffect, address, ok_bind, if_true]
      exact refuse_of_not _ (by omega)

/-- The effects of exact private writes are valid together. -/
theorem Overlaid.validateSuccess (prepared : Prepared view sequence claims prior program)
    (overlaid : Overlaid program claims overlay usage) (ty : Ty) (value : Value) :
    validateSuccess sequence 1 ty value (overlay.entries.map effect) = .ok () := by
  have count := overlaid.charged.size_le
  have total := overlaid.charged.bytes_le
  have counts := claims.value_le_ceiling 14
  have totals := claims.value_le_ceiling 15
  simp only [Storage.limitCeilings, List.getD_cons_succ, List.getD_cons_zero] at counts totals
  rw [overlaid.charged.bytes] at total
  refine Outcome.validateSuccess_eq_ok.mpr ⟨⟨?_, by simp⟩, by simp [Outcome.expectedReturn],
    fun other member => ?_, ?_⟩
  · rw [List.length_map]
    exact count.trans counts
  · obtain ⟨entry, inside, rfl⟩ := List.mem_map.mp member
    exact (overlaid.written entry inside).validateEffect prepared
  · rw [map_overlayBytes]
    exact total.trans totals

/-- The charges of effects within the limits on keys and values. -/
theorem effectBytes_of_written {policy : LimitPolicy}
    (under : ∀ position, claims.value position ≤ policy.value position)
    {entries : List (Address × Option Bytes)}
    (written : ∀ entry ∈ entries, Written program claims entry) :
    effectBytes policy (entries.map effect) = .ok (entries.map overlayCharge).sum := by
  induction entries with
  | nil => rfl
  | cons entry entries ih =>
      have rest := ih fun other member => written other (List.mem_cons_of_mem _ member)
      obtain ⟨short, -, table, -, -, -, -, -, -, stores⟩ := written entry List.mem_cons_self
      obtain ⟨⟨id, key⟩, value⟩ := entry
      have keys := under 9
      have values := under 10
      cases value with
      | none =>
          have fits : ¬ (key.length > policy.value 9 ∨ 0 > policy.value 10) := by
            simp only at short
            omega
          simp only [List.map_cons, effectBytes, effect, ok_bind, refuse_of_not _ fits, rest]
          rfl
      | some bytes =>
          have size := (stores bytes rfl).1
          have fits : ¬ (key.length > policy.value 9 ∨ bytes.length > policy.value 10) := by
            simp only at short
            omega
          simp only [List.map_cons, effectBytes, effect, ok_bind, refuse_of_not _ fits, rest]
          rfl

/-- A returned value and exact private writes respect every policy that the
claims are under. -/
theorem OutcomeSound.transactionLimits {policy : LimitPolicy} {outcome : Outcome}
    (sound : OutcomeSound program claims outcome)
    (under : ∀ position, claims.value position ≤ policy.value position) :
    transactionLimits outcome policy = .ok () := by
  cases outcome with
  | aborted abort => rfl
  | success ty value effects =>
      obtain ⟨-, -, returned, short, overlay, usage, rfl, overlaid, within⟩ := sound
      have count := overlaid.charged.size_le
      have points := overlaid.points.trans within.pointAccesses
      have addresses := overlaid.size_le_addresses.trans within.addresses
      have total := overlaid.charged.bytes_le
      rw [overlaid.charged.bytes, OrdMap.weight] at total
      have bounds : ¬ (value.encodedLen > policy.value 16 ∨ value.encodedLen > policy.value 10 ∨
          (overlay.entries.map effect).length > policy.value 14 ∨
          (overlay.entries.map effect).length > policy.value 8 ∨
          (overlay.entries.map effect).length > policy.value 7) := by
        have := under 16
        have := under 10
        have := under 14
        have := under 8
        have := under 7
        rw [List.length_map]
        simp only [OrdMap.size] at count points addresses
        omega
      simp only [History.transactionLimits, refuse_of_not _ bounds, ok_bind,
        effectBytes_of_written under overlaid.written]
      exact refuse_of_not _ (not_lt.mpr (total.trans (under 15)))

/-- A verified write instruction names a table of the program. -/
theorem writeTarget_table {argumentTypes constantTypes : List Ty} {initialized : Program.Initialized}
    {instruction : Instruction} {destination : Option Nat}
    (verified : program.verifyInstruction argumentTypes constantTypes claims initialized
      instruction = .ok destination) {position : Nat} {delete : Bool}
    (target : writeTarget instruction = some (position, delete)) :
    ∃ table, program.tables[position]? = some table := by
  cases instruction with
  | store table key value | insert table key value =>
      cases target
      obtain ⟨table, found, -⟩ := bind_eq_ok.mp verified
      exact ⟨table, table_eq_ok found⟩
  | delete table key =>
      cases target
      obtain ⟨table, found, -⟩ := bind_eq_ok.mp verified
      exact ⟨table, table_eq_ok found⟩
  | _ => cases target

/-- The write instructions name tables, and every one of them is listed. -/
theorem writes_eq_ok {instructions : List Instruction}
    (tables : ∀ instruction ∈ instructions, ∀ position delete,
      writeTarget instruction = some (position, delete) →
      ∃ table, program.tables[position]? = some table) :
    ∃ targets, writes program instructions = .ok targets ∧
      ∀ instruction ∈ instructions, ∀ position delete table,
        writeTarget instruction = some (position, delete) →
        program.tables[position]? = some table → (table.id, delete) ∈ targets := by
  induction instructions with
  | nil => exact ⟨[], rfl, by simp⟩
  | cons instruction instructions ih =>
      obtain ⟨targets, listed, complete⟩ :=
        ih fun other member => tables other (List.mem_cons_of_mem _ member)
      cases target : writeTarget instruction with
      | none =>
          refine ⟨targets, by simp only [writes, target, listed], ?_⟩
          intro other member position delete table targeted found
          rcases List.mem_cons.mp member with rfl | inRest
          · rw [target] at targeted
            cases targeted
          · exact complete other inRest position delete table targeted found
      | some pair =>
          obtain ⟨position, delete⟩ := pair
          obtain ⟨table, found⟩ := tables instruction List.mem_cons_self position delete target
          refine ⟨(table.id, delete) :: targets, ?_, ?_⟩
          · simp only [writes, target, index_eq_ok.mpr found, ok_bind, listed, pure_eq_ok]
          · intro other member position' delete' table' targeted found'
            rcases List.mem_cons.mp member with rfl | inRest
            · rw [target] at targeted
              cases targeted
              rw [found] at found'
              cases found'
              exact List.mem_cons_self
            · exact List.mem_cons_of_mem _
                (complete other inRest position' delete' table' targeted found')

end Successes

/-! ## Aborts -/

section Aborts

variable {program : Program} {claims : LimitPolicy} {abort : Abort}

/-- Sound aborts have valid fields for a transaction. -/
theorem OutcomeSound.validateAbort (loaded : program.Loaded claims)
    (sound : OutcomeSound program claims (.aborted abort)) : validateAbort 1 abort = .ok () := by
  obtain ⟨instruction, found, -, number, code, resource, other⟩ := sound
  have inside := (List.getElem?_eq_some_iff.mp found).1
  have count := loaded.count
  have positive : 1 ≤ abort.reason.number := by
    cases abort.reason <;> decide
  have legal : Outcome.legalKind 1 abort = true := by
    simp only [Outcome.legalKind, Bool.and_eq_true, decide_eq_true_eq]
    exact ⟨⟨positive, number⟩, by omega⟩
  have limited : abort.reason.number = 7 ↔ abort.reason = .resourceLimit := by
    cases abort.reason <;> decide
  have coded : (abort.reason.number = 3 ∨ abort.reason.number = 4) ↔
      (abort.reason = .requireFailed ∨ abort.reason = .explicitAbort) := by
    cases abort.reason <;> decide
  refine refuse_of_not _ ?_
  simp only [legal, limited, coded, ne_eq, not_or, not_and, not_not, Bool.true_eq_false,
    not_false_eq_true, true_and]
  exact ⟨fun neither => code neither.1 neither.2, fun same outside => by
    have := resource same
    omega, other⟩

/-- The user code of a sound abort fits its field. -/
theorem OutcomeSound.userCode_lt (loaded : program.Loaded claims)
    (sound : OutcomeSound program claims (.aborted abort)) : abort.userCode < 2 ^ 32 := by
  obtain ⟨instruction, found, legal, -, code, -, -⟩ := sound
  have fits := loaded.codes instruction (List.mem_of_getElem? found)
  by_cases required : abort.reason = .requireFailed
  · rw [required] at legal
    cases instruction with
    | require condition own =>
        simp only [legalAbort, Program.codeFits, decide_eq_true_eq] at legal fits
        omega
    | _ => cases legal
  · by_cases explicit : abort.reason = .explicitAbort
    · rw [explicit] at legal
      cases instruction with
      | abort own =>
          simp only [legalAbort, Program.codeFits, decide_eq_true_eq] at legal fits
          omega
      | _ => cases legal
    · rw [code required explicit]
      decide

end Aborts

end Runtime

/-! ## Prepared transactions -/

section Checked

variable {view state : View} {sequence : Nat} {transaction : Transaction} {claims : LimitPolicy}
variable {outcome : Outcome} {digest : Bytes}

/-- The record of a sound outcome encodes and decodes to itself. -/
theorem encodeOutcome_sound {prior : Nat} {program : Program}
    (prepared : Prepared view sequence claims prior program) (small : sequence < 2 ^ 64)
    (digested : digest.length = 32) (sound : Runtime.OutcomeSound program claims outcome) :
    ∃ bytes, Outcome.encodeOutcome sequence digest 1 outcome = .ok bytes ∧
      Outcome.decodeOutcome bytes = .ok ⟨sequence, digest, 1, outcome⟩ := by
  have loaded := prepared.loaded
  have id : Database.validId sequence = .ok () :=
    refuse_of_not _ (by
      have := prepared.sequence_eq
      have := prepared.sequence_ne
      omega)
  cases outcome with
  | aborted abort =>
      obtain ⟨bytes, encoded⟩ :=
        Outcome.encodeOutcome_aborted id (by decide) digested (sound.validateAbort loaded)
      exact ⟨bytes, encoded,
        Outcome.decodeOutcome_aborted small digested (sound.userCode_lt loaded) encoded⟩
  | success ty value effects =>
      obtain ⟨rfl, accepted, -, -, overlay, usage, rfl, overlaid, -⟩ := sound
      have increasing := Runtime.increasing_effects overlay
      obtain ⟨formed, short⟩ := loaded.result
      obtain ⟨bytes, encoded⟩ := Outcome.encodeOutcome_success id digested formed short accepted
        (overlaid.validateSuccess prepared program.resultType value) increasing
      have decoded := Outcome.decodeOutcome_success small digested formed encoded
      rw [Outcome.sortEffects_of_increasing increasing] at decoded
      exact ⟨bytes, encoded, decoded⟩

/-- A sound outcome passes the check against its source program. -/
theorem validateTransactionOutcome_sound {prior : Nat} {program : Program}
    (read : prepareProgram view sequence transaction.programBytes transaction.argumentBytes claims =
      .ok (prior, program)) (sound : Runtime.OutcomeSound program claims outcome) :
    History.validateTransactionOutcome view sequence transaction claims
      ⟨sequence, digest, 1, outcome⟩ = .ok () := by
  have prepared := prepareProgram_prepared read
  have limits := sound.transactionLimits fun _ => le_rfl
  simp only [History.validateTransactionOutcome, read, limits, raise_ok, ok_bind]
  cases outcome with
  | aborted abort =>
      obtain ⟨instruction, found, legal, -⟩ := sound
      simp only [found, legal, Bool.true_eq_false, refuse_false, raise_ok]
  | success ty value effects =>
      obtain ⟨rfl, -, -, -, overlay, usage, rfl, overlaid, -⟩ := sound
      obtain ⟨_, _, facts, -, -, certificate⟩ := prepared.loaded.certified
      have tables : ∀ instruction ∈ program.instructions, ∀ position delete,
          History.writeTarget instruction = some (position, delete) →
          ∃ table, program.tables[position]? = some table := by
        intro instruction member position delete target
        obtain ⟨pc, inside, rfl⟩ := List.mem_iff_getElem.mp member
        obtain ⟨_, verified, -⟩ := certificate.verified pc _ (List.getElem?_eq_getElem inside)
        exact Runtime.writeTarget_table verified target
      obtain ⟨targets, listed, complete⟩ := Runtime.writes_eq_ok tables
      simp only [ne_eq, not_true_eq_false, refuse_false, raise_ok, ok_bind, listed]
      rw [refuse_of_not _ ?_, raise_ok]
      simp only [List.any_eq_true, List.mem_map, decide_eq_true_eq, not_exists, not_and, not_not]
      rintro _ ⟨entry, member, rfl⟩
      obtain ⟨-, position, table, instruction, found, named, inProgram, target, -⟩ :=
        overlaid.written entry member
      rw [Runtime.effectAddress_effect, Runtime.isDelete_effect, ← named]
      exact complete instruction inProgram position _ table target found

variable [Sha256] {manifest : Option AccessManifest} {prepared : PreparedTransaction}

/-- The outcome of a prepared transaction is sound on every view. -/
theorem interpretPrepared_sound
    (found : prepareTransaction view sequence transaction claims manifest = .ok prepared)
    (ran : interpretPrepared state prepared = some (.ok outcome)) :
    Runtime.OutcomeSound prepared.program claims outcome := by
  obtain ⟨read, rfl, -⟩ := prepareTransaction_eq_ok found
  obtain ⟨result, returned, safe⟩ :=
    @Runtime.run_safe _ _ state _ _ _ (prepareProgram_prepared read).runnable
  rw [interpretPrepared, returned, Option.some.injEq] at ran
  exact safe.of_ok ran

/-- Outcomes and their independent checkers agree.  Whatever a prepared
transaction returns on any view encodes as a transaction record, decodes to the
same record, passes the check against its source, and respects the policy in
force before its sequence. -/
theorem prepared_outcome_checked
    (found : prepareTransaction view sequence transaction claims manifest = .ok prepared)
    (ran : interpretPrepared state prepared = some (.ok outcome)) (small : sequence < 2 ^ 64)
    (digested : digest.length = 32) :
    (∃ bytes, Outcome.encodeOutcome sequence digest 1 outcome = .ok bytes ∧
      Outcome.decodeOutcome bytes = .ok ⟨sequence, digest, 1, outcome⟩) ∧
    History.validateTransactionOutcome view sequence transaction claims
      ⟨sequence, digest, 1, outcome⟩ = .ok () ∧
    History.transactionLimits outcome claims = .ok () ∧
    ∃ policy, Database.policy view prepared.prior = .ok policy ∧
      History.transactionLimits outcome policy = .ok () := by
  have sound := interpretPrepared_sound found ran
  obtain ⟨read, -, -⟩ := prepareTransaction_eq_ok found
  have established := prepareProgram_prepared read
  obtain ⟨policy, known, under⟩ := established.policy
  exact ⟨encodeOutcome_sound established small digested sound,
    validateTransactionOutcome_sound read sound, sound.transactionLimits fun _ => le_rfl,
    policy, known, sound.transactionLimits (value_le_of_not_exceeds under)⟩

end Checked

namespace Sample

/-- A database at sequence two: the genesis policy, the table and one row. -/
def database : View :=
  ⟨fun
    | .catalogue => (∅ : Storage.Tree).insert (Database.catalogueKey 1 1) catalogueBytes
    | .policy => (∅ : Storage.Tree).insert (List.replicate 8 0) claims.encode
    | tree => view.roots tree⟩

/-- The sample program as the transaction of the third record. -/
def transaction : Transaction := ⟨programBytes, argumentBytes⟩

/-- The prepared transaction with its derived scopes. -/
def prepared : PreparedTransaction := ⟨2, program, claims, manifest⟩

theorem database_policy : Database.policy database 2 = .ok claims := by
  have entries : (database.scan .policy .unbounded (.included (beBytes 8 2))).mapError Error.storage =
      .ok [(List.replicate 8 0, claims.encode)] := rfl
  simp only [Database.policy, refuse_of_not _ (show ¬ (2 = maxU64) by decide), ok_bind, entries,
    Database.latestPolicy, LimitPolicy.decode_encode]
  rfl

theorem transaction_prepared :
    prepareTransaction database 3 transaction claims none = .ok prepared := by
  have tables : resolveTables database 2 [1] = .ok [table] := rfl
  have read : prepareProgram database 3 transaction.programBytes transaction.argumentBytes claims =
      .ok (2, program) := by
    simp only [prepareProgram, show priorSequence 3 = .ok 2 from rfl, ok_bind, database_policy,
      refuse_of_not _ (show ¬ exceedsPolicy claims claims = true by decide),
      show Program.tableIds transaction.programBytes = .ok [1] from rfl, tables]
    simp only [transaction, program_decoded, ok_bind, pure_eq_ok]
  have valid : Access.validate manifest manifest program.tables claims = .ok () := rfl
  simp only [prepareTransaction, read, raise_ok, ok_bind, finishPreparation, program_derived,
    Option.getD_none, valid, pure_eq_ok]
  rfl

/-- The outcome of the sample transaction. -/
def outcome : Outcome := .success .u64 (.u64 5) [.put 1 (beBytes 8 5) (leBytes 8 5)]

/-- The digest of the sample record. -/
def digest : Bytes := List.replicate 32 7

theorem prepared_runs : interpretPrepared database prepared = some (.ok outcome) := by
  decide +kernel

/-- The outcome of the sample transaction passes every check. -/
theorem store_constant_checked :
    (∃ bytes, Outcome.encodeOutcome 3 digest 1 outcome = .ok bytes ∧
      Outcome.decodeOutcome bytes = .ok ⟨3, digest, 1, outcome⟩) ∧
    History.validateTransactionOutcome database 3 transaction claims ⟨3, digest, 1, outcome⟩ =
      .ok () ∧
    History.transactionLimits outcome claims = .ok () ∧
    ∃ policy, Database.policy database prepared.prior = .ok policy ∧
      History.transactionLimits outcome policy = .ok () :=
  prepared_outcome_checked transaction_prepared prepared_runs (by decide) rfl

end Sample

end BlopDb.Vm
