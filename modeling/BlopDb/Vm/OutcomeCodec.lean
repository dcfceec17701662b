/-
# Encoded outcomes decode

Every outcome that encodes decodes to itself with its effects in address order.
The readers are matched with the writers one field at a time; the effects are
read back by induction on their list.
-/

import BlopDb.Storage.MvccSpec
import BlopDb.Vm.Outcome
import BlopDb.Vm.ValueCodec

namespace BlopDb.Storage.LimitPolicy

open BlopDb.Lib

theorem length_flatMap_leBytes (values : List Nat) :
    (values.flatMap (leBytes 8)).length = 8 * values.length := by
  induction values with
  | nil => rfl
  | cons value values ih =>
      simp only [List.flatMap_cons, List.length_append, length_leBytes, ih, List.length_cons]
      omega

@[simp]
theorem length_encode (policy : LimitPolicy) : policy.encode.length = 140 := by
  simp [encode, policy.length_values]

/-- The field at a position of a list of little-endian integers. -/
theorem field_flatMap {values : List Nat} (small : ∀ value ∈ values, value < 256 ^ 8) {position : Nat}
    (inside : position < values.length) :
    leNat (((values.flatMap (leBytes 8)).drop (position * 8)).take 8) = values[position] := by
  induction values generalizing position with
  | nil => simp at inside
  | cons value values ih =>
      cases position with
      | zero =>
          simp only [Nat.zero_mul, List.drop_zero, List.flatMap_cons, List.getElem_cons_zero]
          rw [List.take_append_of_le_length (by simp), List.take_of_length_le (by simp),
            leNat_leBytes _ _ (small value List.mem_cons_self)]
      | succ position =>
          have step : (position + 1) * 8 = (leBytes 8 value).length + position * 8 := by
            simp
            omega
          rw [List.flatMap_cons, step, List.drop_length_add_append, List.getElem_cons_succ]
          exact ih (fun other member => small other (List.mem_cons_of_mem _ member))
            (by simpa using inside)

/-- Every limit fits its field. -/
theorem value_lt (policy : LimitPolicy) {value : Nat} (member : value ∈ policy.values) :
    value < 256 ^ 8 := by
  obtain ⟨position, inside, rfl⟩ := List.mem_iff_getElem.mp member
  have bounded := policy.value_le_ceiling position
  have ceilings : ∀ ceiling ∈ limitCeilings, ceiling ≤ 64 * 1024 * 1024 := by decide
  have small : limitCeilings.getD position 0 ≤ 64 * 1024 * 1024 := by
    rw [List.getD_eq_getElem?_getD]
    cases found : limitCeilings[position]? with
    | none => simp
    | some ceiling => exact ceilings ceiling (List.mem_of_getElem? found)
  have found : policy.value position = policy.values[position] := by
    simp [value, List.getD_eq_getElem?_getD, List.getElem?_eq_getElem inside]
  omega

theorem decodeValues_encode (policy : LimitPolicy) : decodeValues policy.encode = policy.values := by
  refine List.ext_getElem (by simp [decodeValues, policy.length_values]) fun position inside _ => ?_
  have inside : position < policy.values.length := by
    simpa [decodeValues, policy.length_values] using inside
  have skip : policy.encode.drop (4 + position * 8) =
      (policy.values.flatMap (leBytes 8)).drop (position * 8) := by
    rw [encode, List.drop_append, List.drop_of_length_le (by simp)]
    simp
  simp only [decodeValues, List.getElem_map, List.getElem_range, skip]
  exact field_flatMap (fun value member => policy.value_lt member) inside

/-- An encoded policy decodes to itself. -/
theorem decode_encode (policy : LimitPolicy) : decode policy.encode = .ok policy := by
  have version : leNat (policy.encode.take 2) = 1 := by
    simp [encode]
    rfl
  have reserved : leNat ((policy.encode.drop 2).take 2) = 0 := by
    rw [encode, List.append_assoc, List.drop_append_of_le_length (by simp)]
    rfl
  obtain ⟨values, length, bounded⟩ := policy
  simp only [decode, length_encode, version, reserved, decodeValues_encode]
  simp [bounded]

end BlopDb.Storage.LimitPolicy

namespace BlopDb.Vm.Outcome

open BlopDb.Lib
open Storage (LimitPolicy)

/-! ## Readers and writers -/

theorem readUint_leBytes {width number : Nat} (fits : number < 256 ^ width) (rest : Bytes) :
    readUint width (leBytes width number ++ rest) = .ok (number, rest) := by
  simp [readUint, take, takeBytes_leBytes, leNat_leBytes width number fits]

theorem blob_eq_ok {bytes encoded : Bytes} :
    blob bytes = .ok encoded ↔
      bytes.length < 2 ^ 32 ∧ encoded = leBytes 4 bytes.length ++ bytes := by
  simp only [blob, bind_eq_ok, refuse_eq_ok, pure_eq_ok, Except.ok.injEq, exists_const, not_le,
    ge_iff_le]
  exact and_congr_right fun _ => eq_comm

theorem readBlob_blob {bytes encoded : Bytes} (written : blob bytes = .ok encoded) (rest : Bytes) :
    readBlob (encoded ++ rest) = .ok (bytes, rest) := by
  obtain ⟨short, rfl⟩ := blob_eq_ok.mp written
  rw [readBlob, List.append_assoc, readUint_leBytes (by omega)]
  exact takeBytes_append _ bytes rest

theorem length_blob {bytes encoded : Bytes} (written : blob bytes = .ok encoded) :
    encoded.length = 4 + bytes.length := by
  obtain ⟨-, rfl⟩ := blob_eq_ok.mp written
  simp

theorem readUint_cons (byte : UInt8) (rest : Bytes) :
    readUint 1 (byte :: rest) = .ok (byte.toNat, rest) := by
  simp [readUint, take, takeBytes_cons_one]

/-! ## Effects -/

theorem validateAddress_eq_ok {sequence table : Nat} {key : Bytes} {done : Unit} :
    validateAddress sequence table key = .ok done ↔
      table ≠ 0 ∧ table ≠ Storage.maxU64 ∧ sequence ≠ Storage.maxU64 ∧ key.length ≤ 1024 ∧
        table < sequence := by
  have built : validateAddress sequence table key = .ok done ↔
      ∃ state, Storage.Mvcc.StateKey.new table key sequence = .ok state := by
    simp [validateAddress, bind_eq_ok, mapError_eq_ok]
  rw [built]
  simp only [Storage.Mvcc.StateKey.new_eq_ok]
  constructor
  · rintro ⟨state, rfl, rest⟩
    exact rest
  · intro rest
    exact ⟨_, rfl, rest⟩

/-- An encoded effect has at least thirteen bytes. -/
theorem length_encodeEffect {effect : Effect} {encoded : Bytes}
    (written : encodeEffect effect = .ok encoded) : 13 ≤ encoded.length := by
  cases effect with
  | put table key value =>
      obtain ⟨key', blobbed, rest⟩ := bind_eq_ok.mp written
      obtain ⟨value', blobbed', same⟩ := bind_eq_ok.mp rest
      cases same
      have := length_blob blobbed
      have := length_blob blobbed'
      simp
      omega
  | delete table key =>
      obtain ⟨key', blobbed, same⟩ := bind_eq_ok.mp written
      cases same
      have := length_blob blobbed
      simp
      omega
  | catalogue table value =>
      obtain ⟨value', blobbed, same⟩ := bind_eq_ok.mp written
      cases same
      have := length_blob blobbed
      simp
      omega
  | limits policy =>
      obtain ⟨value', blobbed, same⟩ := bind_eq_ok.mp written
      cases same
      have := length_blob blobbed
      simp at this
      simp
      omega

/-- An encoded effect that is valid for the record is read back. -/
theorem readEffect_encodeEffect {sequence kind : Nat} {effect : Effect} {encoded : Bytes}
    (small : sequence < 2 ^ 64) (valid : validateEffect sequence kind effect = .ok ())
    (written : encodeEffect effect = .ok encoded) (rest : Bytes) :
    readEffect sequence kind (encoded ++ rest) = .ok (effect, rest) := by
  cases effect with
  | put table key value =>
      simp only [validateEffect] at valid
      split at valid
      next isTransaction =>
        subst isTransaction
        obtain ⟨⟨⟩, address, fits⟩ := bind_eq_ok.mp valid
        obtain ⟨positive, bounded, -, short, later⟩ := validateAddress_eq_ok.mp address
        rw [refuse_eq_ok] at fits
        obtain ⟨key', blobbed, tail⟩ := bind_eq_ok.mp written
        obtain ⟨value', blobbed', same⟩ := bind_eq_ok.mp tail
        cases same
        simp only [readEffect, List.cons_append, readUint_cons, ok_bind, List.append_assoc,
          readUint_leBytes (show table < 256 ^ 8 by omega), readBlob_blob blobbed,
          readBlob_blob blobbed', Database.validId]
        rw [refuse_of_not _ (by simp [positive, bounded]), refuse_of_not _ (by omega),
          refuse_of_not _ fits]
        rfl
      next => cases valid
  | delete table key =>
      simp only [validateEffect] at valid
      split at valid
      next isTransaction =>
        subst isTransaction
        obtain ⟨positive, bounded, -, short, later⟩ := validateAddress_eq_ok.mp valid
        obtain ⟨key', blobbed, same⟩ := bind_eq_ok.mp written
        cases same
        simp only [readEffect, List.cons_append, readUint_cons, ok_bind, List.append_assoc,
          readUint_leBytes (show table < 256 ^ 8 by omega), readBlob_blob blobbed,
          Database.validId]
        rw [refuse_of_not _ (by simp [positive, bounded]), refuse_of_not _ (by omega)]
        rfl
      next => cases valid
  | catalogue table value =>
      simp only [validateEffect] at valid
      split at valid
      next isCatalogue =>
        subst isCatalogue
        obtain ⟨version, decoded, order⟩ := bind_eq_ok.mp valid
        rw [refuse_eq_ok] at order
        obtain ⟨value', blobbed, same⟩ := bind_eq_ok.mp written
        cases same
        simp only [readEffect, List.cons_append, readUint_cons, ok_bind, List.append_assoc,
          readUint_leBytes (show table < 256 ^ 8 by omega), readBlob_blob blobbed]
        simp [decoded]
      next => cases valid
  | limits policy =>
      simp only [validateEffect] at valid
      split at valid
      next isLimits =>
        subst isLimits
        obtain ⟨value', blobbed, same⟩ := bind_eq_ok.mp written
        cases same
        simp only [readEffect, List.cons_append, readUint_cons, ok_bind, readBlob_blob blobbed]
        simp [LimitPolicy.decode_encode, Except.mapError]
      next => cases valid

/-- Valid effects with strictly increasing addresses are read back. -/
theorem readEffects_encodeEffects {sequence kind : Nat} (small : sequence < 2 ^ 64)
    {effects : List Effect} {encoded : Bytes} (written : encodeEffects effects = .ok encoded)
    (valid : ∀ effect ∈ effects, validateEffect sequence kind effect = .ok ())
    (increasing : effects.Pairwise fun a b => effectAddress a < effectAddress b)
    (previous : Option Address)
    (after : ∀ address ∈ previous, ∀ effect ∈ effects, address < effectAddress effect)
    (rest : Bytes) :
    readEffects sequence kind effects.length previous (encoded ++ rest) = .ok (effects, rest) ∧
      13 * effects.length ≤ encoded.length := by
  induction effects generalizing encoded previous with
  | nil =>
      cases written
      exact ⟨rfl, by simp⟩
  | cons effect effects ih =>
      obtain ⟨first, writtenFirst, tail⟩ := bind_eq_ok.mp written
      obtain ⟨others, writtenOthers, same⟩ := bind_eq_ok.mp tail
      cases same
      obtain ⟨later, increasing⟩ := List.pairwise_cons.mp increasing
      obtain ⟨reads, length⟩ := ih writtenOthers
        (fun other member => valid other (List.mem_cons_of_mem _ member)) increasing
        (some (effectAddress effect)) (fun address same other member => by
          cases same
          exact later other member)
      have ordered : ¬ (previous.any fun previous =>
          decide (previous ≥ effectAddress effect)) = true := by
        simp only [Option.any_eq_true, decide_eq_true_eq, ge_iff_le, not_exists, not_and, not_le]
        exact fun address isPrevious => after address isPrevious effect List.mem_cons_self
      have width := length_encodeEffect writtenFirst
      constructor
      · simp only [List.length_cons, readEffects, List.append_assoc,
          readEffect_encodeEffect small (valid effect List.mem_cons_self) writtenFirst, ok_bind,
          refuse_of_not _ ordered, reads]
        rfl
      · simp only [List.length_cons, List.length_append]
        omega

/-! ## Canonical order -/

theorem sorted_sortEffects (effects : List Effect) :
    (sortEffects effects).Pairwise fun a b => effectAddress a ≤ effectAddress b := by
  have sorted := @List.pairwise_mergeSort _
    (fun a b => decide (effectAddress a ≤ effectAddress b))
    (fun a b c hab hbc => by
      simp only [decide_eq_true_eq] at *
      exact hab.trans hbc)
    (fun a b => by
      simp only [Bool.or_eq_true, decide_eq_true_eq]
      exact le_total _ _) effects
  exact sorted.imp fun h => by simpa using h

theorem sortEffects_of_increasing {effects : List Effect}
    (increasing : effects.Pairwise fun a b => effectAddress a < effectAddress b) :
    sortEffects effects = effects :=
  List.mergeSort_of_pairwise (increasing.imp fun less => by simpa using less.le)

/-- Sorted effects without equal neighbours increase strictly. -/
theorem increasing_of_sorted {effects : List Effect}
    (sorted : effects.Pairwise fun a b => effectAddress a ≤ effectAddress b)
    (distinct : duplicateAddress effects = false) :
    effects.Pairwise fun a b => effectAddress a < effectAddress b := by
  induction effects with
  | nil => exact .nil
  | cons first rest ih =>
      obtain ⟨later, tail⟩ := List.pairwise_cons.mp sorted
      cases rest with
      | nil => exact List.pairwise_singleton _ _
      | cons second rest =>
          simp only [duplicateAddress, Bool.or_eq_false_iff, decide_eq_false_iff_not] at distinct
          have below : effectAddress first < effectAddress second :=
            lt_of_le_of_ne (later second List.mem_cons_self) distinct.1
          have increasing := ih tail distinct.2
          refine List.pairwise_cons.mpr ⟨fun other member => ?_, increasing⟩
          rcases List.mem_cons.mp member with rfl | inRest
          · exact below
          · exact below.trans ((List.pairwise_cons.mp increasing).1 other inRest)

theorem duplicateAddress_of_increasing {effects : List Effect}
    (increasing : effects.Pairwise fun a b => effectAddress a < effectAddress b) :
    duplicateAddress effects = false := by
  induction effects with
  | nil => rfl
  | cons first rest ih =>
      obtain ⟨later, tail⟩ := List.pairwise_cons.mp increasing
      cases rest with
      | nil => rfl
      | cons second rest =>
          simp only [duplicateAddress, Bool.or_eq_false_iff, decide_eq_false_iff_not]
          exact ⟨(later second List.mem_cons_self).ne, ih tail⟩

theorem validateEffects_eq_ok {sequence kind : Nat} {effects : List Effect} :
    validateEffects sequence kind effects = .ok () ↔
      ∀ effect ∈ effects, validateEffect sequence kind effect = .ok () := by
  induction effects with
  | nil => simp [validateEffects]
  | cons effect effects ih =>
      simp only [validateEffects, bind_eq_ok, List.mem_cons, forall_eq_or_imp, ih]
      constructor
      · rintro ⟨⟨⟩, first, rest⟩
        exact ⟨first, rest⟩
      · rintro ⟨first, rest⟩
        exact ⟨(), first, rest⟩

theorem validateSuccess_eq_ok {sequence kind : Nat} {ty : Ty} {value : Value}
    {effects : List Effect} :
    validateSuccess sequence kind ty value effects = .ok () ↔
      (effects.length ≤ 65535 ∧ (kind ≠ 1 → effects.length = 1)) ∧
        (∀ expected ∈ expectedReturn sequence kind effects,
          ty = expected.1 ∧ value = expected.2) ∧
        (∀ effect ∈ effects, validateEffect sequence kind effect = .ok ()) ∧
        (effects.map overlayBytes).sum ≤ 64 * 1024 * 1024 := by
  simp only [validateSuccess, bind_eq_ok, refuse_eq_ok, ← validateEffects_eq_ok]
  simp only [Option.any_eq_true, decide_eq_true_eq, not_exists, not_and, not_or, ne_eq, not_not,
    gt_iff_lt, not_lt]
  constructor
  · rintro ⟨-, count, -, expected, ⟨⟩, effects, total⟩
    exact ⟨count, fun pair member => expected pair member, effects, total⟩
  · rintro ⟨count, expected, effects, total⟩
    exact ⟨(), count, (), fun pair member => expected pair member, (), effects, total⟩

/-- Reordering effects keeps a successful outcome valid. -/
theorem validateSuccess_perm {sequence kind : Nat} {ty : Ty} {value : Value}
    {effects effects' : List Effect} (same : effects'.Perm effects)
    (valid : validateSuccess sequence kind ty value effects = .ok ()) :
    validateSuccess sequence kind ty value effects' = .ok () := by
  rw [validateSuccess_eq_ok] at valid ⊢
  obtain ⟨⟨few, single⟩, expected, each, total⟩ := valid
  refine ⟨⟨same.length_eq ▸ few, fun h => same.length_eq.trans (single h)⟩, ?_,
    fun effect member => each effect (same.mem_iff.mp member), ?_⟩
  · by_cases transaction : kind = 1
    · simp [expectedReturn, transaction]
    · obtain ⟨effect, rfl⟩ := List.length_eq_one_iff.mp (single transaction)
      rw [List.perm_singleton.mp same]
      exact expected
  · rwa [(same.map overlayBytes).sum_eq]

/-! ## Whole outcomes -/

/-- The outcome with its effects in address order. -/
def canonical : Outcome → Outcome
  | .success resultType value effects => .success resultType value (sortEffects effects)
  | .aborted abort => .aborted abort

theorem abortReason_number (reason : AbortReason) : abortReason reason.number = .ok reason := by
  cases reason <;> rfl

theorem number_lt (reason : AbortReason) : reason.number < 256 ^ 2 := by
  cases reason <;> decide

/-- The header of an encoded outcome is read back. -/
theorem decodeOutcome_header {sequence kind status : Nat} {digest body : Bytes}
    (valid : Database.validId sequence = .ok ()) (small : sequence < 2 ^ 64)
    (known : 1 ≤ kind ∧ kind ≤ 3) (flag : status < 256) (digested : digest.length = 32)
    {reason instruction userCode detail : Nat} (hreason : reason < 256 ^ 2)
    (hinstruction : instruction < 256 ^ 4) (huser : userCode < 256 ^ 4)
    (hdetail : detail < 256 ^ 8) {returned encoded : Bytes} (written : blob returned = .ok encoded)
    {count : Nat} (hcount : count < 256 ^ 4) {effects : Bytes}
    (fields : body = leBytes 2 reason ++ leBytes 2 0 ++ leBytes 4 instruction ++
      leBytes 4 userCode ++ leBytes 4 0 ++ leBytes 8 detail ++ encoded ++ leBytes 4 count ++ effects)
    (short : ([1, 0, UInt8.ofNat kind, UInt8.ofNat status] ++ leBytes 8 sequence ++ digest ++
      body).length ≤ maxOutcomeBytes) :
    decodeOutcome ([1, 0, UInt8.ofNat kind, UInt8.ofNat status] ++ leBytes 8 sequence ++ digest ++
        body) =
      match status with
      | 0 => do
          refuse (reason ≠ 0 ∨ instruction ≠ maxU32 ∨ userCode ≠ 0 ∨ detail ≠ 0)
            (.invalid "invalid success outcome fields")
          refuse (count > 65535 ∨ count > effects.length / 13 ∨ (kind ≠ 1 ∧ count ≠ 1))
            (.invalid "invalid outcome effect count")
          let (descriptor, returned) ← readBlob returned
          let resultType ← Ty.decode descriptor
          let (encoded, returned) ← readBlob returned
          let value ← decodeValue resultType encoded
          refuse (returned ≠ []) (.invalid "trailing outcome TypedValue bytes")
          let (effects, input) ← readEffects sequence kind count none effects
          validateSuccess sequence kind resultType value effects
          refuse (input ≠ []) (.invalid "trailing outcome bytes")
          return ⟨sequence, digest, kind, .success resultType value effects⟩
      | 1 => do
          refuse (returned ≠ [] ∨ count ≠ 0)
            (.invalid "aborted outcome has return bytes or effects")
          let reason ← abortReason reason
          let abort : Abort := ⟨reason, instruction, userCode, detail⟩
          validateAbort kind abort
          refuse (effects ≠ []) (.invalid "trailing outcome bytes")
          return ⟨sequence, digest, kind, .aborted abort⟩
      | _ => throw (.invalid "invalid outcome status") := by
  subst fields
  have kindByte : (UInt8.ofNat kind).toNat = kind := by
    simp only [UInt8.toNat_ofNat']
    omega
  have statusByte : (UInt8.ofNat status).toNat = status := by
    simp only [UInt8.toNat_ofNat']
    omega
  have digesting (rest : Bytes) : take (digest ++ rest) 32 = .ok (digest, rest) := by
    have := takeBytes_append (Error.invalid "truncated outcome") digest rest
    rwa [digested] at this
  have start (rest : Bytes) :
      readUint 2 (1 :: 0 :: UInt8.ofNat kind :: UInt8.ofNat status :: rest) =
        .ok (1, UInt8.ofNat kind :: UInt8.ofNat status :: rest) :=
    @readUint_leBytes 2 1 (by decide) _
  simp only [decodeOutcome]
  rw [refuse_of_not _ (not_lt.mpr short)]
  simp only [ok_bind, List.cons_append, List.nil_append, List.append_assoc, start, readUint_cons,
    kindByte, statusByte, readUint_leBytes (show sequence < 256 ^ 8 by omega), digesting,
    readUint_leBytes hreason, readUint_leBytes (show 0 < 256 ^ 2 by decide),
    readUint_leBytes hinstruction, readUint_leBytes huser,
    readUint_leBytes (show 0 < 256 ^ 4 by decide), readUint_leBytes hdetail, readBlob_blob written,
    readUint_leBytes hcount, valid, ne_eq, not_true_eq_false, refuse_false]
  rw [refuse_of_not _ (by simpa using known)]
  rfl

/-- The bounds that validation puts on the fields of an abort. -/
theorem validateAbort_bounds {kind : Nat} {abort : Abort}
    (valid : validateAbort kind abort = .ok ()) :
    abort.instruction < 256 ^ 4 ∧ abort.detail < 256 ^ 8 := by
  simp only [validateAbort, refuse_eq_ok, not_or, Bool.not_eq_false] at valid
  obtain ⟨legal, -, resource, other⟩ := valid
  constructor
  · unfold legalKind at legal
    split at legal
    · simp only [Bool.and_eq_true, decide_eq_true_eq] at legal
      omega
    · simp only [Bool.and_eq_true, decide_eq_true_eq] at legal
      rw [legal.2]
      decide
    · cases legal
  · omega

theorem encodeOutcome_eq_ok {sequence kind : Nat} {digest : Bytes} {outcome : Outcome}
    {bytes : Bytes} :
    encodeOutcome sequence digest kind outcome = .ok bytes ↔
      Database.validId sequence = .ok () ∧ (1 ≤ kind ∧ kind ≤ 3) ∧
        ∃ body, encodeBody sequence kind outcome = .ok body ∧
          bytes = [1, 0, UInt8.ofNat kind, status outcome] ++ leBytes 8 sequence ++ digest ++ body ∧
          bytes.length ≤ maxOutcomeBytes := by
  simp only [encodeOutcome, bind_eq_ok, raise_eq_ok, refuse_eq_ok, pure_eq_ok, Except.ok.injEq,
    not_not, not_lt]
  constructor
  · rintro ⟨⟨⟩, id, -, known, body, written, -, short, rfl⟩
    exact ⟨id, known, body, written, rfl, short⟩
  · rintro ⟨id, known, body, written, rfl, short⟩
    exact ⟨(), id, (), known, body, written, (), short, rfl⟩

theorem decodeOutcome_aborted {sequence kind : Nat} {digest : Bytes} {abort : Abort} {bytes : Bytes}
    (small : sequence < 2 ^ 64) (digested : digest.length = 32) (code : abort.userCode < 2 ^ 32)
    (encoded : encodeOutcome sequence digest kind (.aborted abort) = .ok bytes) :
    decodeOutcome bytes = .ok ⟨sequence, digest, kind, .aborted abort⟩ := by
  obtain ⟨id, known, body, written, rfl, short⟩ := encodeOutcome_eq_ok.mp encoded
  obtain ⟨⟨⟩, valid, same⟩ := bind_eq_ok.mp written
  rw [raise_eq_ok] at valid
  obtain ⟨instruction, detail⟩ := validateAbort_bounds valid
  have zeros : leBytes 8 0 = leBytes 4 0 ++ (leBytes 4 0 ++ []) := rfl
  have fields : body = leBytes 2 abort.reason.number ++ leBytes 2 0 ++ leBytes 4 abort.instruction ++
      leBytes 4 abort.userCode ++ leBytes 4 0 ++ leBytes 8 abort.detail ++ leBytes 4 0 ++
      leBytes 4 0 ++ [] := by
    cases same
    simp only [zeros, List.append_assoc]
  have decoded := decodeOutcome_header id small known (by decide) digested (number_lt abort.reason)
    instruction (by omega) detail (show blob [] = .ok (leBytes 4 0) from rfl) (by decide) fields
    short
  refine decoded.trans ?_
  simp [abortReason_number, valid]

theorem descriptor_eq_ok {ty : Ty} (formed : ty.Formed 16) {bytes : Bytes}
    (described : descriptor ty = .ok bytes) :
    bytes = ty.descriptor ∧ Ty.decode ty.descriptor = .ok ty := by
  obtain ⟨size, -, described⟩ := bind_eq_ok.mp described
  obtain ⟨bytes', written, described⟩ := bind_eq_ok.mp described
  obtain ⟨ty', decoded, same⟩ := bind_eq_ok.mp described
  rw [formed.descriptorOrPanic, Except.ok.injEq] at written
  cases same
  subst written
  rw [raise_eq_ok] at decoded
  obtain ⟨same, -, short⟩ := Ty.decode_sound decoded
  exact ⟨rfl, Ty.decode_descriptor formed (same ▸ short)⟩

/-- What a body of a success is made of. -/
theorem encodeBody_success {sequence kind : Nat} {ty : Ty} {value : Value} {effects : List Effect}
    {body : Bytes} (formed : ty.Formed 16)
    (written : encodeBody sequence kind (.success ty value effects) = .ok body) :
    ty.accepts value = true ∧ Ty.decode ty.descriptor = .ok ty ∧
      validateSuccess sequence kind ty value effects = .ok () ∧
      duplicateAddress (sortEffects effects) = false ∧
      ∃ named encoded returned encodedEffects, blob ty.descriptor = .ok named ∧
        blob value.encode = .ok encoded ∧ blob (named ++ encoded) = .ok returned ∧
        encodeEffects (sortEffects effects) = .ok encodedEffects ∧
        body = leBytes 4 0 ++ leBytes 4 maxU32 ++ leBytes 16 0 ++ returned ++
          leBytes 4 (sortEffects effects).length ++ encodedEffects := by
  obtain ⟨bytes, described, written⟩ := bind_eq_ok.mp written
  obtain ⟨⟨⟩, accepted, written⟩ := bind_eq_ok.mp written
  obtain ⟨⟨⟩, valid, written⟩ := bind_eq_ok.mp written
  obtain ⟨named, blobbed, written⟩ := bind_eq_ok.mp written
  obtain ⟨valueBytes, valued, written⟩ := bind_eq_ok.mp written
  obtain ⟨encoded, blobbed', written⟩ := bind_eq_ok.mp written
  obtain ⟨returned, blobbed'', written⟩ := bind_eq_ok.mp written
  obtain ⟨⟨⟩, distinct, written⟩ := bind_eq_ok.mp written
  obtain ⟨encodedEffects, effected, same⟩ := bind_eq_ok.mp written
  cases same
  obtain ⟨rfl, decoded⟩ := descriptor_eq_ok formed described
  rw [raise_eq_ok] at accepted valid blobbed blobbed' blobbed'' distinct effected
  rw [refuse_eq_ok, Bool.not_eq_false] at accepted
  rw [refuse_eq_ok, Bool.not_eq_true] at distinct
  rw [encodeOrPanic_of_accepts formed accepted, Except.ok.injEq] at valued
  subst valued
  exact ⟨accepted, decoded, valid, distinct, named, encoded, returned, encodedEffects, blobbed,
    blobbed', blobbed'', effected, rfl⟩

theorem decodeOutcome_success {sequence kind : Nat} {digest : Bytes} {ty : Ty} {value : Value}
    {effects : List Effect} {bytes : Bytes} (small : sequence < 2 ^ 64)
    (digested : digest.length = 32) (formed : ty.Formed 16)
    (encoded : encodeOutcome sequence digest kind (.success ty value effects) = .ok bytes) :
    decodeOutcome bytes = .ok ⟨sequence, digest, kind, .success ty value (sortEffects effects)⟩ := by
  obtain ⟨id, known, body, written, rfl, short⟩ := encodeOutcome_eq_ok.mp encoded
  obtain ⟨accepted, decodedType, valid, distinct, named, encodedValue, returned, encodedEffects,
    blobbed, blobbed', blobbed'', effected, same⟩ := encodeBody_success formed written
  have sameEffects : (sortEffects effects).Perm effects := List.mergeSort_perm _ _
  have validSorted := validateSuccess_perm sameEffects valid
  obtain ⟨⟨few, single⟩, -, each, -⟩ := validateSuccess_eq_ok.mp validSorted
  obtain ⟨reads, width⟩ := readEffects_encodeEffects small effected each
    (increasing_of_sorted (sorted_sortEffects effects) distinct) none (by simp) []
  rw [List.append_nil] at reads
  have zeros : leBytes 4 0 = leBytes 2 0 ++ leBytes 2 0 := rfl
  have zeros' : leBytes 16 0 = leBytes 4 0 ++ (leBytes 4 0 ++ leBytes 8 0) := rfl
  have fields : body = leBytes 2 0 ++ leBytes 2 0 ++ leBytes 4 maxU32 ++ leBytes 4 0 ++
      leBytes 4 0 ++ leBytes 8 0 ++ returned ++ leBytes 4 (sortEffects effects).length ++
      encodedEffects := by
    rw [same, zeros', zeros]
    simp only [List.append_assoc]
  have decoded := decodeOutcome_header id small known (by decide) digested (by decide) (by decide)
    (by decide) (by decide) blobbed'' (by omega) fields short
  refine decoded.trans ?_
  have readType := readBlob_blob blobbed encodedValue
  have readValue := readBlob_blob blobbed' []
  rw [List.append_nil] at readValue
  have count : ¬ ((sortEffects effects).length > 65535 ∨
      (sortEffects effects).length > encodedEffects.length / 13 ∨
      (kind ≠ 1 ∧ (sortEffects effects).length ≠ 1)) := by
    rw [not_or, not_or, not_and, not_not]
    exact ⟨by omega, by omega, single⟩
  simp only [ne_eq, not_true_eq_false, or_self, refuse_false, ok_bind, refuse_of_not _ count,
    readType, decodedType, readValue, decodeValue_encode formed accepted, reads, validSorted]
  rfl

/-- An outcome that encodes decodes to itself with its effects in address order.
The wire bounds of the fields that validation leaves open are assumed. -/
theorem decode_encode {sequence kind : Nat} {digest : Bytes} {outcome : Outcome} {bytes : Bytes}
    (small : sequence < 2 ^ 64) (digested : digest.length = 32)
    (codes : ∀ abort, outcome = .aborted abort → abort.userCode < 2 ^ 32)
    (formed : ∀ ty value effects, outcome = .success ty value effects → ty.Formed 16)
    (encoded : encodeOutcome sequence digest kind outcome = .ok bytes) :
    decodeOutcome bytes = .ok ⟨sequence, digest, kind, canonical outcome⟩ := by
  cases outcome with
  | aborted abort => exact decodeOutcome_aborted small digested (codes abort rfl) encoded
  | success ty value effects =>
      exact decodeOutcome_success small digested (formed ty value effects rfl) encoded

/-! ## Outcomes that encode -/

theorem measureTypes_of {depth : Nat} {fields : List Ty}
    (each : ∀ field ∈ fields, ∀ size, size + field.encodeType.length ≤ 65536 →
      measureType depth size field = .ok (size + field.encodeType.length)) (size : Nat)
    (short : size + (Ty.encodeTypes fields).length ≤ 65536) :
    measureTypes depth size fields = .ok (size + (Ty.encodeTypes fields).length) := by
  induction fields with
  | nil => rfl
  | cons field fields ih =>
      simp only [Ty.encodeTypes, List.length_append] at short
      have rest := ih (fun other member => each other (List.mem_cons_of_mem _ member)) (by omega)
      have first := each field List.mem_cons_self (size + (Ty.encodeTypes fields).length) (by omega)
      simp only [measureTypes, rest, ok_bind, first, Ty.encodeTypes, List.length_append,
        Except.ok.injEq]
      omega

/-- Measuring a formed type adds the length of its descriptor. -/
theorem measureType_of_formed {levels : Nat} {ty : Ty} (formed : ty.Formed levels) {depth : Nat}
    (nested : depth + levels = 17) (size : Nat) (short : size + ty.encodeType.length ≤ 65536) :
    measureType depth size ty = .ok (size + ty.encodeType.length) := by
  induction levels generalizing ty depth size with
  | zero => exact formed.elim
  | succ levels ih =>
      have shallow : ¬ depth > 16 := by omega
      cases ty with
      | tuple fields =>
          obtain ⟨-, few, each⟩ := formed
          simp only [Ty.encodeType, List.length_cons, List.length_append, length_leBytes] at short ⊢
          have inner := measureTypes_of (fun field member size short =>
            ih (each field member) (show depth + 1 + levels = 17 by omega) size short) (size + 3)
            (by omega)
          simp only [measureType, refuse_of_not _ shallow, ok_bind,
            refuse_of_not _ (show ¬ fields.length > 256 by omega),
            refuse_of_not _ (show ¬ size + 3 > 65536 by omega), inner, Except.ok.injEq]
          omega
      | rows maximum key value =>
          obtain ⟨-, -, -, hkey, hvalue⟩ := formed
          simp only [Ty.encodeType, List.length_cons, List.length_append, length_leBytes] at short ⊢
          have first := ih hvalue (show depth + 1 + levels = 17 by omega) (size + 5) (by omega)
          have second := ih hkey (show depth + 1 + levels = 17 by omega)
            (size + 5 + value.encodeType.length) (by omega)
          simp only [measureType, refuse_of_not _ shallow, ok_bind,
            refuse_of_not _ (show ¬ size + 5 > 65536 by omega), first, second, Except.ok.injEq]
          omega
      | bytes bound | string bound =>
          simp only [Ty.encodeType, List.length_cons, length_leBytes] at short ⊢
          simp only [measureType, refuse_of_not _ shallow, ok_bind,
            refuse_of_not _ (show ¬ size + 5 > 65536 by omega), pure_eq_ok]
      | unit | boolean | i64 | u64 =>
          simp only [Ty.encodeType, List.length_singleton] at short ⊢
          simp only [measureType, refuse_of_not _ shallow, ok_bind,
            refuse_of_not _ (show ¬ size + 1 > 65536 by omega), pure_eq_ok]

theorem descriptor_of_formed {ty : Ty} (formed : ty.Formed 16)
    (short : ty.descriptor.length ≤ maxDescriptorBytes) : descriptor ty = .ok ty.descriptor := by
  have length : ty.descriptor.length = 2 + ty.encodeType.length := by
    simp [Ty.descriptor]
  have measured := measureType_of_formed formed (show 1 + 16 = 17 from rfl) 2
    (by rw [← length]; exact short)
  simp only [descriptor, measured, raise_ok, ok_bind, formed.descriptorOrPanic,
    Ty.decode_descriptor formed short, pure_eq_ok]

theorem blob_of_short {bytes : Bytes} (short : bytes.length < 2 ^ 32) :
    blob bytes = .ok (leBytes 4 bytes.length ++ bytes) := blob_eq_ok.mpr ⟨short, rfl⟩

/-- A valid effect of a transaction encodes with at most eight bytes beside its
overlay charge. -/
theorem encodeEffect_of_valid {sequence : Nat} {effect : Effect}
    (valid : validateEffect sequence 1 effect = .ok ()) :
    ∃ encoded, encodeEffect effect = .ok encoded ∧ encoded.length ≤ overlayBytes effect + 8 := by
  cases effect with
  | put table key value =>
      obtain ⟨⟨⟩, address, fits⟩ := bind_eq_ok.mp valid
      obtain ⟨-, -, -, short, -⟩ := validateAddress_eq_ok.mp address
      rw [refuse_eq_ok] at fits
      have written : encodeEffect (.put table key value) =
          .ok (1 :: (leBytes 8 table ++ (leBytes 4 key.length ++ key) ++
            (leBytes 4 value.length ++ value))) := by
        simp only [encodeEffect, blob_of_short (show key.length < 2 ^ 32 by omega),
          blob_of_short (show value.length < 2 ^ 32 by omega), ok_bind, pure_eq_ok]
      refine ⟨_, written, ?_⟩
      simp [overlayBytes]
      omega
  | delete table key =>
      obtain ⟨-, -, -, short, -⟩ := validateAddress_eq_ok.mp valid
      have written : encodeEffect (.delete table key) =
          .ok (2 :: (leBytes 8 table ++ (leBytes 4 key.length ++ key))) := by
        simp only [encodeEffect, blob_of_short (show key.length < 2 ^ 32 by omega), ok_bind,
          pure_eq_ok]
      refine ⟨_, written, ?_⟩
      simp [overlayBytes]
      omega
  | catalogue table value => cases valid
  | limits policy => cases valid

theorem encodeEffects_of_valid {sequence : Nat} {effects : List Effect}
    (valid : ∀ effect ∈ effects, validateEffect sequence 1 effect = .ok ()) :
    ∃ encoded, encodeEffects effects = .ok encoded ∧
      encoded.length ≤ (effects.map overlayBytes).sum + 8 * effects.length := by
  induction effects with
  | nil => exact ⟨[], rfl, Nat.zero_le _⟩
  | cons effect effects ih =>
      obtain ⟨first, written, width⟩ := encodeEffect_of_valid (valid effect List.mem_cons_self)
      obtain ⟨rest, writtenRest, widthRest⟩ :=
        ih fun other member => valid other (List.mem_cons_of_mem _ member)
      refine ⟨first ++ rest, by simp only [encodeEffects, written, writtenRest, ok_bind,
        pure_eq_ok], ?_⟩
      simp only [List.length_append, List.map_cons, List.sum_cons, List.length_cons]
      omega

/-- A valid success of a transaction encodes. -/
theorem encodeOutcome_success {sequence : Nat} {digest : Bytes} {ty : Ty} {value : Value}
    {effects : List Effect} (id : Database.validId sequence = .ok ()) (digested : digest.length = 32)
    (formed : ty.Formed 16) (short : ty.descriptor.length ≤ maxDescriptorBytes)
    (accepted : ty.accepts value = true)
    (valid : validateSuccess sequence 1 ty value effects = .ok ())
    (increasing : effects.Pairwise fun a b => effectAddress a < effectAddress b) :
    ∃ bytes, encodeOutcome sequence digest 1 (.success ty value effects) = .ok bytes := by
  obtain ⟨⟨few, -⟩, -, each, total⟩ := validateSuccess_eq_ok.mp valid
  obtain ⟨encodedEffects, written, width⟩ := encodeEffects_of_valid each
  have size := encodedLen_le ty value accepted
  have bound := formed.size_le
  rw [← length_encode] at size
  simp only [maxDescriptorBytes, maxValueBytes] at short bound
  have returned : (leBytes 4 ty.descriptor.length ++ ty.descriptor ++
      (leBytes 4 value.encode.length ++ value.encode)).length < 2 ^ 32 := by
    simp only [List.length_append, length_leBytes]
    omega
  have body : ∃ body, encodeBody sequence 1 (.success ty value effects) = .ok body ∧
      body.length ≤ 36 + (ty.descriptor.length + value.encode.length) + 4 + encodedEffects.length := by
    simp only [encodeBody, descriptor_of_formed formed short, accepted, valid, raise_ok, ok_bind,
      blob_of_short (show ty.descriptor.length < 2 ^ 32 by omega),
      encodeOrPanic_of_accepts formed accepted,
      blob_of_short (show value.encode.length < 2 ^ 32 by omega),
      sortEffects_of_increasing increasing, duplicateAddress_of_increasing increasing, written,
      refuse_false, Bool.true_eq_false, Bool.false_eq_true, blob_of_short returned, pure_eq_ok]
    refine ⟨_, rfl, ?_⟩
    simp only [List.length_append, length_leBytes]
    omega
  obtain ⟨body, written, bodyWidth⟩ := body
  refine ⟨_, encodeOutcome_eq_ok.mpr ⟨id, by decide, body, written, rfl, ?_⟩⟩
  simp only [List.length_append, length_leBytes, List.length_cons, List.length_nil, digested,
    maxOutcomeBytes]
  omega

theorem encodeOutcome_aborted {sequence kind : Nat} {digest : Bytes} {abort : Abort}
    (id : Database.validId sequence = .ok ()) (known : 1 ≤ kind ∧ kind ≤ 3)
    (digested : digest.length = 32) (valid : validateAbort kind abort = .ok ()) :
    ∃ bytes, encodeOutcome sequence digest kind (.aborted abort) = .ok bytes := by
  have body : ∃ body, encodeBody sequence kind (.aborted abort) = .ok body ∧ body.length = 32 := by
    simp only [encodeBody, valid, raise_ok, ok_bind, pure_eq_ok]
    exact ⟨_, rfl, by simp⟩
  obtain ⟨body, written, width⟩ := body
  refine ⟨_, encodeOutcome_eq_ok.mpr ⟨id, known, body, written, rfl, ?_⟩⟩
  simp [digested, width, maxOutcomeBytes]

end BlopDb.Vm.Outcome
