/-
# Outcomes and their bytes determine each other

`OutcomeCodec` reads an encoded outcome back.  This module supplies the other
direction: bytes that decode are the encoding of what they decode to.  It also
removes the last assumption on the result type, since a type whose descriptor
decodes is the decoded type.
-/

import BlopDb.Vm.OutcomeCodec

namespace BlopDb.Vm

open BlopDb.Lib

/-! ## Descriptors determine types -/

mutual

/-- Every bound is a 32-bit integer. -/
def Ty.Fits : Ty → Prop
  | .bytes bound | .string bound => bound < 2 ^ 32
  | .tuple fields => Ty.FitsAll fields
  | .rows maximum key value => maximum < 2 ^ 32 ∧ Ty.Fits key ∧ Ty.Fits value
  | .unit | .boolean | .i64 | .u64 => True

/-- Every type of a list has bounds that are 32-bit integers. -/
def Ty.FitsAll : List Ty → Prop
  | [] => True
  | field :: fields => Ty.Fits field ∧ Ty.FitsAll fields

end

theorem Ty.FitsAll.of_forall {fields : List Ty} (each : ∀ field ∈ fields, field.Fits) :
    Ty.FitsAll fields := by
  induction fields with
  | nil => trivial
  | cons field fields ih =>
      exact ⟨each field List.mem_cons_self,
        ih fun other member => each other (List.mem_cons_of_mem _ member)⟩

theorem Ty.Formed.fits {levels : Nat} {ty : Ty} (formed : ty.Formed levels) : ty.Fits := by
  induction levels generalizing ty with
  | zero => exact formed.elim
  | succ levels ih =>
      obtain ⟨size, shape⟩ := formed
      cases ty with
      | unit | boolean | i64 | u64 => trivial
      | bytes bound | string bound =>
          simp only [Ty.maxValueBytes, Vm.maxValueBytes] at size
          simp only [Ty.Fits]
          omega
      | tuple fields => exact Ty.FitsAll.of_forall fun field member => ih (shape.2 field member)
      | rows maximum key value =>
          obtain ⟨-, few, keyFormed, valueFormed⟩ := shape
          simp only [maxRows] at few
          exact ⟨by omega, ih keyFormed, ih valueFormed⟩

private theorem leBytes_append_inj {width m n : Nat} (hm : m < 256 ^ width) (hn : n < 256 ^ width)
    {x y : Bytes} (same : leBytes width m ++ x = leBytes width n ++ y) : m = n ∧ x = y := by
  obtain ⟨fields, rest⟩ := List.append_inj same (by simp)
  exact ⟨leBytes_inj hm hn fields, rest⟩

mutual

/-- Descriptors are prefix-free: equal inputs begin with equal types. -/
theorem encodeType_append_inj : (left right : Ty) → (x y : Bytes) → left.Fits → right.Fits →
    left.countsFit = true → right.countsFit = true →
    left.encodeType ++ x = right.encodeType ++ y → left = right ∧ x = y
  | .unit, right, x, y, _, _, _, _, same | .boolean, right, x, y, _, _, _, _, same
  | .i64, right, x, y, _, _, _, _, same | .u64, right, x, y, _, _, _, _, same => by
      cases right <;> simp_all [Ty.encodeType]
  | .bytes bound, right, x, y, fits, fits', _, _, same => by
      cases right <;> simp only [Ty.encodeType, List.cons_append, List.cons.injEq] at same <;>
        try (simp at same; done)
      case bytes bound' =>
        obtain ⟨rfl, rest⟩ := leBytes_append_inj fits fits' same.2
        exact ⟨rfl, rest⟩
  | .string bound, right, x, y, fits, fits', _, _, same => by
      cases right <;> simp only [Ty.encodeType, List.cons_append, List.cons.injEq] at same <;>
        try (simp at same; done)
      case string bound' =>
        obtain ⟨rfl, rest⟩ := leBytes_append_inj fits fits' same.2
        exact ⟨rfl, rest⟩
  | .tuple fields, right, x, y, fits, fits', counts, counts', same => by
      cases right <;> simp only [Ty.encodeType, List.cons_append, List.cons.injEq] at same <;>
        try (simp at same; done)
      case tuple fields' =>
        simp only [Ty.countsFit, Bool.and_eq_true, decide_eq_true_eq] at counts counts'
        simp only [List.append_assoc, true_and] at same
        obtain ⟨length, columns⟩ := leBytes_append_inj counts.1 counts'.1 same
        obtain ⟨rfl, rest⟩ := encodeTypes_append_inj fields fields' x y length fits fits' counts.2
          counts'.2 columns
        exact ⟨rfl, rest⟩
  | .rows maximum key value, right, x, y, fits, fits', counts, counts', same => by
      cases right <;> simp only [Ty.encodeType, List.cons_append, List.cons.injEq] at same <;>
        try (simp at same; done)
      case rows maximum' key' value' =>
        simp only [Ty.countsFit, Bool.and_eq_true] at counts counts'
        simp only [List.append_assoc, true_and] at same
        obtain ⟨rfl, columns⟩ := leBytes_append_inj fits.1 fits'.1 same
        obtain ⟨rfl, values⟩ := encodeType_append_inj key key' _ _ fits.2.1 fits'.2.1 counts.1
          counts'.1 columns
        obtain ⟨rfl, rest⟩ := encodeType_append_inj value value' x y fits.2.2 fits'.2.2 counts.2
          counts'.2 values
        exact ⟨rfl, rest⟩

theorem encodeTypes_append_inj : (lefts rights : List Ty) → (x y : Bytes) →
    lefts.length = rights.length → Ty.FitsAll lefts → Ty.FitsAll rights →
    Ty.countsFitAll lefts = true → Ty.countsFitAll rights = true →
    Ty.encodeTypes lefts ++ x = Ty.encodeTypes rights ++ y → lefts = rights ∧ x = y
  | [], [], x, y, _, _, _, _, _, same => ⟨rfl, same⟩
  | left :: lefts, right :: rights, x, y, length, fits, fits', counts, counts', same => by
      simp only [Ty.countsFitAll, Bool.and_eq_true] at counts counts'
      simp only [Ty.encodeTypes, List.append_assoc] at same
      obtain ⟨rfl, others⟩ := encodeType_append_inj left right _ _ fits.1 fits'.1 counts.1
        counts'.1 same
      obtain ⟨rfl, rest⟩ := encodeTypes_append_inj lefts rights x y (by simpa using length) fits.2
        fits'.2 counts.2 counts'.2 others
      exact ⟨rfl, rest⟩

end

/-- A type whose descriptor decodes is the decoded type. -/
theorem Ty.formed_of_decode {ty ty' : Ty} (fits : ty.Fits) (counts : ty.countsFit = true)
    (decoded : Ty.decode ty.descriptor = .ok ty') : ty = ty' ∧ ty.Formed 16 := by
  obtain ⟨same, formed, -⟩ := Ty.decode_sound decoded
  have inner : ty.encodeType ++ [] = ty'.encodeType ++ [] := by
    rw [List.append_nil, List.append_nil]
    exact List.append_cancel_left same
  obtain ⟨rfl, -⟩ := encodeType_append_inj ty ty' [] [] fits formed.fits counts formed.countsFit
    inner
  exact ⟨rfl, formed⟩

end BlopDb.Vm

namespace BlopDb.Storage.LimitPolicy

open BlopDb.Lib

/-- The integers of an encoded list, read one field at a time, encode back. -/
theorem flatMap_fields (count : Nat) (bytes : Bytes) (length : bytes.length = 8 * count) :
    ((List.range count).map fun index => leNat ((bytes.drop (index * 8)).take 8)).flatMap
      (leBytes 8) = bytes := by
  induction count generalizing bytes with
  | zero => simp_all
  | succ count ih =>
      have width : (bytes.take 8).length = 8 := by
        rw [List.length_take]
        omega
      have first : leBytes 8 (leNat (bytes.take 8)) = bytes.take 8 := by
        have inverse := leBytes_leNat (bytes.take 8)
        rwa [width] at inverse
      have rest := ih (bytes.drop 8) (by rw [List.length_drop]; omega)
      have shift (index : Nat) : (bytes.drop 8).drop (index * 8) = bytes.drop ((index + 1) * 8) := by
        rw [List.drop_drop]
        congr 1
        omega
      simp only [shift] at rest
      rw [List.range_succ_eq_map, List.map_cons, List.flatMap_cons, List.map_map]
      simp only [Nat.zero_mul, List.drop_zero, first]
      rw [show (fun index => leNat ((bytes.drop (index * 8)).take 8)) ∘ Nat.succ =
        fun index => leNat ((bytes.drop ((index + 1) * 8)).take 8) from rfl, rest,
        List.take_append_drop]

/-- A stored policy is the encoding of what it decodes to. -/
theorem encode_decode {bytes : Bytes} {policy : LimitPolicy} (decoded : decode bytes = .ok policy) :
    policy.encode = bytes := by
  unfold decode at decoded
  split_ifs at decoded with length version reserved bounded
  cases decoded
  have total : bytes.length = 140 := not_not.mp length
  have fields := flatMap_fields 17 (bytes.drop 4) (by rw [List.length_drop]; omega)
  simp only [List.drop_drop] at fields
  have first : leBytes 2 1 = bytes.take 2 := by
    have inverse := leBytes_leNat (bytes.take 2)
    rwa [not_not.mp version, show (bytes.take 2).length = 2 by simp; omega] at inverse
  have second : leBytes 2 0 = (bytes.drop 2).take 2 := by
    have inverse := leBytes_leNat ((bytes.drop 2).take 2)
    rwa [not_not.mp reserved, show ((bytes.drop 2).take 2).length = 2 by simp; omega] at inverse
  simp only [encode, decodeValues]
  rw [fields, first, second, List.append_assoc,
    show bytes.drop 4 = (bytes.drop 2).drop 2 by rw [List.drop_drop], List.take_append_drop,
    List.take_append_drop]

end BlopDb.Storage.LimitPolicy

namespace BlopDb.Vm.Outcome

open BlopDb.Lib
open Storage (LimitPolicy)

/-! ## Readers -/

theorem readUint_sound {width number : Nat} {input rest : Bytes}
    (read : readUint width input = .ok (number, rest)) :
    input = leBytes width number ++ rest ∧ number < 256 ^ width := by
  simp only [readUint, bind_eq_ok, Prod.exists, pure_eq_ok, Except.ok.injEq, Prod.mk.injEq] at read
  obtain ⟨bytes, after, split, rfl, rfl⟩ := read
  obtain ⟨rfl, length⟩ := takeBytes_eq_ok.mp split
  have small := leNat_lt bytes
  rw [length] at small
  exact ⟨by rw [← length, leBytes_leNat], small⟩

theorem readBlob_sound {input bytes rest : Bytes} (read : readBlob input = .ok (bytes, rest)) :
    ∃ encoded, blob bytes = .ok encoded ∧ input = encoded ++ rest := by
  simp only [readBlob, bind_eq_ok, Prod.exists] at read
  obtain ⟨length, after, counted, split⟩ := read
  obtain ⟨rfl, small⟩ := readUint_sound counted
  obtain ⟨rfl, same⟩ := takeBytes_eq_ok.mp split
  subst same
  exact ⟨_, blob_of_short (by omega), by simp⟩

/-- An effect that is read encodes to the bytes it was read from. -/
theorem readEffect_sound {sequence kind : Nat} {input rest : Bytes} {effect : Effect}
    (read : readEffect sequence kind input = .ok (effect, rest)) :
    ∃ encoded, encodeEffect effect = .ok encoded ∧ input = encoded ++ rest := by
  simp only [readEffect, bind_eq_ok, Prod.exists] at read
  obtain ⟨tag, after, tagged, read⟩ := read
  obtain ⟨rfl, -⟩ := readUint_sound tagged
  split at read
  · simp only [bind_eq_ok, Prod.exists, refuse_eq_ok, exists_const, pure_eq_ok, Except.ok.injEq,
      Prod.mk.injEq] at read
    obtain ⟨table, _, named, -, -, key, _, keyed, -, value, _, valued, -, rfl, rfl⟩ := read
    obtain ⟨rfl, -⟩ := readUint_sound named
    obtain ⟨encodedKey, blobbed, rfl⟩ := readBlob_sound keyed
    obtain ⟨encodedValue, blobbed', rfl⟩ := readBlob_sound valued
    refine ⟨_, by simp only [encodeEffect, blobbed, blobbed', ok_bind, pure_eq_ok]; rfl, ?_⟩
    simp [leBytes]
  · simp only [bind_eq_ok, Prod.exists, refuse_eq_ok, exists_const, pure_eq_ok, Except.ok.injEq,
      Prod.mk.injEq] at read
    obtain ⟨table, _, named, -, -, key, _, keyed, -, rfl, rfl⟩ := read
    obtain ⟨rfl, -⟩ := readUint_sound named
    obtain ⟨encodedKey, blobbed, rfl⟩ := readBlob_sound keyed
    refine ⟨_, by simp only [encodeEffect, blobbed, ok_bind, pure_eq_ok]; rfl, ?_⟩
    simp [leBytes]
  · simp only [bind_eq_ok, Prod.exists, pure_eq_ok, Except.ok.injEq, Prod.mk.injEq] at read
    obtain ⟨table, _, named, value, _, valued, _, -, rfl, rfl⟩ := read
    obtain ⟨rfl, -⟩ := readUint_sound named
    obtain ⟨encodedValue, blobbed, rfl⟩ := readBlob_sound valued
    refine ⟨_, by simp only [encodeEffect, blobbed, ok_bind, pure_eq_ok]; rfl, ?_⟩
    simp [leBytes]
  · simp only [bind_eq_ok, Prod.exists, mapError_eq_ok, pure_eq_ok, Except.ok.injEq,
      Prod.mk.injEq] at read
    obtain ⟨bytes, _, valued, policy, decoded, rfl, rfl⟩ := read
    obtain ⟨encoded, blobbed, rfl⟩ := readBlob_sound valued
    rw [← LimitPolicy.encode_decode decoded] at blobbed
    refine ⟨_, by simp only [encodeEffect, blobbed, ok_bind, pure_eq_ok]; rfl, ?_⟩
    simp [leBytes]
  · cases read

/-- Effects that are read encode to the bytes they were read from, and their
addresses increase. -/
theorem readEffects_sound {sequence kind count : Nat} {previous : Option Address}
    {input rest : Bytes} {effects : List Effect}
    (read : readEffects sequence kind count previous input = .ok (effects, rest)) :
    effects.length = count ∧ (∃ encoded, encodeEffects effects = .ok encoded ∧
      input = encoded ++ rest) ∧
      (effects.Pairwise fun a b => effectAddress a < effectAddress b) ∧
      ∀ address ∈ previous, ∀ effect ∈ effects, address < effectAddress effect := by
  induction count generalizing previous input effects with
  | zero =>
      cases read
      exact ⟨rfl, ⟨[], rfl, rfl⟩, .nil, by simp⟩
  | succ count ih =>
      simp only [readEffects, bind_eq_ok, Prod.exists, refuse_eq_ok, exists_const, pure_eq_ok,
        Except.ok.injEq, Prod.mk.injEq] at read
      obtain ⟨effect, middle, first, ordered, others, _, remaining, rfl, rfl⟩ := read
      obtain ⟨encoded, written, rfl⟩ := readEffect_sound first
      obtain ⟨length, ⟨encodedRest, writtenRest, rfl⟩, increasing, later⟩ := ih remaining
      have above := later (effectAddress effect) rfl
      refine ⟨by simp [length], ⟨encoded ++ encodedRest, ?_, by simp⟩,
        List.pairwise_cons.mpr ⟨above, increasing⟩, ?_⟩
      · simp only [encodeEffects, written, writtenRest, ok_bind, pure_eq_ok]
      · intro address isPrevious other member
        have below : address < effectAddress effect := by
          simpa [Option.mem_def.mp isPrevious] using ordered
        rcases List.mem_cons.mp member with rfl | inRest
        · exact below
        · exact below.trans (above other inRest)

/-! ## Whole outcomes -/

theorem descriptor_sound {ty : Ty} (fits : ty.Fits) {bytes : Bytes}
    (described : descriptor ty = .ok bytes) : ty.Formed 16 := by
  obtain ⟨size, -, described⟩ := bind_eq_ok.mp described
  obtain ⟨bytes', written, described⟩ := bind_eq_ok.mp described
  obtain ⟨ty', decoded, -⟩ := bind_eq_ok.mp described
  unfold Ty.descriptorOrPanic at written
  split_ifs at written with counts
  cases written
  exact (Ty.formed_of_decode fits counts (raise_eq_ok.mp decoded)).2

/-- The integers of an outcome fit the machine integers that hold them. -/
def Representable : Outcome → Prop
  | .success resultType _ _ => resultType.Fits
  | .aborted abort => abort.userCode < 2 ^ 32

/-- An outcome that encodes decodes to itself with its effects in address order. -/
theorem decodeOutcome_encodeOutcome {sequence kind : Nat} {digest : Bytes} {outcome : Outcome}
    {bytes : Bytes} (small : sequence < 2 ^ 64) (digested : digest.length = 32)
    (fits : Representable outcome)
    (encoded : encodeOutcome sequence digest kind outcome = .ok bytes) :
    decodeOutcome bytes = .ok ⟨sequence, digest, kind, canonical outcome⟩ := by
  refine decode_encode small digested ?_ ?_ encoded
  · rintro abort rfl
    exact fits
  · rintro ty value effects rfl
    obtain ⟨-, -, body, written, -, -⟩ := encodeOutcome_eq_ok.mp encoded
    obtain ⟨described, described', -⟩ := bind_eq_ok.mp written
    exact descriptor_sound fits described'

theorem abortReason_sound {number : Nat} {reason : AbortReason}
    (named : abortReason number = .ok reason) : reason.number = number := by
  unfold abortReason at named
  split at named <;> cases named <;> rfl

theorem encodeBody_of_success {sequence kind : Nat} {returned input descriptor encoded : Bytes}
    {ty : Ty} {value : Value} {effects : List Effect} {afterType afterValue rest : Bytes}
    (readType : readBlob returned = .ok (descriptor, afterType))
    (decodedType : Ty.decode descriptor = .ok ty)
    (readValue : readBlob afterType = .ok (encoded, afterValue))
    (decodedValue : decodeValue ty encoded = .ok value) (whole : afterValue = [])
    (readAll : readEffects sequence kind effects.length none input = .ok (effects, rest))
    (valid : validateSuccess sequence kind ty value effects = .ok ()) (done : rest = [])
    {returnedBytes : Bytes} (blobbed : blob returned = .ok returnedBytes) :
    encodeBody sequence kind (.success ty value effects) =
      .ok (leBytes 4 0 ++ leBytes 4 maxU32 ++ leBytes 16 0 ++ returnedBytes ++
        leBytes 4 effects.length ++ input) := by
  subst whole done
  obtain ⟨rfl, formed, short⟩ := Ty.decode_sound decodedType
  obtain ⟨rfl, accepted⟩ := decodeValue_sound decodedValue
  obtain ⟨named, namedBytes, rfl⟩ := readBlob_sound readType
  obtain ⟨valued, valuedBytes, rfl⟩ := readBlob_sound readValue
  obtain ⟨-, ⟨encodedEffects, written, rfl⟩, increasing, -⟩ := readEffects_sound readAll
  rw [List.append_nil] at blobbed ⊢
  simp only [encodeBody, descriptor_of_formed formed short, accepted, valid, raise_ok, ok_bind,
    namedBytes, encodeOrPanic_of_accepts formed accepted, valuedBytes, blobbed,
    sortEffects_of_increasing increasing, duplicateAddress_of_increasing increasing, written,
    Bool.true_eq_false, Bool.false_eq_true, refuse_false, pure_eq_ok]

/-- Bytes that decode are the encoding of what they decode to. -/
theorem encodeOutcome_decodeOutcome {bytes : Bytes} {record : OutcomeRecord}
    (decoded : decodeOutcome bytes = .ok record) :
    encodeOutcome record.sequence record.recordDigest record.recordKind record.outcome =
      .ok bytes := by
  simp only [decodeOutcome, bind_eq_ok, refuse_eq_ok, Prod.exists, exists_const, not_not] at decoded
  obtain ⟨short, version, _, versioned, rfl, kind, _, kinded, known, status, _, flagged, sequence,
    _, numbered, ⟨⟩, id, digest, _, digested, reason, _, reasoned, _, _, padded, rfl, instruction, _,
    located, userCode, _, coded, _, _, padded', rfl, detail, _, detailed, returned, _, blobbed,
    count, input, counted, decoded⟩ := decoded
  obtain ⟨rfl, -⟩ := readUint_sound versioned
  obtain ⟨rfl, kindSmall⟩ := readUint_sound kinded
  obtain ⟨rfl, -⟩ := readUint_sound flagged
  obtain ⟨rfl, -⟩ := readUint_sound numbered
  obtain ⟨rfl, width⟩ := takeBytes_eq_ok.mp digested
  obtain ⟨rfl, -⟩ := readUint_sound reasoned
  obtain ⟨rfl, -⟩ := readUint_sound padded
  obtain ⟨rfl, -⟩ := readUint_sound located
  obtain ⟨rfl, -⟩ := readUint_sound coded
  obtain ⟨rfl, -⟩ := readUint_sound padded'
  obtain ⟨rfl, -⟩ := readUint_sound detailed
  obtain ⟨returnedBytes, returnedBlob, rfl⟩ := readBlob_sound blobbed
  obtain ⟨rfl, -⟩ := readUint_sound counted
  have zeros : leBytes 4 0 = leBytes 2 0 ++ leBytes 2 0 := rfl
  split at decoded
  · simp only [bind_eq_ok, refuse_eq_ok, Prod.exists, exists_const, not_not, not_or, pure_eq_ok,
      Except.ok.injEq] at decoded
    obtain ⟨⟨rfl, rfl, rfl, rfl⟩, -, descriptor, _, readType, ty, decodedType, encoded, _,
      readValue, value, decodedValue, whole, effects, rest, readAll, _, valid, done, rfl⟩ := decoded
    obtain ⟨rfl, -⟩ := readEffects_sound readAll
    have body := encodeBody_of_success readType decodedType readValue decodedValue whole readAll
      valid done returnedBlob
    refine encodeOutcome_eq_ok.mpr ⟨id, known, _, body, ?_, not_lt.mp short⟩
    have zeros' : leBytes 16 0 = leBytes 4 0 ++ (leBytes 4 0 ++ leBytes 8 0) := rfl
    rw [zeros', zeros]
    simp [leBytes, Outcome.status]
  · simp only [bind_eq_ok, refuse_eq_ok, exists_const, not_not, not_or, pure_eq_ok,
      Except.ok.injEq] at decoded
    obtain ⟨⟨rfl, rfl⟩, reason', named, _, valid, rfl, rfl⟩ := decoded
    obtain ⟨-, rfl⟩ := blob_eq_ok.mp returnedBlob
    have number := abortReason_sound named
    have body : encodeBody sequence kind (.aborted ⟨reason', instruction, userCode, detail⟩) =
        .ok (leBytes 2 reason'.number ++ leBytes 2 0 ++ leBytes 4 instruction ++
          leBytes 4 userCode ++ leBytes 4 0 ++ leBytes 8 detail ++ leBytes 8 0) := by
      simp only [encodeBody, valid, raise_ok, ok_bind, pure_eq_ok]
    refine encodeOutcome_eq_ok.mpr ⟨id, known, _, body, ?_, not_lt.mp short⟩
    rw [number]
    simp [leBytes, Outcome.status]
  · cases decoded

/-- Outcomes and accepted bytes determine each other: what encodes decodes to
itself in canonical effect order, and what decodes encodes to the bytes read. -/
theorem outcomes_biject :
    (∀ (sequence kind : Nat) (digest : Bytes) (outcome : Outcome) (bytes : Bytes),
      sequence < 2 ^ 64 → digest.length = 32 → Representable outcome →
      encodeOutcome sequence digest kind outcome = .ok bytes →
      decodeOutcome bytes = .ok ⟨sequence, digest, kind, canonical outcome⟩) ∧
    ∀ (bytes : Bytes) (record : OutcomeRecord), decodeOutcome bytes = .ok record →
      encodeOutcome record.sequence record.recordDigest record.recordKind record.outcome =
        .ok bytes :=
  ⟨fun _ _ _ _ _ small digested fits encoded =>
      decodeOutcome_encodeOutcome small digested fits encoded,
    fun _ _ decoded => encodeOutcome_decodeOutcome decoded⟩

/-- A write and a deletion of two tables, encoded and decoded. -/
theorem outcomes_biject_two_effects :
    ∃ bytes, encodeOutcome 9 (List.replicate 32 7) 1
        (.success .unit .unit [.put 3 [0] [5], .delete 4 [1]]) = .ok bytes ∧
      decodeOutcome bytes = .ok ⟨9, List.replicate 32 7, 1,
        .success .unit .unit [.put 3 [0] [5], .delete 4 [1]]⟩ := by
  have increasing : [Effect.put 3 [0] [5], .delete 4 [1]].Pairwise
      fun a b => effectAddress a < effectAddress b := by decide
  obtain ⟨bytes, encoded⟩ := @encodeOutcome_success 9 (List.replicate 32 7) .unit .unit _
    (show Database.validId 9 = .ok () by decide) (by simp)
    (show Ty.Formed 16 .unit from ⟨by decide, trivial⟩) (by decide)
    (show Ty.unit.accepts .unit = true from rfl) (by decide) increasing
  have fits : Representable (.success .unit .unit [.put 3 [0] [5], .delete 4 [1]]) := trivial
  have decoded := outcomes_biject.1 9 1 _ _ bytes (by norm_num) (by simp) fits encoded
  rw [canonical, sortEffects_of_increasing increasing] at decoded
  exact ⟨bytes, encoded, decoded⟩

end BlopDb.Vm.Outcome
