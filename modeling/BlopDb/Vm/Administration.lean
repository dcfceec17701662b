/-
# Administrative records complete

On a catalogue that holds versions only, a valid request always has an outcome, and
the outcome encodes: a column that was admitted once is described again, and the
value of a new version decodes to that version.
-/

import BlopDb.Vm.CatalogueSound
import BlopDb.Vm.OutcomeCodec
import BlopDb.Vm.SchemaAgreement
import BlopDb.Vm.VerifierSound

namespace BlopDb.Vm

open BlopDb.Lib
open Storage (View LimitPolicy maxU64)
open Storage.Encoding (Schema)

namespace Database

/-! ## Columns -/

theorem measureSchemas_of_measured {fields : List Ty}
    (each : ∀ field ∈ fields, ∀ depth size total, Outcome.measureType depth size field = .ok total →
      measureSchema depth size field = .ok total) {depth size total : Nat}
    (measured : Outcome.measureTypes depth size fields = .ok total) :
    measureSchemas depth size fields = .ok total := by
  induction fields generalizing total with
  | nil => exact measured
  | cons field fields ih =>
      obtain ⟨middle, rest, first⟩ := bind_eq_ok.mp measured
      rw [measureSchemas, ih (fun other member => each other (List.mem_cons_of_mem _ member)) rest, ok_bind]
      exact each field List.mem_cons_self _ _ _ first

/-- A column measures as a schema like it measures as a result type. -/
theorem measureSchema_of_measured {levels : Nat} {ty : Ty} (formed : ty.Formed levels) (shallow : levels ≤ 16)
    (column : ty.isRows = false) {depth size total : Nat}
    (measured : Outcome.measureType depth size ty = .ok total) : measureSchema depth size ty = .ok total := by
  induction levels generalizing ty depth size total with
  | zero => exact formed.elim
  | succ levels ih =>
      cases ty with
      | tuple fields =>
          obtain ⟨-, -, each⟩ := formed
          simp only [Outcome.measureType, bind_eq_ok, refuse_eq_ok, exists_const] at measured
          obtain ⟨deep, few, short, measured⟩ := measured
          simp only [measureSchema, refuse_of_not _ deep, refuse_of_not _ few, refuse_of_not _ short, ok_bind]
          refine measureSchemas_of_measured (fun field member depth size total measured => ?_) measured
          have inner := each field member
          exact ih inner (by omega) (inner.not_rows (by omega)) measured
      | rows maximum key value => cases column
      | bytes bound | string bound | unit | boolean | i64 | u64 =>
          simp only [Outcome.measureType, bind_eq_ok, refuse_eq_ok, exists_const] at measured
          obtain ⟨deep, short, measured⟩ := measured
          simp only [measureSchema, refuse_of_not _ deep, refuse_of_not _ short, ok_bind]
          exact measured

/-- A type that a table admits as its key or as its value. -/
structure Column (ty : Ty) (key : Bool) : Prop where
  described : ty.Described
  schema : ∃ schema, tableSchema ty.descriptor key = .ok schema

/-- The columns of a decoded version. -/
theorem columns_of_decoded {id : Nat} {bytes : Bytes} {version : CatalogueVersion}
    (decoded : decodeCatalogue id bytes = .ok version) :
    Column version.table.key true ∧ Column version.table.value false := by
  obtain ⟨-, key, value, ⟨keySchema, schema, short⟩, valueSchema, schema'⟩ := decodeCatalogue_described decoded
  refine ⟨⟨key, keySchema, ?_⟩, value, valueSchema, ?_⟩
  · simp only [tableSchema, schema, Except.mapError, ok_bind, pure_eq_ok]
    rw [refuse_of_not _ (by simpa using short)]
    rfl
  · simp only [tableSchema, schema', Except.mapError, ok_bind, pure_eq_ok]
    rw [refuse_of_not _ (by simp)]
    rfl

/-- The columns of a valid request. -/
theorem column_of_schemaDescriptor {ty : Ty} {key : Bool} {bytes : Bytes} (described : ty.Described)
    (valid : schemaDescriptor ty key = .ok bytes) : Column ty key := by
  obtain rfl := schemaDescriptor_eq_ok valid
  obtain ⟨_, -, valid⟩ := bind_eq_ok.mp valid
  obtain ⟨_, written, valid⟩ := bind_eq_ok.mp valid
  obtain ⟨schema, checked, same⟩ := bind_eq_ok.mp valid
  cases same
  exact ⟨described, schema, raise_eq_ok.mp checked⟩

/-- A column is described by its descriptor. -/
theorem Column.schemaDescriptor {ty : Ty} {key : Bool} (column : Column ty key) :
    schemaDescriptor ty key = .ok ty.descriptor := by
  obtain ⟨⟨formed, short⟩, schema, checked⟩ := column
  obtain ⟨ty', decoded, plain, -⟩ := Schema.typed (tableSchema_eq_ok checked).1
  obtain rfl : ty = ty' := Except.ok.inj ((Ty.decode_descriptor formed short).symm.trans decoded)
  have length : ty.descriptor.length = 2 + ty.encodeType.length := by
    simp [Ty.descriptor]
  simp only [maxDescriptorBytes] at short
  have measured := measureSchema_of_measured formed le_rfl plain
    (Outcome.measureType_of_formed formed (show 1 + 16 = 17 from rfl) 2 (by omega))
  simp only [Database.schemaDescriptor, measured, raise_ok, ok_bind, formed.descriptorOrPanic, checked, pure_eq_ok]

/-! ## Versions -/

/-- A version that the catalogue can store. -/
structure Storable (version : CatalogueVersion) : Prop where
  id : validId version.table.id = .ok ()
  name : validName version.name = .ok ()
  key : Column version.table.key true
  value : Column version.table.value false

/-- A decoded version can be stored again. -/
theorem storable_of_decoded {id : Nat} {bytes : Bytes} {version : CatalogueVersion}
    (decoded : decodeCatalogue id bytes = .ok version) : Storable version := by
  obtain ⟨key, value⟩ := columns_of_decoded decoded
  simp only [decodeCatalogue, bind_eq_ok, Prod.exists] at decoded
  obtain ⟨⟨⟩, valid, _, _, -, -, -, _, _, -, live, -, _, _, -, -, -, _, _, -, name, -, ⟨⟩, named, keyBytes, _,
    -, keySchema, -, keyType, -, valueBytes, _, -, valueSchema, -, valueType, -, -, -, same⟩ := decoded
  cases same
  exact ⟨valid, named, key, value⟩

/-- The longest value of a version. -/
def maxCatalogueBytes : Nat := 16 + 255 + 2 * maxDescriptorBytes

/-- The value of a version is far below the physical ceiling. -/
theorem length_catalogue_le {id : Nat} {bytes : Bytes} {version : CatalogueVersion}
    (decoded : decodeCatalogue id bytes = .ok version) : bytes.length ≤ maxCatalogueBytes := by
  have storable := storable_of_decoded decoded
  obtain ⟨rfl, -⟩ := decodeCatalogue_eq_ok decoded
  have name := storable.name
  have key := storable.key.described.short
  have value := storable.value.described.short
  simp only [validName, refuse_eq_ok, not_or, not_lt] at name
  simp only [catalogueBytes, List.length_append, length_leBytes, List.length_cons, List.length_nil,
    maxCatalogueBytes]
  omega

theorem readBlob_append {bytes : Bytes} (short : bytes.length < 2 ^ 32) (rest : Bytes) :
    readBlob ((leBytes 4 bytes.length ++ bytes) ++ rest) = .ok (bytes, rest) := by
  simp only [readBlob, take, List.append_assoc, takeBytes_leBytes, ok_bind,
    leNat_leBytes 4 _ (show bytes.length < 256 ^ 4 by omega), takeBytes_append]

/-- The value of a storable version decodes to the version. -/
theorem Storable.encodes {version : CatalogueVersion} (storable : Storable version) :
    ∃ bytes, encodeCatalogue version = .ok bytes ∧ decodeCatalogue version.table.id bytes = .ok version := by
  obtain ⟨id, name, ⟨⟨keyFormed, keyShort⟩, keySchema, keyed⟩, ⟨valueFormed, valueShort⟩, valueSchema, valued⟩ :=
    storable
  have key := Column.schemaDescriptor ⟨⟨keyFormed, keyShort⟩, keySchema, keyed⟩
  have value := Column.schemaDescriptor ⟨⟨valueFormed, valueShort⟩, valueSchema, valued⟩
  have nameShort := name
  simp only [validName, refuse_eq_ok, not_or, not_lt] at nameShort
  have keyDecoded := Ty.decode_descriptor keyFormed keyShort
  have valueDecoded := Ty.decode_descriptor valueFormed valueShort
  simp only [maxDescriptorBytes] at keyShort valueShort
  have nameFits : (textBytes version.name).length < 2 ^ 32 := by omega
  have keyFits : version.table.key.descriptor.length < 2 ^ 32 := by omega
  have valueFits : version.table.value.descriptor.length < 2 ^ 32 := by omega
  refine ⟨catalogueBytes version.live (textBytes version.name) version.table.key.descriptor
    version.table.value.descriptor, ?_, ?_⟩
  · simp only [encodeCatalogue, id, name, key, value, raise_ok, ok_bind, blob_eq_ok.mpr ⟨nameFits, rfl⟩,
      blob_eq_ok.mpr ⟨keyFits, rfl⟩, blob_eq_ok.mpr ⟨valueFits, rfl⟩, pure_eq_ok]
    rfl
  · have last := readBlob_append valueFits []
    rw [List.append_nil] at last
    have format : leNat [1, 0] = 1 := by decide
    have state : catalogueState [liveByte version.live] = .ok version.live := by
      cases version.live <;> rfl
    have text : catalogueName (textBytes version.name) = .ok version.name := by
      simp only [catalogueName, fromUtf8_textBytes]
    have front (rest : Bytes) : take ([1, 0, liveByte version.live, 0] ++ rest) 2 =
        .ok ([1, 0], liveByte version.live :: 0 :: rest) := takeBytes_append _ [1, 0] _
    have flag (rest : Bytes) : take (liveByte version.live :: 0 :: rest) 1 =
        .ok ([liveByte version.live], 0 :: rest) := takeBytes_append _ [liveByte version.live] _
    have zero (rest : Bytes) : take (0 :: rest) 1 = .ok ([0], rest) := takeBytes_append _ [0] _
    rw [catalogueBytes, List.append_assoc, List.append_assoc]
    simp only [decodeCatalogue, id, ok_bind, front, format, ne_eq, not_true_eq_false, refuse_false, flag, state,
      zero, readBlob_append nameFits, text, name, readBlob_append keyFits, keyed, keyDecoded, last, valued,
      valueDecoded, pure_eq_ok]

/-! ## Outcomes -/

section Outcomes

variable {sequence : Nat} {digest : Bytes}

/-- An administrative abort encodes. -/
theorem encodeOutcome_administrativeAbort {reason : AbortReason} (id : validId sequence = .ok ())
    (digested : digest.length = 32) (known : reason = .nameInUse ∨ reason = .tableNotLive) :
    ∃ bytes, Outcome.encodeOutcome sequence digest 2 (administrativeAbort reason) = .ok bytes := by
  apply Outcome.encodeOutcome_aborted id (by decide) digested
  rcases known with rfl | rfl <;> rfl

/-- The types that administrative records return. -/
def Administrative (ty : Ty) (value : Value) : Prop :=
  (ty = .u64 ∧ ∃ n, value = .u64 n) ∨ (ty = .unit ∧ value = .unit)

/-- A success with one short effect encodes. -/
theorem encodeOutcome_single {kind : Nat} {ty : Ty} {value : Value} {effect : Effect} {encoded : Bytes}
    (id : validId sequence = .ok ()) (known : 1 ≤ kind ∧ kind ≤ 3) (digested : digest.length = 32)
    (returns : Administrative ty value)
    (valid : Outcome.validateSuccess sequence kind ty value [effect] = .ok ())
    (written : Outcome.encodeEffect effect = .ok encoded) (short : encoded.length ≤ 2 * maxCatalogueBytes) :
    ∃ bytes, Outcome.encodeOutcome sequence digest kind (.success ty value [effect]) = .ok bytes := by
  have formed : ty.Formed 16 := by
    rcases returns with ⟨rfl, -⟩ | ⟨rfl, -⟩ <;> exact ⟨by decide, trivial⟩
  have accepted : ty.accepts value = true := by
    rcases returns with ⟨rfl, n, rfl⟩ | ⟨rfl, rfl⟩ <;> rfl
  have width : ty.descriptor.length ≤ 3 ∧ value.encode.length ≤ 8 := by
    rcases returns with ⟨rfl, n, rfl⟩ | ⟨rfl, rfl⟩
    · exact ⟨by decide, by simp [Value.encode]⟩
    · exact ⟨by decide, by decide⟩
  have described : ty.descriptor.length ≤ maxDescriptorBytes := width.1.trans (by decide)
  have sorted : Outcome.sortEffects [effect] = [effect] := List.mergeSort_singleton _
  have encodedEffects : Outcome.encodeEffects [effect] = .ok encoded := by
    simp only [Outcome.encodeEffects, written, ok_bind, pure_eq_ok, List.append_nil]
  have returned : (leBytes 4 ty.descriptor.length ++ ty.descriptor ++
      (leBytes 4 value.encode.length ++ value.encode)).length < 2 ^ 32 := by
    simp only [List.length_append, length_leBytes]
    omega
  have body : ∃ body, Outcome.encodeBody sequence kind (.success ty value [effect]) = .ok body ∧
      body.length ≤ 64 + encoded.length := by
    simp only [Outcome.encodeBody, Outcome.descriptor_of_formed formed described, accepted, valid, raise_ok, ok_bind,
      Outcome.blob_of_short (show ty.descriptor.length < 2 ^ 32 by omega), encodeOrPanic_of_accepts formed accepted,
      Outcome.blob_of_short (show value.encode.length < 2 ^ 32 by omega), sorted,
      show Outcome.duplicateAddress [effect] = false from rfl, encodedEffects, refuse_false, Bool.true_eq_false,
      Bool.false_eq_true, Outcome.blob_of_short returned, pure_eq_ok]
    refine ⟨_, rfl, ?_⟩
    simp only [List.length_append, length_leBytes]
    omega
  obtain ⟨body, written, bodyWidth⟩ := body
  refine ⟨_, Outcome.encodeOutcome_eq_ok.mpr ⟨id, known, body, written, rfl, ?_⟩⟩
  simp only [List.length_append, length_leBytes, List.length_cons, List.length_nil, digested,
    Outcome.maxOutcomeBytes]
  simp only [maxCatalogueBytes, maxDescriptorBytes] at short
  omega

/-- The success of a catalogue record encodes. -/
theorem catalogueSuccess_total {version : CatalogueVersion} {ty : Ty} {value : Value}
    (id : validId sequence = .ok ()) (digested : digest.length = 32) (storable : Storable version)
    (old : version.table.id ≤ sequence) (alive : version.table.id = sequence → version.live = true)
    (returned : (ty, value) =
      if version.table.id = sequence then (.u64, .u64 (UInt64.ofNat sequence)) else (.unit, .unit)) :
    ∃ outcome bytes, catalogueSuccess version ty value = .ok outcome ∧
      Outcome.encodeOutcome sequence digest 2 outcome = .ok bytes := by
  obtain ⟨stored, encoded, decoded⟩ := storable.encodes
  have short := length_catalogue_le decoded
  have effect : Outcome.validateEffect sequence 2 (.catalogue version.table.id stored) = .ok () := by
    have allowed : ¬ (version.table.id > sequence ∨ version.table.id = sequence ∧ version.live = false) := by
      rintro (later | ⟨same, dead⟩)
      · omega
      · rw [alive same] at dead
        cases dead
    simp only [Outcome.validateEffect, if_true, decoded, ok_bind, refuse_of_not _ allowed]
  have valid : Outcome.validateSuccess sequence 2 ty value [.catalogue version.table.id stored] = .ok () := by
    refine Outcome.validateSuccess_eq_ok.mpr ⟨⟨by simp, by simp⟩, ?_, by simpa using effect, by
      simp [Outcome.overlayBytes]⟩
    intro expected isExpected
    simp only [Outcome.expectedReturn, List.head?_cons] at isExpected
    split_ifs at isExpected returned with same
    · cases isExpected
      exact Prod.ext_iff.mp returned
    · cases isExpected
      exact Prod.ext_iff.mp returned
  have written : Outcome.encodeEffect (.catalogue version.table.id stored) =
      .ok (3 :: (leBytes 8 version.table.id ++ (leBytes 4 stored.length ++ stored))) := by
    simp only [maxCatalogueBytes, maxDescriptorBytes] at short
    simp only [Outcome.encodeEffect, Outcome.blob_of_short (show stored.length < 2 ^ 32 by omega), ok_bind, pure_eq_ok]
  have returns : Administrative ty value := by
    split_ifs at returned
    · cases returned
      exact .inl ⟨rfl, _, rfl⟩
    · cases returned
      exact .inr ⟨rfl, rfl⟩
  obtain ⟨bytes, done⟩ := encodeOutcome_single id (by decide) digested returns valid written (by
    simp only [List.length_cons, List.length_append, length_leBytes]
    simp only [maxCatalogueBytes, maxDescriptorBytes] at short ⊢
    omega)
  exact ⟨_, bytes, by simp only [catalogueSuccess, encoded, ok_bind, pure_eq_ok], done⟩

/-- The outcome of a limits record encodes. -/
theorem limits_total (id : validId sequence = .ok ()) (digested : digest.length = 32) (policy : LimitPolicy) :
    ∃ bytes, Outcome.encodeOutcome sequence digest 3 (limits policy) = .ok bytes := by
  have length := LimitPolicy.length_encode policy
  have valid : Outcome.validateSuccess sequence 3 .unit .unit [.limits policy] = .ok () := by
    refine Outcome.validateSuccess_eq_ok.mpr ⟨⟨by simp, by simp⟩, ?_, by simp [Outcome.validateEffect], by
      simp [Outcome.overlayBytes]⟩
    rintro expected ⟨⟩
    exact ⟨rfl, rfl⟩
  have written : Outcome.encodeEffect (.limits policy) = .ok (4 :: (leBytes 4 policy.encode.length ++ policy.encode)) := by
    simp only [Outcome.encodeEffect, Outcome.blob_of_short (show policy.encode.length < 2 ^ 32 by omega), ok_bind,
      pure_eq_ok]
  refine encodeOutcome_single id (by decide) digested (.inr ⟨rfl, rfl⟩) valid written ?_
  simp only [List.length_cons, List.length_append, length_leBytes, length, maxCatalogueBytes, maxDescriptorBytes]
  omega

/-- The live version that a request changes, if there is one, can be stored again. -/
theorem liveVersion_total {view : View} {frontier table : Nat} (keyed : Keyed view frontier)
    (fits : table < 2 ^ 64) (valid : validId table = .ok ()) :
    ∃ found, liveVersion view table frontier = .ok found ∧ ∀ version ∈ found, version.live = true ∧
      version.table.id ≤ frontier ∧ Storable version := by
  obtain ⟨positive, bounded⟩ := validId_eq_ok.mp valid
  have snapshot := keyed.bounded
  have below : table < maxU64 := lt_of_le_of_ne (Nat.le_of_lt_succ fits) bounded
  obtain ⟨version, read, means⟩ := catalogueVersion_latest keyed positive below snapshot
  refine ⟨version.filter CatalogueVersion.live, by simp only [liveVersion, read, ok_bind, pure_eq_ok], ?_⟩
  intro current isCurrent
  obtain ⟨rfl, live⟩ := Option.filter_eq_some_iff.mp isCurrent
  obtain ⟨sequence, before, stored, -⟩ := (means current).mp rfl
  obtain ⟨entry, -, holds⟩ := keyed.stored stored
  have named := holds.tableId
  obtain ⟨-, -, order, old, decoded⟩ := holds
  exact ⟨live, named.le.trans (order.trans old), storable_of_decoded decoded⟩

/-- A request whose types have descriptors and whose table is an unsigned 64-bit integer. -/
def Described : CatalogueOperation → Prop
  | .create _ key value => key.Described ∧ value.Described
  | .rename table _ | .drop table => table < 2 ^ 64

/-- A valid catalogue record has an outcome, which encodes. -/
theorem catalogue_total {view : View} {frontier : Nat} (keyed : Keyed view frontier)
    (small : frontier + 1 < maxU64) (digested : digest.length = 32) {operation : CatalogueOperation}
    (described : Described operation) (valid : validateCatalogue operation = .ok ()) :
    ∃ outcome bytes, catalogue view (frontier + 1) operation = .ok outcome ∧
      Outcome.encodeOutcome (frontier + 1) digest 2 outcome = .ok bytes := by
  have snapshot := keyed.bounded
  have id : validId (frontier + 1) = .ok () := validId_eq_ok.mpr ⟨by omega, small.ne⟩
  cases operation with
  | create name key value =>
      obtain ⟨taken, inUse, -⟩ := @nameInUse_latest view frontier frontier keyed name none
      obtain ⟨⟨⟩, named, rest⟩ := bind_eq_ok.mp valid
      obtain ⟨keyBytes, keyed', rest⟩ := bind_eq_ok.mp rest
      obtain ⟨valueBytes, valued, -⟩ := bind_eq_ok.mp rest
      simp only [catalogue, id, valid, raise_ok, ok_bind, Nat.add_sub_cancel, inUse]
      cases taken with
      | true =>
          obtain ⟨bytes, encoded⟩ := encodeOutcome_administrativeAbort id digested (.inl rfl)
          exact ⟨_, bytes, rfl, encoded⟩
      | false =>
          apply catalogueSuccess_total id digested
          · exact ⟨id, raise_eq_ok.mp named, column_of_schemaDescriptor described.1 keyed',
              column_of_schemaDescriptor described.2 valued⟩
          · exact le_rfl
          · exact fun _ => rfl
          · rw [if_pos rfl]
  | rename table name =>
      obtain ⟨⟨⟩, tabled, named⟩ := bind_eq_ok.mp valid
      obtain ⟨version, read, live⟩ := liveVersion_total keyed described (raise_eq_ok.mp tabled)
      simp only [catalogue, id, valid, raise_ok, ok_bind, Nat.add_sub_cancel, read]
      cases version with
      | none =>
          obtain ⟨bytes, encoded⟩ := encodeOutcome_administrativeAbort id digested (.inr rfl)
          exact ⟨_, bytes, rfl, encoded⟩
      | some version =>
          obtain ⟨isLive, old, storable⟩ := live version rfl
          obtain ⟨taken, inUse, -⟩ := @nameInUse_latest view frontier frontier keyed name (some table)
          simp only [inUse, raise_ok, ok_bind]
          cases taken with
          | true =>
              obtain ⟨bytes, encoded⟩ := encodeOutcome_administrativeAbort id digested (.inl rfl)
              exact ⟨_, bytes, rfl, encoded⟩
          | false =>
              apply catalogueSuccess_total id digested
              · exact { storable with name := raise_eq_ok.mp named }
              · exact old.trans (Nat.le_succ _)
              · exact fun _ => isLive
              · rw [if_neg (by simp only; omega)]
  | drop table =>
      obtain ⟨version, read, live⟩ := liveVersion_total keyed described (raise_eq_ok.mp valid)
      simp only [catalogue, id, valid, raise_ok, ok_bind, Nat.add_sub_cancel, read]
      cases version with
      | none =>
          obtain ⟨bytes, encoded⟩ := encodeOutcome_administrativeAbort id digested (.inr rfl)
          exact ⟨_, bytes, rfl, encoded⟩
      | some version =>
          obtain ⟨isLive, old, storable⟩ := live version rfl
          apply catalogueSuccess_total id digested
          · exact { storable with }
          · exact old.trans (Nat.le_succ _)
          · intro same
            simp only at same
            omega
          · rw [if_neg (by simp only; omega)]

end Outcomes

end Database

end BlopDb.Vm
