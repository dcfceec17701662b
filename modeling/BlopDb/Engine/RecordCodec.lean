/-
# Record bodies round-trip

A prepared command encodes to a body that fits a log record and decodes to the
same command; a body that decodes is the encoding of its command.  Recorded
digests therefore survive decoding and encoding again.
-/

import BlopDb.Engine.Record
import BlopDb.Vm.HistorySound

namespace BlopDb.Engine.Record

open BlopDb.Lib
open Vm (AccessManifest CatalogueOperation Command Error Transaction Ty)
open Storage (Digest LimitPolicy View maxU64 sha256)
open Storage.Metadata (maxRecordLength policyLength)

/-! ## Fields -/

theorem readBudget_eq_ok {input rest : Bytes} {policy : LimitPolicy} :
    readBudget input = .ok (policy, rest) ↔
      input = policy.values.flatMap (leBytes 8) ++ rest := by
  simp only [readBudget, bind_eq_ok, Prod.exists, readNats_eq_ok, mapError_eq_ok, pure_eq_ok,
    Except.ok.injEq, Prod.mk.injEq]
  constructor
  · rintro ⟨values, _, ⟨rfl, -⟩, policy', built, rfl, rfl⟩
    unfold LimitPolicy.new at built
    split_ifs at built
    cases built
    rfl
  · rintro rfl
    refine ⟨⟨policy.values, policy.length_values⟩, rest, ⟨rfl, fun value member =>
      policy.value_lt member⟩, policy, ?_, rfl, rfl⟩
    exact dif_pos policy.bounded

theorem length_budget (policy : LimitPolicy) :
    (policy.values.flatMap (leBytes 8)).length = 136 := by
  rw [LimitPolicy.length_flatMap_leBytes, policy.length_values]

theorem readName_eq_ok {input rest : Bytes} {name : String} :
    readName input = .ok (name, rest) ↔
      input = framed (textBytes name) ++ rest ∧ Vm.Database.validName name = .ok () := by
  simp only [readName, bind_eq_ok, Prod.exists, readFramed_eq_ok, refuse_eq_ok, exists_const,
    Vm.orInvalid_eq_ok, pure_eq_ok, Except.ok.injEq, Prod.mk.injEq, Vm.Database.validName]
  constructor
  · rintro ⟨bytes, _, ⟨rfl, -⟩, valid, text, decoded, rfl, rfl⟩
    rw [textBytes_of_fromUtf8 decoded]
    exact ⟨rfl, valid⟩
  · rintro ⟨rfl, valid⟩
    have short : (textBytes name).length ≤ 255 := by
      simp only [not_or, not_lt] at valid
      exact valid.2.1
    exact ⟨textBytes name, rest, ⟨rfl, by omega⟩, valid, name, fromUtf8_textBytes name, rfl, rfl⟩

theorem readType_eq_ok {input rest : Bytes} {ty : Ty} :
    readType input = .ok (ty, rest) ↔ input = framed ty.descriptor ++ rest ∧ ty.Formed 16 ∧
      ty.descriptor.length ≤ Vm.maxDescriptorBytes := by
  simp only [readType, bind_eq_ok, Prod.exists, readFramed_eq_ok, pure_eq_ok, Except.ok.injEq,
    Prod.mk.injEq]
  constructor
  · rintro ⟨descriptor, _, ⟨rfl, -⟩, ty', decoded, rfl, rfl⟩
    obtain ⟨rfl, formed, short⟩ := Ty.decode_sound decoded
    exact ⟨rfl, formed, short⟩
  · rintro ⟨rfl, formed, short⟩
    refine ⟨ty.descriptor, rest, ⟨rfl, ?_⟩, ty, Ty.decode_descriptor formed short, rfl, rfl⟩
    simp only [Vm.maxDescriptorBytes] at short
    omega

theorem length_name {name : String} (valid : Vm.Database.validName name = .ok ()) :
    (textBytes name).length ≤ 255 := by
  simp only [Vm.Database.validName, refuse_eq_ok, not_or, not_lt] at valid
  exact valid.2.1

/-! ## Decoding then encoding -/

/-- A recorded manifest is canonical and counts within its claim. -/
theorem readTransaction_sound {input rest : Bytes} {command : Command}
    (read : readTransaction input = .ok (command, rest)) :
    ∃ body, encode command = .ok (1, leBytes 2 1 ++ body) ∧ input = body ++ rest := by
  simp only [readTransaction, bind_eq_ok, Prod.exists, readNat_eq_ok, readFramed_eq_ok,
    readBudget_eq_ok, refuse_eq_ok, exists_const, pure_eq_ok, Except.ok.injEq, Prod.mk.injEq,
    not_not] at read
  obtain ⟨_, _, ⟨rfl, -⟩, rfl, program, _, ⟨rfl, shortProgram⟩, arguments, _,
    ⟨rfl, shortArguments⟩, manifestBytes, _, ⟨rfl, shortManifest⟩, claims, _, rfl, -, manifest,
    decoded, _, counted, rfl, rfl⟩ := read
  obtain ⟨encoded, -, -⟩ := AccessManifest.decode_eq_ok.mp decoded
  refine ⟨leBytes 2 0 ++ framed program ++ framed arguments ++ framed manifestBytes ++
    claims.values.flatMap (leBytes 8), ?_, by simp⟩
  simp only [encode, requireManifest, raise_ok, ok_bind, counted, encoded, blob,
    frameBytes_of_short _ shortProgram, frameBytes_of_short _ shortArguments,
    frameBytes_of_short _ shortManifest, pure_eq_ok, List.append_assoc]

theorem readOperation_sound {number : Nat} {input rest : Bytes} {operation : CatalogueOperation}
    (read : readOperation number input = .ok (operation, rest)) :
    ∃ fields, encodeOperation operation = .ok (leBytes 1 number ++ leBytes 1 0 ++ fields) ∧
      input = fields ++ rest := by
  unfold readOperation at read
  split at read
  · simp only [bind_eq_ok, Prod.exists, readName_eq_ok, readType_eq_ok, pure_eq_ok,
      Except.ok.injEq, Prod.mk.injEq] at read
    obtain ⟨name, _, ⟨rfl, valid⟩, key, _, ⟨rfl, keyFormed, keyShort⟩, value, _,
      ⟨rfl, valueFormed, valueShort⟩, rfl, rfl⟩ := read
    have nameShort := length_name valid
    simp only [Vm.maxDescriptorBytes] at keyShort valueShort
    refine ⟨framed (textBytes name) ++ framed key.descriptor ++ framed value.descriptor, ?_,
      by simp⟩
    simp only [encodeOperation, blob, keyFormed.descriptorOrPanic, valueFormed.descriptorOrPanic,
      frameBytes_of_short _ (show (textBytes name).length < 2 ^ 32 by omega),
      frameBytes_of_short _ (show key.descriptor.length < 2 ^ 32 by omega),
      frameBytes_of_short _ (show value.descriptor.length < 2 ^ 32 by omega), raise_ok, ok_bind,
      pure_eq_ok, List.append_assoc]
  · simp only [bind_eq_ok, Prod.exists, readNat_eq_ok, readName_eq_ok, pure_eq_ok,
      Except.ok.injEq, Prod.mk.injEq] at read
    obtain ⟨table, _, ⟨rfl, -⟩, name, _, ⟨rfl, valid⟩, rfl, rfl⟩ := read
    have nameShort := length_name valid
    refine ⟨leBytes 8 table ++ framed (textBytes name), ?_, by simp⟩
    simp only [encodeOperation, blob,
      frameBytes_of_short _ (show (textBytes name).length < 2 ^ 32 by omega), raise_ok, ok_bind,
      pure_eq_ok, List.append_assoc]
  · simp only [bind_eq_ok, Prod.exists, readNat_eq_ok, pure_eq_ok, Except.ok.injEq,
      Prod.mk.injEq] at read
    obtain ⟨table, _, ⟨rfl, -⟩, rfl, rfl⟩ := read
    exact ⟨leBytes 8 table, rfl, rfl⟩
  · cases read

theorem readCatalogue_sound {input rest : Bytes} {command : Command}
    (read : readCatalogue input = .ok (command, rest)) :
    ∃ body, encode command = .ok (2, leBytes 2 1 ++ body) ∧ input = body ++ rest := by
  simp only [readCatalogue, bind_eq_ok, Prod.exists, raise_eq_ok, readNat_eq_ok, refuse_eq_ok,
    exists_const, pure_eq_ok, Except.ok.injEq, Prod.mk.injEq, not_not] at read
  obtain ⟨number, _, ⟨rfl, -⟩, _, _, ⟨rfl, -⟩, rfl, operation, _, read, _, valid, rfl, rfl⟩ := read
  obtain ⟨fields, encoded, rfl⟩ := readOperation_sound read
  refine ⟨leBytes 1 number ++ leBytes 1 0 ++ fields, ?_, by simp⟩
  simp only [encode, valid, encoded, ok_bind, pure_eq_ok]

theorem readLimits_sound {input rest : Bytes} {command : Command}
    (read : readLimits input = .ok (command, rest)) :
    ∃ body, encode command = .ok (3, leBytes 2 1 ++ body) ∧ input = body ++ rest := by
  simp only [readLimits, bind_eq_ok, Prod.exists, readNat_eq_ok, refuse_eq_ok, exists_const,
    readBudget_eq_ok, pure_eq_ok, Except.ok.injEq, Prod.mk.injEq, not_not] at read
  obtain ⟨_, _, ⟨rfl, -⟩, rfl, policy, _, rfl, rfl, rfl⟩ := read
  exact ⟨leBytes 2 0 ++ policy.values.flatMap (leBytes 8),
    by simp [encode, LimitPolicy.encode], by simp⟩

/-- A body that decodes is the encoding of its command. -/
theorem encode_of_decode {kind : Nat} {body : Bytes} {command : Command}
    (decoded : decode kind body = .ok command) : encode command = .ok (kind, body) := by
  simp only [decode, bind_eq_ok, Prod.exists, raise_eq_ok, readNat_eq_ok, refuse_eq_ok,
    exists_const, pure_eq_ok, Except.ok.injEq, not_not] at decoded
  obtain ⟨name, -, -, _, input, ⟨rfl, -⟩, rfl, command', rest, read, rfl, rfl⟩ := decoded
  have written : ∃ body, encode command' = .ok (kind, leBytes 2 1 ++ body) ∧
      input = body ++ [] := by
    unfold readBody at read
    split at read
    · exact readTransaction_sound (raise_eq_ok.mp read)
    · exact readCatalogue_sound read
    · exact readLimits_sound (raise_eq_ok.mp read)
    · cases read
  obtain ⟨fields, encoded, rfl⟩ := written
  rw [encoded, List.append_nil]

/-! ## Prepared commands -/

/-- A validated scope names a table of the program and a key that fits. -/
theorem validateScope_scoped {tables : List Vm.Table} {scope : Vm.Scope}
    (valid : ∀ table ∈ tables, table.id ≠ 0 ∧ table.id < maxU64)
    (accepted : Vm.Access.validateScope tables scope = .ok ()) : AccessManifest.Scoped scope := by
  unfold Vm.Access.validateScope at accepted
  split at accepted
  · cases accepted
  · rename_i table found
    obtain ⟨positive, below⟩ := valid table (List.mem_of_find?_eq_some found)
    have named : table.id = scope.tableId := by simpa using List.find?_some found
    rw [named] at positive below
    refine ⟨positive, below, ?_⟩
    cases scope with
    | table id => simp [Vm.Scope.keyBytes]
    | key id key =>
        dsimp only at accepted
        split at accepted
        · cases accepted
        · split at accepted
          · cases accepted
          · rename_i decoded
            simp only [Storage.Encoding.decodeKey, bind_eq_ok, refuse_eq_ok, exists_const,
              not_lt, gt_iff_lt] at decoded
            obtain ⟨small, short, -⟩ := decoded
            exact short.trans small

theorem declare_scoped {tables : List Vm.Table} {entries : List (Vm.Scope × Vm.AccessMode)}
    {declarations result : OrdMap Vm.Scope Nat}
    (valid : ∀ table ∈ tables, table.id ≠ 0 ∧ table.id < maxU64)
    (declared : Vm.Access.declare tables entries declarations = .ok result) :
    ∀ entry ∈ entries, AccessManifest.Scoped entry.1 := by
  induction entries generalizing declarations with
  | nil => simp
  | cons entry entries ih =>
      obtain ⟨scope, mode⟩ := entry
      obtain ⟨⟨⟩, accepted, rest⟩ := bind_eq_ok.mp declared
      intro other member
      rcases List.mem_cons.mp member with rfl | inRest
      · exact validateScope_scoped valid accepted
      · exact ih rest other inRest

/-- What preparation establishes about the bytes of a transaction. -/
structure Bounded (transaction : Transaction) (claims : LimitPolicy) (manifest : AccessManifest) :
    Prop where
  program : transaction.programBytes.length ≤ claims.value 0
  arguments : transaction.argumentBytes.length ≤ claims.value 4
  counted : manifest.checkCount (claims.value 6) = .ok ()
  fits : ∀ entry ∈ manifest.entries, AccessManifest.Scoped entry.1
  canonical : manifest.Canonical

theorem decode_lengths {programBytes argumentBytes : Bytes} {tables : List Vm.Table}
    {claims : LimitPolicy} {program : Vm.Program}
    (decoded : Vm.Program.decode programBytes argumentBytes tables claims = .ok program) :
    programBytes.length ≤ claims.value 0 ∧ argumentBytes.length ≤ claims.value 4 := by
  simp only [Vm.Program.decode, bind_eq_ok, refuse_eq_ok, Prod.exists, exists_const, not_lt,
    gt_iff_lt] at decoded
  obtain ⟨_, _, -, program, -, -, -, arguments, -⟩ := decoded
  exact ⟨program, arguments⟩

theorem prepareTransaction_bounded [Sha256] {view : View} {sequence : Nat}
    {transaction : Transaction} {claims : LimitPolicy} {manifest : Option AccessManifest}
    {prepared : Vm.PreparedTransaction} (built : ∀ supplied ∈ manifest, supplied.Built)
    (accepted : Vm.prepareTransaction view sequence transaction claims manifest = .ok prepared) :
    Bounded transaction claims prepared.manifest := by
  obtain ⟨programmed, -, required, derived, isManifest, validated⟩ :=
    Vm.prepareTransaction_eq_ok accepted
  have loaded := (Vm.prepareProgram_prepared programmed).loaded
  obtain ⟨_, -, programmed⟩ := bind_eq_ok.mp programmed
  obtain ⟨_, -, programmed⟩ := bind_eq_ok.mp programmed
  obtain ⟨_, -, programmed⟩ := bind_eq_ok.mp programmed
  obtain ⟨_, -, programmed⟩ := bind_eq_ok.mp programmed
  obtain ⟨_, -, programmed⟩ := bind_eq_ok.mp programmed
  obtain ⟨_, decoded, -⟩ := bind_eq_ok.mp programmed
  obtain ⟨programShort, argumentsShort⟩ := decode_lengths decoded
  obtain ⟨⟨⟩, counted, validated⟩ := bind_eq_ok.mp validated
  obtain ⟨declarations, declared, -⟩ := bind_eq_ok.mp validated
  refine ⟨programShort, argumentsShort, counted, declare_scoped loaded.tables declared, ?_⟩
  rw [isManifest]
  cases manifest with
  | some supplied => exact (built supplied rfl).canonical
  | none =>
      obtain ⟨_, -, derived⟩ := bind_eq_ok.mp derived
      obtain ⟨_, -, normalized⟩ := bind_eq_ok.mp derived
      exact AccessManifest.new_canonical (raise_eq_ok.mp normalized)

/-- The encoded manifest of a prepared transaction fits its field. -/
theorem Bounded.encoded {transaction : Transaction} {claims : LimitPolicy}
    {manifest : AccessManifest} (bounded : Bounded transaction claims manifest) :
    ∃ bytes, manifest.encode = .ok bytes ∧ AccessManifest.decode bytes = .ok manifest ∧
      bytes.length ≤ 4 + 1040 * 16384 := by
  have counted := bounded.counted
  simp only [AccessManifest.checkCount, refuse_eq_ok, not_lt, gt_iff_lt] at counted
  have few : manifest.entries.length ≤ 16384 := counted.trans (Nat.min_le_right _ _)
  have written : manifest.encode = .ok (leBytes 4 manifest.entries.length ++
      manifest.entries.flatMap AccessManifest.encodeEntry) := by
    simp only [AccessManifest.encode, AccessManifest.checkCount, min_self,
      refuse_of_not _ (show ¬ manifest.entries.length > 16384 by omega), ok_bind, pure_eq_ok]
  refine ⟨_, written, AccessManifest.decode_eq_ok.mpr ⟨written, bounded.fits, bounded.canonical⟩, ?_⟩
  have long := AccessManifest.length_encodeEntries_le bounded.fits
  rw [List.length_append, length_leBytes]
  omega

/-- A column type that passes validation is the type its descriptor decodes to. -/
theorem schemaDescriptor_formed {ty : Ty} {key : Bool} {bytes : Bytes} (fits : ty.Fits)
    (described : Vm.Database.schemaDescriptor ty key = .ok bytes) :
    ty.Formed 16 ∧ ty.descriptor.length ≤ Vm.maxDescriptorBytes := by
  obtain ⟨_, -, described⟩ := bind_eq_ok.mp described
  obtain ⟨descriptor, written, described⟩ := bind_eq_ok.mp described
  obtain ⟨schema, checked, -⟩ := bind_eq_ok.mp described
  unfold Ty.descriptorOrPanic at written
  split_ifs at written with counts
  cases written
  obtain ⟨stored, decoded, -⟩ := bind_eq_ok.mp (raise_eq_ok.mp checked)
  obtain ⟨ty', typed, -⟩ := Vm.Schema.typed (mapError_eq_ok.mp decoded)
  obtain ⟨rfl, formed⟩ := Ty.formed_of_decode fits counts typed
  exact ⟨formed, (Ty.decode_sound typed).2.2⟩

/-- The integers of a command fit the machine integers that hold them, and its
manifest was built by one of the constructors of manifests. -/
def Representable : Command → Prop
  | .transaction _ _ manifest => ∀ supplied ∈ manifest, supplied.Built
  | .catalogue (.create _ key value) => key.Fits ∧ value.Fits
  | .catalogue (.rename table _) => table < 2 ^ 64
  | .catalogue (.drop table) => table < 2 ^ 64
  | .limits _ => True

/-- A recorded body: it encodes the command, decodes to it and fits a record. -/
def Written (command : Command) (kind : Nat) (body : Bytes) : Prop :=
  encode command = .ok (kind, body) ∧ decode kind body = .ok command ∧
    body.length + recordOverhead ≤ maxRecordLength ∧ (1 ≤ kind ∧ kind ≤ 3) ∧
    (kind = 3 → body.length = policyLength)

theorem decode_of_read {kind : Nat} {fields : Bytes} {command : Command} {name : String}
    (known : format kind = .ok name) (short : (leBytes 2 1 ++ fields).length + 72 ≤ 64 * 1024 * 1024)
    (read : readBody kind fields = .ok (command, [])) :
    decode kind (leBytes 2 1 ++ fields) = .ok command := by
  have within : ¬ (leBytes 2 1 ++ fields).length > 64 * 1024 * 1024 - 72 := by omega
  simp only [decode, known, raise_ok, ok_bind, refuse_of_not _ within,
    readNat_append (show 1 < 256 ^ 2 by norm_num), read]
  rfl

/-- A transaction within its claims is recorded. -/
theorem Bounded.written {transaction : Transaction} {claims : LimitPolicy}
    {manifest : AccessManifest} (bounded : Bounded transaction claims manifest) :
    ∃ body, Written (.transaction transaction claims (some manifest)) 1 body := by
  obtain ⟨bytes, encoded, decoded, manifestShort⟩ := bounded.encoded
  have program := bounded.program.trans (claims.value_le_ceiling 0)
  have arguments := bounded.arguments.trans (claims.value_le_ceiling 4)
  simp only [Storage.limitCeilings, List.getD_cons_zero, List.getD_cons_succ] at program arguments
  have budget := length_budget claims
  have shortProgram : transaction.programBytes.length < 2 ^ 32 := by omega
  have shortArguments : transaction.argumentBytes.length < 2 ^ 32 := by omega
  have shortManifest : bytes.length < 2 ^ 32 := by omega
  have short : (leBytes 2 1 ++ (leBytes 2 0 ++ (framed transaction.programBytes ++
      (framed transaction.argumentBytes ++ (framed bytes ++
        claims.values.flatMap (leBytes 8)))))).length + 72 ≤ 64 * 1024 * 1024 := by
    simp only [List.length_append, length_leBytes, length_framed, budget]
    omega
  have within : ¬ (transaction.programBytes.length > claims.value 0 ∨
      transaction.argumentBytes.length > claims.value 4) := by
    have := bounded.program
    have := bounded.arguments
    omega
  refine ⟨_, ?_, decode_of_read rfl short ?_, short, by norm_num, by norm_num⟩
  · simp only [encode, requireManifest, raise_ok, ok_bind, bounded.counted, encoded, blob,
      frameBytes_of_short _ shortProgram, frameBytes_of_short _ shortArguments,
      frameBytes_of_short _ shortManifest, pure_eq_ok, List.append_assoc]
  · have budgeted : readBudget (claims.values.flatMap (leBytes 8)) = .ok (claims, []) :=
      readBudget_eq_ok.mpr (List.append_nil _).symm
    simp only [readBody, readTransaction, readNat_append (show 0 < 256 ^ 2 by norm_num), ok_bind,
      ne_eq, not_true_eq_false, refuse_false, readFramed_append shortProgram,
      readFramed_append shortArguments, readFramed_append shortManifest, budgeted,
      refuse_of_not _ within, decoded, bounded.counted, pure_eq_ok, raise_ok]

/-- An operation that passes validation is recorded. -/
theorem operation_written {operation : CatalogueOperation}
    (fits : Representable (.catalogue operation))
    (valid : Vm.Database.validateCatalogue operation = .ok ()) :
    ∃ body, Written (.catalogue operation) 2 body := by
  have recorded {number : Nat} {fields : Bytes} (small : number < 256 ^ 1)
      (written : encodeOperation operation = .ok (leBytes 1 number ++ leBytes 1 0 ++ fields))
      (read : readOperation number fields = .ok (operation, []))
      (length : fields.length ≤ 1024 * 1024) : ∃ body, Written (.catalogue operation) 2 body := by
    have short : (leBytes 2 1 ++ (leBytes 1 number ++ (leBytes 1 0 ++ fields))).length + 72 ≤
        64 * 1024 * 1024 := by
      simp only [List.length_append, length_leBytes]
      omega
    refine ⟨_, ?_, decode_of_read rfl short ?_, short, by norm_num, by norm_num⟩
    · simp only [encode, valid, written, ok_bind, pure_eq_ok, List.append_assoc]
    · simp only [readBody, readCatalogue, readNat_append small,
        readNat_append (show 0 < 256 ^ 1 by norm_num), raise_ok, ok_bind, ne_eq,
        not_true_eq_false, refuse_false, read, valid, pure_eq_ok]
  cases operation with
  | create name key value =>
      obtain ⟨⟨⟩, named, valid⟩ := bind_eq_ok.mp valid
      obtain ⟨_, keyed, valid⟩ := bind_eq_ok.mp valid
      obtain ⟨_, valued, -⟩ := bind_eq_ok.mp valid
      rw [raise_eq_ok] at named
      obtain ⟨keyFormed, keyShort⟩ := schemaDescriptor_formed fits.1 keyed
      obtain ⟨valueFormed, valueShort⟩ := schemaDescriptor_formed fits.2 valued
      have nameShort := length_name named
      have nameRead := (@readName_eq_ok _ (framed key.descriptor ++ framed value.descriptor)
        name).mpr ⟨rfl, named⟩
      have keyRead := (@readType_eq_ok _ (framed value.descriptor) key).mpr
        ⟨rfl, keyFormed, keyShort⟩
      have valueRead := (@readType_eq_ok (framed value.descriptor) [] value).mpr
        ⟨(List.append_nil _).symm, valueFormed, valueShort⟩
      simp only [Vm.maxDescriptorBytes] at keyShort valueShort
      refine @recorded 1 (framed (textBytes name) ++ (framed key.descriptor ++
        framed value.descriptor)) (by norm_num) ?_ ?_ ?_
      · simp only [encodeOperation, blob, keyFormed.descriptorOrPanic,
          valueFormed.descriptorOrPanic,
          frameBytes_of_short _ (show (textBytes name).length < 2 ^ 32 by omega),
          frameBytes_of_short _ (show key.descriptor.length < 2 ^ 32 by omega),
          frameBytes_of_short _ (show value.descriptor.length < 2 ^ 32 by omega), raise_ok,
          ok_bind, pure_eq_ok, List.append_assoc]
      · simp only [readOperation, nameRead, keyRead, valueRead, ok_bind, pure_eq_ok]
      · simp only [List.length_append, length_framed]
        omega
  | rename table name =>
      obtain ⟨⟨⟩, -, named⟩ := bind_eq_ok.mp valid
      rw [raise_eq_ok] at named
      have nameShort := length_name named
      have small : table < 256 ^ 8 := fits
      have nameRead := (@readName_eq_ok (framed (textBytes name)) [] name).mpr
        ⟨(List.append_nil _).symm, named⟩
      refine @recorded 2 (leBytes 8 table ++ framed (textBytes name)) (by norm_num) ?_ ?_ ?_
      · simp only [encodeOperation, blob,
          frameBytes_of_short _ (show (textBytes name).length < 2 ^ 32 by omega), raise_ok,
          ok_bind, pure_eq_ok, List.append_assoc]
      · simp only [readOperation, readNat_append small, nameRead, ok_bind, pure_eq_ok]
      · simp only [List.length_append, length_framed, length_leBytes]
        omega
  | drop table =>
      have small : table < 256 ^ 8 := fits
      have read := (@readNat_eq_ok _ truncated 8 table (leBytes 8 table) []).mpr
        ⟨(List.append_nil _).symm, small⟩
      refine @recorded 3 (leBytes 8 table) (by norm_num) rfl ?_ (by simp)
      simp only [readOperation, read, ok_bind, pure_eq_ok]

theorem limits_written (policy : LimitPolicy) : ∃ body, Written (.limits policy) 3 body := by
  have budgeted : readBudget (policy.values.flatMap (leBytes 8)) = .ok (policy, []) :=
    readBudget_eq_ok.mpr (List.append_nil _).symm
  have length := length_budget policy
  have short : (leBytes 2 1 ++ (leBytes 2 0 ++ policy.values.flatMap (leBytes 8))).length + 72 ≤
      64 * 1024 * 1024 := by
    simp only [List.length_append, length_leBytes, length]
    norm_num
  refine ⟨_, ?_, decode_of_read rfl short ?_, short, by norm_num, fun _ => ?_⟩
  · simp only [encode, LimitPolicy.encode, pure_eq_ok, List.append_assoc]
  · simp only [readBody, readLimits, readNat_append (show 0 < 256 ^ 2 by norm_num), ok_bind, ne_eq,
      not_true_eq_false, refuse_false, budgeted, pure_eq_ok, raise_ok]
  · simp only [List.length_append, length_leBytes, length, policyLength]

/-- Every prepared command is recorded. -/
theorem prepare_written [Sha256] {view : View} {sequence : Nat} {command prepared : Command}
    (fits : Representable command) (accepted : prepare view sequence command = .ok prepared) :
    ∃ kind body, Written prepared kind body := by
  obtain ⟨⟨⟩, -, accepted⟩ := bind_eq_ok.mp accepted
  cases command with
  | transaction transaction claims manifest =>
      obtain ⟨⟨⟩, -, accepted⟩ := bind_eq_ok.mp accepted
      obtain ⟨_, bound, same⟩ := bind_eq_ok.mp accepted
      cases same
      exact ⟨1, (prepareTransaction_bounded fits bound).written⟩
  | catalogue operation =>
      obtain ⟨⟨⟩, valid, same⟩ := bind_eq_ok.mp accepted
      cases same
      exact ⟨2, operation_written fits valid⟩
  | limits policy =>
      cases accepted
      exact ⟨3, limits_written policy⟩

/-! ## Records -/

/-- The record codec.  Whatever preparation returns has a body that decodes to
it and an envelope under every unreserved sequence and every predecessor, and
log validation accepts the envelope under exactly these two.  Accepted records
are envelopes, and decoded bodies encode to the same bytes. -/
theorem records_round_trip [Sha256] [Crc32c] :
    (∀ (view : View) (position : Nat) (command prepared : Command), Representable command →
      prepare view position command = .ok prepared →
      ∃ kind body, encode prepared = .ok (kind, body) ∧ decode kind body = .ok prepared ∧
        ∀ (sequence : Nat) (predecessor : Digest), sequence ≠ 0 → sequence < maxU64 →
          ∃ bytes, envelope sequence predecessor kind body = .ok bytes ∧
            bytes.length ≤ maxRecordLength ∧
            ∀ (sequence' : Nat) (predecessor' : Digest) (accepted : Nat × Digest),
              Storage.Wal.validateRecord bytes bytes.length sequence' predecessor' = .ok accepted ↔
                sequence' = sequence ∧ predecessor' = predecessor ∧
                  accepted = (bytes.length, sha256 bytes)) ∧
    (∀ (bytes : Bytes) (sequence : Nat) (predecessor digest : Digest), sequence ≠ 0 →
      sequence ≠ maxU64 →
      Storage.Wal.validateRecord bytes bytes.length sequence predecessor =
        .ok (bytes.length, digest) →
      ∃ kind body, envelope sequence predecessor kind body = .ok bytes) ∧
    ∀ (kind : Nat) (body : Bytes) (command : Command), decode kind body = .ok command →
      encode command = .ok (kind, body) := by
  refine ⟨?_, ?_, fun _ _ _ => encode_of_decode⟩
  · intro view position command prepared fits accepted
    obtain ⟨kind, body, encoded, decoded, short, known, policy⟩ := prepare_written fits accepted
    refine ⟨kind, body, encoded, decoded, fun sequence predecessor positive below => ?_⟩
    have numbered : sequence < 2 ^ 64 := by
      unfold maxU64 at below
      omega
    have length := length_frame sequence predecessor kind body
    refine ⟨frame sequence predecessor kind body,
      envelope_eq_ok.mpr ⟨short, positive, below.ne, known, rfl⟩, length ▸ short, ?_⟩
    rintro sequence' predecessor' ⟨total, digest⟩
    constructor
    · intro valid
      obtain ⟨kind', body', rest, recorded, rfl, inside, whole, rfl⟩ := validateRecord_sound valid
      rw [← List.append_nil (frame sequence predecessor kind body)] at whole
      obtain ⟨⟨rfl, rfl, rfl, rfl⟩, -⟩ :=
        frame_append_inj ⟨numbered, known, short, policy⟩ recorded whole
      exact ⟨rfl, rfl, by rw [length]⟩
    · rintro ⟨rfl, rfl, same⟩
      rw [same]
      have valid := validateRecord_frame ⟨numbered, known, short, policy⟩ predecessor' []
        (le_refl (body.length + recordOverhead))
      rw [List.append_nil] at valid
      rw [length]
      exact valid
  · intro bytes sequence predecessor digest positive below valid
    obtain ⟨kind, body, rest, recorded, isLength, -, whole, -⟩ := validateRecord_sound valid
    have lengths := congrArg List.length whole
    rw [List.length_append, length_frame, isLength] at lengths
    have empty : rest = [] := List.eq_nil_of_length_eq_zero (by omega)
    rw [empty, List.append_nil] at whole
    exact ⟨kind, body,
      envelope_eq_ok.mpr ⟨recorded.short, positive, below, recorded.kinded, whole⟩⟩

namespace Sample

scoped instance : Crc32c := castagnoli

/-- A digest for records that are never hashed. -/
scoped instance : Sha256 := ⟨fun _ => (filled 32 0).1, fun _ => (filled 32 0).2⟩

/-- The limits of a small database. -/
def policy : LimitPolicy := Vm.Sample.claims

/-- The first record of a database that sets its limits again. -/
theorem limits_round_trip :
    ∃ kind body, encode (.limits policy) = .ok (kind, body) ∧
      decode kind body = .ok (.limits policy) ∧
      ∃ bytes, envelope 1 ⟨zeros 32, rfl⟩ kind body = .ok bytes ∧
        bytes.length ≤ maxRecordLength := by
  have accepted : prepare (Vm.genesisView policy) 1 (.limits policy) = .ok (.limits policy) := rfl
  obtain ⟨kind, body, encoded, decoded, framed⟩ :=
    records_round_trip.1 (Vm.genesisView policy) 1 _ _ (show Representable (.limits policy) from
      trivial) accepted
  obtain ⟨bytes, enveloped, short, -⟩ := framed 1 ⟨zeros 32, rfl⟩ (by decide) (by decide)
  exact ⟨kind, body, encoded, decoded, bytes, enveloped, short⟩

/-- A prepared command has no envelope under the reserved sequence zero. -/
theorem reserved_sequence_rejected :
    prepare (Vm.genesisView policy) 1 (.limits policy) = .ok (.limits policy) ∧
      encode (.limits policy) = .ok (3, policy.encode) ∧
      envelope 0 ⟨zeros 32, rfl⟩ 3 policy.encode =
        .error (.invalid "invalid log record sequence or kind") := by
  refine ⟨rfl, rfl, ?_⟩
  have short : ¬ policy.encode.length + recordOverhead > maxRecordLength := by
    rw [LimitPolicy.length_encode]
    decide
  simp only [envelope, refuse_of_not _ short, ok_bind]
  rfl

end Sample

end BlopDb.Engine.Record
