/-
# Verified programs run to an outcome

The tables of a program come from the catalogue, and the rows of a state decode
under their types.  Then a program that decodes never reaches a panic: its
registers are initialized and typed at every instruction of every run, and the
run ends within the instruction count with a success or an abort.
-/

import BlopDb.Vm.RuntimeSound

namespace BlopDb.Vm

open BlopDb.Lib
open Storage (View LimitPolicy maxU64)
open Storage.Mvcc (Uncorrupted StateKey valuePayload)
open Storage.Encoding (Schema)
open Program (Initialized Certificate Loaded Accepted)

/-- A table that the catalogue decoder returns. -/
def Table.Catalogued (table : Table) : Prop :=
  ∃ bytes version, Database.decodeCatalogue table.id bytes = .ok version ∧ version.table = table

theorem tableSchema_eq_ok {bytes : Bytes} {key : Bool} {schema : Schema}
    (decoded : Database.tableSchema bytes key = .ok schema) :
    Schema.decode bytes = .ok schema ∧ (key = true → schema.maxKeyBytes ≤ 1024) := by
  obtain ⟨schema', read, rest⟩ := bind_eq_ok.mp decoded
  obtain ⟨⟨⟩, short, same⟩ := bind_eq_ok.mp rest
  cases same
  rw [refuse_eq_ok] at short
  exact ⟨mapError_eq_ok.mp read, fun isKey => not_lt.mp fun long => short ⟨isKey, long⟩⟩

/-- A decoded catalogue value describes the columns of its table. -/
theorem decodeCatalogue_described {id : Nat} {bytes : Bytes} {version : CatalogueVersion}
    (decoded : Database.decodeCatalogue id bytes = .ok version) :
    version.table.id = id ∧ version.table.key.Described ∧ version.table.value.Described ∧
      (∃ schema, Schema.decode version.table.key.descriptor = .ok schema ∧ schema.maxKeyBytes ≤ 1024) ∧
      ∃ schema, Schema.decode version.table.value.descriptor = .ok schema := by
  simp only [Database.decodeCatalogue, bind_eq_ok, Prod.exists] at decoded
  obtain ⟨-, -, _, _, -, -, -, _, _, -, live, -, _, _, -, -, -, _, _, -, name, -, -, -, keyBytes, _,
    -, keySchema, keyed, key, keyType, valueBytes, _, -, valueSchema, valued, value, valueType, -, -,
    same⟩ := decoded
  cases same
  obtain ⟨schema, short⟩ := tableSchema_eq_ok keyed
  obtain ⟨schema', -⟩ := tableSchema_eq_ok valued
  obtain ⟨rfl, -, -⟩ := Ty.decode_sound keyType
  obtain ⟨rfl, -, -⟩ := Ty.decode_sound valueType
  exact ⟨rfl, .of_decode keyType, .of_decode valueType, ⟨keySchema, schema, short rfl⟩, valueSchema, schema'⟩

/-- A decoded catalogue value admits its table. -/
theorem decodeCatalogue_admitted {id : Nat} {bytes : Bytes} {version : CatalogueVersion}
    (decoded : Database.decodeCatalogue id bytes = .ok version) :
    version.table.id = id ∧ ∃ schema, version.table.Admitted schema := by
  obtain ⟨same, key, value, ⟨keySchema, schema, short⟩, -⟩ := decodeCatalogue_described decoded
  exact ⟨same, keySchema, ⟨key.formed, schema, short⟩, value.formed⟩

theorem Table.Catalogued.admitted {table : Table} (catalogued : table.Catalogued) :
    ∃ schema, table.Admitted schema := by
  obtain ⟨bytes, version, decoded, rfl⟩ := catalogued
  exact (decodeCatalogue_admitted decoded).2

theorem Table.Catalogued.described {table : Table} (catalogued : table.Catalogued) {ty : Ty}
    (column : ty = table.key ∨ ty = table.value) :
    ty.Described ∧ ∃ schema, Schema.decode ty.descriptor = .ok schema := by
  obtain ⟨bytes, version, decoded, rfl⟩ := catalogued
  obtain ⟨-, key, value, ⟨keySchema, schema, -⟩, valueSchema⟩ := decodeCatalogue_described decoded
  rcases column with rfl | rfl
  · exact ⟨key, keySchema, schema⟩
  · exact ⟨value, valueSchema⟩

/-- Every stored key and value of a table decodes under its types. -/
def StoredDecode (view : View) (table : Table) : Prop :=
  ∀ schema, Schema.decode table.key.descriptor = .ok schema →
    ∀ entry ∈ (view.roots .state).entries, ∀ key, StateKey.decode entry.1 = .ok key →
      key.tableId = table.id →
      (∃ encoded value, Storage.Encoding.decodeKey schema key.key = .ok encoded ∧
        decodeValue table.key encoded = .ok value) ∧
      ∀ bytes, valuePayload entry.2 = .ok (some bytes) →
        ∃ value, decodeValue table.value bytes = .ok value

namespace Runtime

/-- Rows that a read returns are stored rows, so they decode. -/
theorem rowsDecode_of_stored {view : View} {prior : Nat} {table : Table} {schema : Schema}
    (uncorrupted : Uncorrupted view) (snapshot : prior < maxU64)
    (valid : table.id ≠ 0 ∧ table.id < maxU64) (admitted : table.Admitted schema)
    (stored : StoredDecode view table) : RowsDecode view prior table schema := by
  refine ⟨⟨uncorrupted, valid.1, valid.2, snapshot⟩, fun key value row => ?_⟩
  obtain ⟨sequence, -, ⟨encoded, member, payload⟩, -⟩ :=
    (Storage.Mvcc.get_eq_some_iff uncorrupted valid.1 valid.2 snapshot).mp row
  obtain ⟨stateKey, -, keyValid, decoded, shape, -⟩ := uncorrupted.entry member
  obtain ⟨table', key', sequence'⟩ := stateKey
  obtain ⟨same, rfl, -⟩ := Storage.Mvcc.seekKey_inj valid.2.le keyValid.table_lt.le
    keyValid.sequence_lt shape
  obtain ⟨keys, values⟩ := stored schema admitted.key.decoded _ member _ decoded same.symm
  exact ⟨keys, values value payload⟩

/-- The registers an instruction reads. -/
def sources : Instruction → List Nat
  | .const _ _ | .arg _ _ | .jump _ | .abort _ => []
  | .move _ src | .unary _ _ src | .field _ src _ | .return src => [src]
  | .binary _ _ left right => [left, right]
  | .load _ _ key | .exists _ _ key | .delete _ key => [key]
  | .insert _ key value | .store _ key value => [key, value]
  | .scan _ _ lower upper _ _ _ => lower.toList ++ upper.toList
  | .slice _ src start length => [src, start, length]
  | .tuple _ fields => fields
  | .jumpIfFalse condition _ | .require condition _ => [condition]

section Sources

variable {program : Program} {initialized : Initialized}

theorem verifyFields_sources {types : List Ty} {fields : List Nat}
    (length : types.length = fields.length)
    (verified : program.verifyFields initialized types fields = .ok ()) :
    ∀ r ∈ fields, ∃ ty, program.source initialized r = .ok ty := by
  induction types generalizing fields with
  | nil =>
      cases fields with
      | nil => simp
      | cons => simp at length
  | cons ty types ih =>
      cases fields with
      | nil => simp
      | cons field fields =>
          obtain ⟨source, found, rest⟩ := bind_eq_ok.mp verified
          obtain ⟨⟨⟩, -, others⟩ := bind_eq_ok.mp rest
          intro r member
          rcases List.mem_cons.mp member with rfl | inRest
          · exact ⟨source, found⟩
          · exact ih (by simpa using length) others r inRest

theorem verifyEndpoint_sources {key : Ty} {position : Option Nat}
    (verified : program.verifyEndpoint initialized key position = .ok ()) :
    ∀ r ∈ position.toList, ∃ ty, program.source initialized r = .ok ty := by
  cases position with
  | none => simp
  | some position =>
      obtain ⟨ty, source, -⟩ := bind_eq_ok.mp verified
      intro r member
      obtain rfl : r = position := by simpa using member
      exact ⟨ty, source⟩

/-- Verification checks every register an instruction reads. -/
theorem verifyInstruction_sources {argumentTypes constantTypes : List Ty} {claims : LimitPolicy}
    {instruction : Instruction} {destination : Option Nat}
    (verified : program.verifyInstruction argumentTypes constantTypes claims initialized
      instruction = .ok destination) :
    ∀ r ∈ sources instruction, ∃ ty, program.source initialized r = .ok ty := by
  cases instruction with
  | const | arg | jump | abort => simp [sources]
  | move dst src =>
      obtain ⟨_, -, verified⟩ := bind_eq_ok.mp verified
      obtain ⟨ty, source, -⟩ := bind_eq_ok.mp verified
      simpa [sources] using ⟨ty, source⟩
  | unary op dst src =>
      obtain ⟨_, -, verified⟩ := bind_eq_ok.mp verified
      obtain ⟨ty, source, -⟩ := bind_eq_ok.mp verified
      simpa [sources] using ⟨ty, source⟩
  | binary op dst left right =>
      obtain ⟨_, -, verified⟩ := bind_eq_ok.mp verified
      obtain ⟨ty, source, verified⟩ := bind_eq_ok.mp verified
      obtain ⟨ty', source', -⟩ := bind_eq_ok.mp verified
      simpa [sources] using ⟨⟨ty, source⟩, ty', source'⟩
  | load dst table key =>
      obtain ⟨_, -, verified⟩ := bind_eq_ok.mp verified
      obtain ⟨ty, source, -⟩ := bind_eq_ok.mp verified
      simpa [sources] using ⟨ty, source⟩
  | «exists» dst table key =>
      obtain ⟨ty, source, -⟩ := bind_eq_ok.mp verified
      simpa [sources] using ⟨ty, source⟩
  | insert table key value | store table key value =>
      obtain ⟨_, -, verified⟩ := bind_eq_ok.mp verified
      obtain ⟨ty, source, verified⟩ := bind_eq_ok.mp verified
      obtain ⟨⟨⟩, -, verified⟩ := bind_eq_ok.mp verified
      obtain ⟨ty', source', -⟩ := bind_eq_ok.mp verified
      simpa [sources] using ⟨⟨ty, source⟩, ty', source'⟩
  | delete table key =>
      obtain ⟨_, -, verified⟩ := bind_eq_ok.mp verified
      obtain ⟨ty, source, -⟩ := bind_eq_ok.mp verified
      simpa [sources] using ⟨ty, source⟩
  | scan dst table lower upper flags rowLimit byteLimit =>
      obtain ⟨⟨⟩, -, verified⟩ := bind_eq_ok.mp verified
      obtain ⟨⟨⟩, -, verified⟩ := bind_eq_ok.mp verified
      obtain ⟨_, -, verified⟩ := bind_eq_ok.mp verified
      obtain ⟨own, -, verified⟩ := bind_eq_ok.mp verified
      cases own with
      | rows maximum key value =>
          obtain ⟨⟨⟩, -, verified⟩ := bind_eq_ok.mp verified
          obtain ⟨⟨⟩, -, verified⟩ := bind_eq_ok.mp verified
          obtain ⟨⟨⟩, lowers, verified⟩ := bind_eq_ok.mp verified
          obtain ⟨⟨⟩, uppers, -⟩ := bind_eq_ok.mp verified
          intro r member
          rcases List.mem_append.mp member with isLower | isUpper
          · exact verifyEndpoint_sources lowers r isLower
          · exact verifyEndpoint_sources uppers r isUpper
      | unit | boolean | i64 | u64 | bytes | string | tuple => cases verified
  | slice dst src start length =>
      obtain ⟨_, -, verified⟩ := bind_eq_ok.mp verified
      obtain ⟨⟨⟩, -, verified⟩ := bind_eq_ok.mp verified
      obtain ⟨ty, source, verified⟩ := bind_eq_ok.mp verified
      obtain ⟨⟨⟩, -, verified⟩ := bind_eq_ok.mp verified
      obtain ⟨ty', source', verified⟩ := bind_eq_ok.mp verified
      obtain ⟨⟨⟩, -, verified⟩ := bind_eq_ok.mp verified
      obtain ⟨ty'', source'', -⟩ := bind_eq_ok.mp verified
      simpa [sources] using ⟨⟨ty, source⟩, ⟨ty', source'⟩, ty'', source''⟩
  | tuple dst fields =>
      obtain ⟨own, -, verified⟩ := bind_eq_ok.mp verified
      cases own with
      | tuple types =>
          obtain ⟨⟨⟩, arity, verified⟩ := bind_eq_ok.mp verified
          obtain ⟨⟨⟩, checked, -⟩ := bind_eq_ok.mp verified
          rw [refuse_eq_ok, not_not] at arity
          exact verifyFields_sources arity checked
      | unit | boolean | i64 | u64 | bytes | string | rows => cases verified
  | field dst src position =>
      obtain ⟨ty, source, -⟩ := bind_eq_ok.mp verified
      simpa [sources] using ⟨ty, source⟩
  | jumpIfFalse condition target | require condition target =>
      obtain ⟨ty, source, -⟩ := bind_eq_ok.mp verified
      simpa [sources] using ⟨ty, source⟩
  | «return» src =>
      obtain ⟨ty, source, -⟩ := bind_eq_ok.mp verified
      simpa [sources] using ⟨ty, source⟩

end Sources

/-! ## Runs of verified programs -/

section Runs

variable [Sha256] {view : View} {prior : Nat} {program : Program} {claims : LimitPolicy}

/-- What holds at every instruction of a run: the counter is inside the program,
every register that is read or initialized holds a value its type accepts, and
the step does not panic and moves forward. -/
structure Progress (view : View) (prior : Nat) (program : Program) (claims : LimitPolicy)
    (machine : Machine) : Prop where
  read : ∃ instruction, program.instructions[machine.pc]? = some instruction ∧
    ∀ r ∈ sources instruction, ∃ ty value, program.registerTypes[r]? = some ty ∧
      machine.registers[r]? = some (some value) ∧ ty.accepts value = true
  typed : ∀ (r : Nat) (ty : Ty) (value : Value), program.registerTypes[r]? = some ty →
    machine.registers[r]? = some (some value) → ty.accepts value = true
  steps : step view prior program claims machine ≠ .error .panic
  forward : ∀ after, step view prior program claims machine = .ok (.next after) →
    machine.pc < after.pc

theorem reachable_progress {faulty : Prop} (runnable : Runnable faulty view prior program claims)
    {machine : Machine} (reachable : Reachable view prior program claims machine) :
    Progress view prior program claims machine := by
  obtain ⟨argumentTypes, constantTypes, facts, arguments, constants, certificate⟩ :=
    runnable.loaded.certified
  have sound := reachable_sound runnable arguments constants certificate reachable
  have found := List.getElem?_eq_getElem sound.pc
  have safe := step_safe runnable arguments constants certificate sound found
  refine ⟨⟨_, found, fun r member => ?_⟩, sound.typed.accepted, safe.ne_panic,
    fun after taken => (safe.of_ok taken).2⟩
  obtain ⟨destination, verified, -⟩ := certificate.verified _ _ found
  obtain ⟨ty, source⟩ := verifyInstruction_sources verified r member
  obtain ⟨value, held, accepted, -⟩ := sound.typed.source source
  obtain ⟨declared, register, same⟩ := bind_eq_ok.mp source
  obtain ⟨⟨⟩, -, same⟩ := bind_eq_ok.mp same
  cases same
  exact ⟨ty, value, register_eq_ok register, held, accepted⟩

/-- Verifier soundness.  A program that decodes over catalogued tables, on a
state whose stored keys and values decode, makes progress at every instruction
of its run and ends within the instruction count: with a value that the result
type accepts, or with an abort. -/
theorem decoded_program_runs {programBytes argumentBytes : Bytes} {tables : List Table}
    (decoded : Program.decode programBytes argumentBytes tables claims = .ok program)
    (catalogued : ∀ table ∈ tables, table.Catalogued) (uncorrupted : Uncorrupted view)
    (stored : ∀ table ∈ tables, StoredDecode view table) (snapshot : prior < maxU64) :
    (∀ machine, Reachable view prior program claims machine →
      Progress view prior program claims machine) ∧
    ∃ outcome, run view prior program claims = some (.ok outcome) ∧
      ∀ resultType value effects, outcome = .success resultType value effects →
        resultType = program.resultType ∧ program.resultType.accepts value = true := by
  obtain ⟨loaded, rfl⟩ := Program.decode_loaded decoded
  have runnable : Runnable False view prior program claims := by
    refine ⟨loaded, fun table member => ?_⟩
    obtain ⟨schema, admitted⟩ := (catalogued table member).admitted
    exact ⟨schema, admitted, fun _ => rowsDecode_of_stored uncorrupted snapshot
      (loaded.tables table member) admitted (stored table member)⟩
  refine ⟨fun machine reachable => reachable_progress runnable reachable, ?_⟩
  obtain ⟨result, ran, safe⟩ := run_safe runnable
  match result, safe with
  | .ok outcome, sound =>
      refine ⟨outcome, ran, fun resultType value effects same => ?_⟩
      subst same
      exact ⟨sound.1, sound.2.1⟩

end Runs

end Runtime

/-! ## A sample program -/

namespace Sample

/-- A digest for programs that never hash. -/
scoped instance : Sha256 := ⟨fun _ => List.replicate 32 0, fun _ => rfl⟩

/-- A table from integers to integers. -/
def table : Table := ⟨1, .u64, .u64⟩

/-- Claims of a small transaction. -/
def claims : LimitPolicy :=
  ⟨[1048576, 1024, 1024, 64, 1048576, 64, 64, 1024, 1024, 1024, 1048576, 8388608, 1024, 8388608,
    1024, 8388608, 1048576], rfl, by decide⟩

/-- Store the constant five under itself in the table and return it. -/
def programBytes : Bytes :=
  Program.magic ++ leBytes 2 1 ++ leBytes 2 0 ++ leBytes 4 97 ++ leBytes 2 1 ++ leBytes 2 0 ++
    leBytes 2 1 ++ leBytes 2 1 ++ leBytes 4 3 ++ leBytes 4 0 ++
    leBytes 4 3 ++ Ty.u64.descriptor ++ leBytes 8 1 ++ leBytes 4 3 ++ Ty.u64.descriptor ++
    leBytes 4 3 ++ Ty.u64.descriptor ++ leBytes 4 8 ++ leBytes 8 5 ++
    [0x01, 0, 4, 0, 0, 0, 0, 0] ++ [0x43, 0, 6, 0, 0, 0, 0, 0, 0, 0] ++ [0x64, 0, 2, 0, 0, 0]

/-- No arguments. -/
def argumentBytes : Bytes := leBytes 4 0

/-- The decoded program. -/
def program : Program :=
  ⟨.u64, [table], [], [.u64], [.u64 5], [.const 0 0, .store 0 0 0, .return 0]⟩

/-- A state with one row of the table. -/
def view : View :=
  ⟨fun
    | .state => (∅ : Storage.Tree).insert (StateKey.encode ⟨1, beBytes 8 7, 2⟩)
        (1 :: (leBytes 4 8 ++ leBytes 8 9))
    | _ => ∅⟩

theorem program_decoded :
    Program.decode programBytes argumentBytes [table] claims = .ok program := by
  rfl

/-- The catalogue value that created the table under the name `t`. -/
def catalogueBytes : Bytes :=
  leBytes 2 1 ++ [1, 0] ++ leBytes 4 1 ++ [116] ++ leBytes 4 3 ++ Ty.u64.descriptor ++
    leBytes 4 3 ++ Ty.u64.descriptor

theorem catalogue_decoded :
    Database.decodeCatalogue 1 catalogueBytes = .ok ⟨true, "t", table⟩ := by
  rfl

theorem entries_view : (view.roots .state).entries =
    [(StateKey.encode ⟨1, beBytes 8 7, 2⟩, 1 :: (leBytes 4 8 ++ leBytes 8 9))] := by
  rfl

theorem stateKey_decoded :
    StateKey.decode (StateKey.encode ⟨1, beBytes 8 7, 2⟩) = .ok ⟨1, beBytes 8 7, 2⟩ := by
  rfl

theorem view_uncorrupted : Uncorrupted view := by
  intro entry member
  rw [entries_view, List.mem_singleton] at member
  subst member
  exact ⟨⟨_, stateKey_decoded⟩, some (leBytes 8 9), rfl⟩

theorem view_stored : StoredDecode view table := by
  intro schema decoded entry member key decodedKey _
  rw [entries_view, List.mem_singleton] at member
  subst member
  rw [stateKey_decoded] at decodedKey
  cases decodedKey
  cases decoded
  refine ⟨⟨leBytes 8 7, .u64 7, rfl, rfl⟩, fun bytes payload => ?_⟩
  cases payload
  exact ⟨.u64 9, rfl⟩

/-- The sample program runs on the sample state. -/
theorem store_constant_runs :
    (∀ machine, Runtime.Reachable view 2 program claims machine →
      Runtime.Progress view 2 program claims machine) ∧
    ∃ outcome, Runtime.run view 2 program claims = some (.ok outcome) ∧
      ∀ resultType value effects, outcome = .success resultType value effects →
        resultType = program.resultType ∧ program.resultType.accepts value = true := by
  refine Runtime.decoded_program_runs program_decoded ?_ view_uncorrupted ?_ (by decide)
  · intro other member
    obtain rfl : other = table := List.mem_singleton.mp member
    exact ⟨catalogueBytes, _, catalogue_decoded, rfl⟩
  · intro other member
    obtain rfl : other = table := List.mem_singleton.mp member
    exact view_stored

end Sample

end BlopDb.Vm
