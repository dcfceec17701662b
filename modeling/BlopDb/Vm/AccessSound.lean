/-
# Soundness of derived access scopes

The analysis is related to runs by one invariant: a register that is known on
entry to an instruction holds the known value in every machine that reaches it.
Along a run the scope declared for an access then covers the address the access
computes, and a validated manifest covers every address that is consulted or
written.
-/

import BlopDb.Vm.AccessCover
import BlopDb.Vm.RuntimeStep
import BlopDb.Vm.VerifierSound

namespace BlopDb.Vm.AccessAnalysis

open BlopDb.Lib
open Storage (View LimitPolicy)
open Storage.Encoding (Schema)
open Program (Certificate)

/-! ## Known registers -/

/-- Every known register holds its known value. -/
def Agrees (known : Known) (registers : List (Option Value)) : Prop :=
  ∀ r value, known.find? r = some value → registers[r]? = some (some value)

theorem agrees_empty (registers : List (Option Value)) : Agrees ∅ registers := by
  intro r value found
  cases found

theorem find?_filter {map : Known} {test : Nat × Value → Bool} {r : Nat} {value : Value}
    (found : (map.filter test).find? r = some value) :
    map.find? r = some value ∧ test (r, value) = true := by
  have member := OrdMap.mem_filter.mp (OrdMap.find?_eq_some.mp found)
  exact ⟨OrdMap.find?_eq_some.mpr member.1, member.2⟩

theorem agrees_join_left (current incoming : Known) (registers : List (Option Value))
    (agrees : Agrees current registers) : Agrees (join current incoming) registers := by
  intro r value found
  exact agrees r value (find?_filter found).1

theorem agrees_join_right (current incoming : Known) (registers : List (Option Value))
    (agrees : Agrees incoming registers) : Agrees (join current incoming) registers := by
  intro r value found
  exact agrees r value (by simpa using (find?_filter found).2)

theorem Agrees.insert {known : Known} {registers : List (Option Value)}
    (agrees : Agrees known registers) {dst : Nat} (inside : dst < registers.length)
    (value : Value) : Agrees (known.insert dst value) (registers.set dst (some value)) := by
  intro r other found
  rw [OrdMap.find?_insert] at found
  by_cases same : dst = r
  · subst same
    rw [if_pos rfl] at found
    cases found
    simp [inside]
  · rw [if_neg same] at found
    rw [List.getElem?_set_ne same]
    exact agrees r other found

theorem Agrees.erase {known : Known} {registers : List (Option Value)}
    (agrees : Agrees known registers) (dst : Nat) (value : Value) :
    Agrees (known.erase dst) (registers.set dst (some value)) := by
  intro r other found
  rw [OrdMap.find?_erase] at found
  by_cases same : dst = r
  · rw [if_pos same] at found
    cases found
  · rw [if_neg same] at found
    rw [List.getElem?_set_ne same]
    exact agrees r other found

/-! ## Known values are computed values -/

section Values

variable {view : View} {prior : Nat} {program : Program} {claims : LimitPolicy}
variable {known : Known} {registers : List (Option Value)} {overlay : Overlay}
variable {usage usage' : Runtime.Usage}

theorem Agrees.register (agrees : Agrees known registers) {r : Nat} {value held : Value}
    (found : known.find? r = some value) (read : Runtime.register registers r = .ok held) :
    held = value := by
  have same := (Runtime.register_some read).symm.trans (agrees r value found)
  simpa using same

theorem ofOperation_eq_some {result : Operations.Result Value} {value : Value}
    (known : ofOperation result = .ok (some value)) : result = .ok value := by
  unfold ofOperation at known
  split at known <;> cases known
  rfl

theorem operation_eq_ok {result : Operations.Result Value} {value : Value}
    (ran : Runtime.operation result = .ok value) : result = .ok value := by
  unfold Runtime.operation at ran
  split at ran <;> cases ran
  rfl

theorem Agrees.fields (agrees : Agrees known registers) {fields : List Nat} {values held : List Value}
    (found : knownFields known fields = .ok values)
    (read : Runtime.fieldValues registers fields = .ok held) : held = values := by
  induction fields generalizing values held with
  | nil =>
      cases found
      cases read
      rfl
  | cons field fields ih =>
      obtain ⟨value, first, read⟩ := bind_eq_ok.mp read
      obtain ⟨rest, others, same⟩ := bind_eq_ok.mp read
      cases same
      unfold knownFields at found
      cases known? : known.find? field with
      | none => simp [known?] at found
      | some value' =>
          rw [known?] at found
          obtain ⟨rest', knownRest, same⟩ := bind_eq_ok.mp found
          cases same
          rw [agrees.register known? first, ih knownRest others]

/-- A value that the analysis evaluates is the value that the machine computes. -/
theorem Agrees.evaluate [Sha256] (agrees : Agrees known registers) {instruction : Instruction} {dst : Nat}
    {value value' : Value} (evaluated : evaluate instruction program known = .ok (some value))
    (computed : Runtime.compute view prior program claims registers overlay usage instruction =
      .ok (dst, value', usage')) : value' = value := by
  cases instruction with
  | const dst constant | arg dst constant =>
      obtain ⟨found, read, same⟩ := bind_eq_ok.mp evaluated
      cases same
      obtain ⟨found', read', same⟩ := bind_eq_ok.mp computed
      cases same
      exact Option.some.inj ((index_eq_ok.mp read').symm.trans (index_eq_ok.mp read))
  | move dst src =>
      obtain ⟨held, read, same⟩ := bind_eq_ok.mp computed
      cases same
      exact agrees.register (Except.ok.inj evaluated) read
  | binary op dst left right =>
      obtain ⟨first, readFirst, computed⟩ := bind_eq_ok.mp computed
      obtain ⟨second, readSecond, computed⟩ := bind_eq_ok.mp computed
      obtain ⟨ty, typed, computed⟩ := bind_eq_ok.mp computed
      obtain ⟨result, ran, same⟩ := bind_eq_ok.mp computed
      cases same
      simp only [AccessAnalysis.evaluate] at evaluated
      cases knownFirst : known.find? left with
      | none => simp [knownFirst] at evaluated
      | some first' =>
          cases knownSecond : known.find? right with
          | none => simp [knownFirst, knownSecond] at evaluated
          | some second' =>
              simp only [knownFirst, knownSecond] at evaluated
              obtain ⟨ty', typed', evaluated⟩ := bind_eq_ok.mp evaluated
              obtain rfl := Option.some.inj ((index_eq_ok.mp typed').symm.trans (index_eq_ok.mp typed))
              rw [← agrees.register knownFirst readFirst, ← agrees.register knownSecond readSecond]
                at evaluated
              exact Except.ok.inj ((operation_eq_ok ran).symm.trans (ofOperation_eq_some evaluated))
  | unary op dst src =>
      obtain ⟨source, read, computed⟩ := bind_eq_ok.mp computed
      obtain ⟨result, ran, same⟩ := bind_eq_ok.mp computed
      cases same
      simp only [AccessAnalysis.evaluate] at evaluated
      cases knownSource : known.find? src with
      | none => simp [knownSource] at evaluated
      | some source' =>
          simp only [knownSource] at evaluated
          rw [← agrees.register knownSource read] at evaluated
          exact Except.ok.inj ((operation_eq_ok ran).symm.trans (ofOperation_eq_some evaluated))
  | slice dst src start length =>
      obtain ⟨source, readSource, computed⟩ := bind_eq_ok.mp computed
      obtain ⟨first, readFirst, computed⟩ := bind_eq_ok.mp computed
      obtain ⟨size, readSize, computed⟩ := bind_eq_ok.mp computed
      obtain ⟨result, ran, same⟩ := bind_eq_ok.mp computed
      cases same
      simp only [AccessAnalysis.evaluate] at evaluated
      cases knownSource : known.find? src with
      | none => simp [knownSource] at evaluated
      | some source' =>
          cases knownFirst : known.find? start with
          | none => simp [knownSource, knownFirst] at evaluated
          | some first' =>
              cases knownSize : known.find? length with
              | none => simp [knownSource, knownFirst, knownSize] at evaluated
              | some size' =>
                  simp only [knownSource, knownFirst, knownSize] at evaluated
                  rw [← agrees.register knownSource readSource,
                    ← agrees.register knownFirst readFirst,
                    ← agrees.register knownSize readSize] at evaluated
                  exact Except.ok.inj
                    ((operation_eq_ok ran).symm.trans (ofOperation_eq_some evaluated))
  | tuple dst fields =>
      obtain ⟨ty, typed, builds⟩ := bind_eq_ok.mp evaluated
      obtain ⟨ty', typed', computed⟩ := bind_eq_ok.mp computed
      obtain rfl := Option.some.inj ((index_eq_ok.mp typed').symm.trans (index_eq_ok.mp typed))
      cases ty' with
      | tuple types =>
          obtain ⟨⟨⟩, -, computed⟩ := bind_eq_ok.mp computed
          obtain ⟨held, read, same⟩ := bind_eq_ok.mp computed
          cases same
          simp only at builds
          split at builds
          · obtain ⟨values, found, same⟩ := bind_eq_ok.mp builds
            cases same
            rw [agrees.fields found read]
          · cases builds
      | _ => cases computed
  | field dst src field =>
      obtain ⟨held, read, computed⟩ := bind_eq_ok.mp computed
      simp only [AccessAnalysis.evaluate] at evaluated
      cases knownSource : known.find? src with
      | none => simp [knownSource] at evaluated
      | some source =>
          obtain rfl := agrees.register knownSource read
          simp only [knownSource] at evaluated
          cases held with
          | tuple fields =>
              obtain ⟨found, element, same⟩ := bind_eq_ok.mp evaluated
              cases same
              obtain ⟨found', element', same⟩ := bind_eq_ok.mp computed
              cases same
              exact Option.some.inj ((index_eq_ok.mp element').symm.trans (index_eq_ok.mp element))
          | _ => cases computed
  | _ => cases evaluated

end Values

/-! ## The table of known registers -/

/-- What a successful analysis establishes: the registers known on entry to each
instruction, closed under every step, and the declared accesses. -/
structure Analysis [Sha256] (program : Program) (schemas : List Schema)
    (entries : List (Scope × AccessMode)) (facts : Nat → Known) : Prop where
  start : ∀ registers, Agrees (facts 0) registers
  visited : ∀ pc instruction, program.instructions[pc]? = some instruction →
    ∃ declared out, declareAccess program schemas (facts pc) instruction = .ok declared ∧
      (∀ entry ∈ declared, entry ∈ entries) ∧
      learn program (facts pc) instruction = .ok out ∧
      ∀ target, instruction.exit.Edge pc target → target < program.instructions.length →
        ∀ registers, Agrees out registers → Agrees (facts target) registers

section Runs

variable [Sha256] {view : View} {prior : Nat} {program : Program} {claims : LimitPolicy}
variable {argumentTypes constantTypes : List Ty} {initialized : Nat → Program.Initialized}
variable {schemas : List Schema} {entries : List (Scope × AccessMode)} {facts : Nat → Known}
variable {required : AccessManifest}

/-- Derivation succeeds only with such a table. -/
theorem derive_analysis
    (certificate : Certificate program argumentTypes constantTypes claims initialized)
    (derived : derive program = .ok required) :
    ∃ schemas entries facts, keySchemas program.tables = .ok schemas ∧
      AccessManifest.new entries = .ok required ∧ Analysis program schemas entries facts := by
  obtain ⟨schemas, read, derived⟩ := bind_eq_ok.mp derived
  obtain ⟨final, ran, normalized⟩ := bind_eq_ok.mp derived
  have : Nonempty Known := ⟨∅⟩
  obtain ⟨facts, entry, -, visited⟩ := flow_sound agrees_join_left agrees_join_right
    (Nat.zero_add program.instructions.length)
    (fun k instruction found _ _ _ _ => by
      rw [Nat.zero_add]
      obtain ⟨_, -, edges⟩ := certificate.verified k instruction found
      exact Exit.forward_of_edges fun target edge => ⟨(edges target edge).1, (edges target edge).2.1⟩) ran
  refine ⟨schemas, final.acc, facts, read, raise_eq_ok.mp normalized, ?_, ?_⟩
  · intro registers
    exact entry ∅ registers rfl (List.ne_nil_of_length_pos certificate.nonempty)
      (agrees_empty registers)
  · intro pc instruction found
    obtain ⟨acc, out, acc', visit, survives, edges⟩ := (visited pc instruction found).visited
    rw [Nat.zero_add] at visit edges
    obtain ⟨declared, declares, visit⟩ := bind_eq_ok.mp visit
    obtain ⟨learned, learns, same⟩ := bind_eq_ok.mp visit
    cases same
    refine ⟨declared, out, declares, ?_, learns, ?_⟩
    · intro entry member
      apply survives (entry ∈ ·) ?_ (List.mem_append_right _ member)
      intro _ _ _ _ _ _ visits before
      obtain ⟨_, -, visits⟩ := bind_eq_ok.mp visits
      obtain ⟨_, -, same⟩ := bind_eq_ok.mp visits
      cases same
      exact List.mem_append_left _ before
    · intro target edge inside registers agrees
      exact (edges target edge).2 registers agrees inside

/-- What the analysis learns of a step holds after it. -/
theorem Agrees.learn {known out : Known} {machine after : Runtime.Machine}
    {instruction : Instruction} (agrees : Agrees known machine.registers)
    (length : machine.registers.length = program.registerTypes.length)
    (learned : AccessAnalysis.learn program known instruction = .ok out)
    (moves : Runtime.Moves view prior program claims machine instruction after) :
    Agrees out after.registers := by
  unfold AccessAnalysis.learn at learned
  cases moves with
  | @assigns dst value usage ty computed declared accepted registers overlay =>
      rw [Runtime.compute_destination computed] at learned
      obtain ⟨evaluated, evaluates, learned⟩ := bind_eq_ok.mp learned
      have inside : dst < machine.registers.length := by
        rw [length]
        exact (List.getElem?_eq_some_iff.mp declared).1
      rw [registers]
      cases evaluated with
      | none =>
          cases learned
          exact agrees.erase dst value
      | some known' =>
          obtain rfl := agrees.evaluate evaluates computed
          obtain ⟨ty', declared', same⟩ := bind_eq_ok.mp learned
          obtain rfl := Option.some.inj ((index_eq_ok.mp declared').symm.trans declared)
          rw [accepted, if_pos rfl] at same
          cases same
          exact agrees.insert inside value
  | writes undefined _ registers _ | passes undefined registers _ =>
      rw [undefined] at learned
      cases learned
      rw [registers]
      exact agrees

/-- Known registers hold their values in every machine of a run. -/
theorem reachable_agrees
    (certificate : Certificate program argumentTypes constantTypes claims initialized)
    (analysis : Analysis program schemas entries facts) {machine : Runtime.Machine}
    (reachable : Runtime.Reachable view prior program claims machine) :
    machine.registers.length = program.registerTypes.length ∧
      Agrees (facts machine.pc) machine.registers := by
  induction reachable with
  | start => exact ⟨by simp [Runtime.initial], analysis.start _⟩
  | @step machine after _ taken ih =>
      obtain ⟨length, agrees⟩ := ih
      obtain ⟨instruction, found, edge, moves⟩ := Runtime.step_next taken
      obtain ⟨_, out, -, -, learned, edges⟩ := analysis.visited machine.pc instruction found
      obtain ⟨_, -, forward⟩ := certificate.verified machine.pc instruction found
      constructor
      · cases moves with
        | assigns _ _ _ registers _ => rw [registers, List.length_set, length]
        | writes _ _ registers _ | passes _ registers _ => rw [registers, length]
      · exact edges after.pc edge (forward after.pc edge).2.1 after.registers
          (agrees.learn length learned moves)

end Runs

/-! ## Declared scopes cover accesses -/

section Covers

variable {program : Program} {claims : LimitPolicy} {known : Known} {schemas : List Schema}
variable {instruction : Instruction} {declared : List (Scope × AccessMode)}
variable {position : Nat} {mode : AccessMode} {bit : Nat}

theorem keySchemas_decode {tables : List Table} (read : keySchemas tables = .ok schemas)
    {table : Table} (found : tables[position]? = some table) :
    ∃ schema, schemas[position]? = some schema ∧
      Schema.decode table.key.descriptor = .ok schema := by
  induction tables generalizing schemas position with
  | nil => simp at found
  | cons first tables ih =>
      obtain ⟨descriptor, described, read⟩ := bind_eq_ok.mp read
      obtain ⟨schema, decoded, read⟩ := bind_eq_ok.mp read
      obtain ⟨others, readRest, same⟩ := bind_eq_ok.mp read
      cases same
      cases position with
      | zero =>
          cases found
          unfold Ty.descriptorOrPanic at described
          split at described <;> cases described
          exact ⟨schema, rfl, raise_eq_ok.mp decoded⟩
      | succ position =>
          obtain ⟨schema', found', decoded'⟩ := ih readRest (by simpa using found)
          exact ⟨schema', by simpa using found', decoded'⟩

/-- A canonical key is the encoded key under the table's schema. -/
theorem canonicalKey_eq_ok {table : Table} {value : Value} {key : Bytes} {schema : Schema}
    (canonical : Runtime.canonicalKey table value claims = .ok key)
    (decoded : Schema.decode table.key.descriptor = .ok schema) :
    ∃ encoded, (value.encodeOrPanic : Except (Fault Error) Bytes) = .ok encoded ∧
      Storage.Encoding.encodeKey schema encoded = .ok key := by
  obtain ⟨⟨⟩, -, canonical⟩ := bind_eq_ok.mp canonical
  obtain ⟨descriptor, described, canonical⟩ := bind_eq_ok.mp canonical
  obtain ⟨schema', decoded', canonical⟩ := bind_eq_ok.mp canonical
  obtain ⟨encoded, written, canonical⟩ := bind_eq_ok.mp canonical
  obtain ⟨key', keyed, canonical⟩ := bind_eq_ok.mp canonical
  obtain ⟨⟨⟩, -, same⟩ := bind_eq_ok.mp canonical
  cases same
  unfold Ty.descriptorOrPanic at described
  split at described <;> cases described
  obtain rfl := Except.ok.inj ((raise_eq_ok.mp decoded').symm.trans decoded)
  refine ⟨encoded, ?_, raise_eq_ok.mp keyed⟩
  unfold Value.encodeOrPanic at written ⊢
  split at written <;> cases written
  rename_i fits
  exact if_pos fits

/-- The declared scope of a point access grants its mode on the address that the
access computes. -/
theorem declareAccess_grants {key : Nat} {registers : List (Option Value)} {address : Address}
    (read : keySchemas program.tables = .ok schemas) (agrees : Agrees known registers)
    (declares : declareAccess program schemas known instruction = .ok declared)
    (accesses : access instruction = some (position, some key, mode))
    (addresses : Runtime.Addresses program claims registers position key address)
    (set : mode.bits.testBit bit = true) :
    Grants declared bit (.key address.table address.key) := by
  obtain ⟨table, value, found, held, canonical, named⟩ := addresses.addressed
  obtain ⟨schema, schemed, decoded⟩ := keySchemas_decode read found
  obtain ⟨encoded, written, keyed⟩ := canonicalKey_eq_ok canonical decoded
  simp only [declareAccess, accesses, index_eq_ok.mpr found, index_eq_ok.mpr schemed, ok_bind]
    at declares
  obtain ⟨key', known', declares⟩ := bind_eq_ok.mp declares
  cases key' with
  | none =>
      cases declares
      apply Grants.key
      exact ⟨_, List.mem_singleton_self _, .inl (by rw [named]), set⟩
  | some bytes =>
      cases declares
      unfold knownKey at known'
      cases holds : known.find? key with
      | none => simp [holds] at known'
      | some value' =>
          have same := (agrees key value' holds).symm.trans held
          simp only [Option.some.injEq] at same
          subst same
          simp only [holds, written, keyed, ok_bind, Except.toOption, pure_eq_ok, Except.ok.injEq,
            Option.some.injEq] at known'
          exact ⟨_, List.mem_singleton_self _, .inl (by rw [named, known']), set⟩

/-- The declared scope of a scan grants its mode on every key of the table. -/
theorem declareAccess_grants_table {table : Table}
    (declares : declareAccess program schemas known instruction = .ok declared)
    (accesses : access instruction = some (position, none, mode))
    (found : program.tables[position]? = some table) (set : mode.bits.testBit bit = true)
    (key : Bytes) : Grants declared bit (.key table.id key) := by
  simp only [declareAccess, accesses, index_eq_ok.mpr found, ok_bind] at declares
  obtain ⟨schema, -, declares⟩ := bind_eq_ok.mp declares
  cases declares
  apply Grants.key
  exact ⟨_, List.mem_singleton_self _, .inl rfl, set⟩

end Covers

/-! ## Validated manifests cover runs -/

section Manifests

variable [Sha256] {view : View} {prior : Nat} {program : Program} {claims : LimitPolicy}
variable {manifest required : AccessManifest} {machine : Runtime.Machine}

/-- Every address that a machine of a run consults or writes is granted by a
validated manifest. -/
theorem reachable_grants (loaded : program.Loaded claims)
    (derived : derive program = .ok required)
    (valid : Access.validate manifest required program.tables claims = .ok ())
    (reachable : Runtime.Reachable view prior program claims machine) :
    (∀ address, Runtime.Consults program claims machine address →
      Grants manifest.entries 0 (.key address.table address.key)) ∧
    ∀ address, Runtime.Writes program claims machine address →
      Grants manifest.entries 1 (.key address.table address.key) := by
  obtain ⟨_, _, _, -, -, certificate⟩ := loaded.certified
  obtain ⟨schemas, entries, facts, read, normalized, analysis⟩ :=
    derive_analysis certificate derived
  obtain ⟨-, agrees⟩ := reachable_agrees certificate analysis reachable
  have lift {bit : Nat} {scope : Scope} (granted : Grants entries bit scope) :
      Grants manifest.entries bit scope :=
    Access.validate_grants valid (AccessManifest.new_grants normalized granted)
  have point {instruction : Instruction} {position key bit : Nat} {mode : AccessMode}
      {address : Address} (found : program.instructions[machine.pc]? = some instruction)
      (accesses : access instruction = some (position, some key, mode))
      (set : mode.bits.testBit bit = true)
      (addresses : Runtime.Addresses program claims machine.registers position key address) :
      Grants manifest.entries bit (.key address.table address.key) := by
    obtain ⟨declared, out, declares, listed, -⟩ := analysis.visited machine.pc instruction found
    exact lift ((declareAccess_grants read agrees declares accesses addresses set).mono listed)
  constructor
  · intro address consults
    cases consults with
    | load found addresses => exact point found rfl rfl addresses
    | «exists» found addresses => exact point found rfl rfl addresses
    | insert found addresses => exact point found rfl rfl addresses
    | @scan dst position flags rowLimit byteLimit lower upper table key found tabled =>
        obtain ⟨declared, out, declares, listed, -⟩ := analysis.visited machine.pc _ found
        exact lift ((declareAccess_grants_table declares rfl tabled rfl key).mono listed)
  · intro address writes
    cases writes with
    | insert found addresses => exact point found rfl rfl addresses
    | store found addresses => exact point found rfl rfl addresses
    | delete found addresses => exact point found rfl rfl addresses

/-- A step changes private writes only at the addresses it writes. -/
theorem overlay_of_moves {instruction : Instruction} {after : Runtime.Machine}
    (moves : Runtime.Moves view prior program claims machine instruction after) {address : Address}
    (changed : after.overlay.find? address ≠ machine.overlay.find? address) :
    Runtime.Writes program claims machine address := by
  cases moves with
  | assigns _ _ _ _ overlay | passes _ _ overlay =>
      rw [overlay] at changed
      exact absurd rfl changed
  | @writes written _ _ writes _ overlay =>
      by_cases same : written = address
      · rw [← same]
        exact writes
      · rw [overlay, OrdMap.find?_insert_of_ne _ _ same] at changed
        exact absurd rfl changed

/-- Access-scope soundness.  At every instruction of every run of a decoded
program, a manifest that validates against the derived one covers each base
address that is consulted by a read scope, and each private address that is
written by a write scope; the step changes private writes nowhere else. -/
theorem manifest_covers_run {programBytes argumentBytes : Bytes} {tables : List Table}
    (decoded : Program.decode programBytes argumentBytes tables claims = .ok program)
    (derived : derive program = .ok required)
    (valid : Access.validate manifest required program.tables claims = .ok ()) (view : View)
    (prior : Nat) :
    ∀ machine, Runtime.Reachable view prior program claims machine →
      (∀ address, Runtime.Consults program claims machine address →
        AccessManifest.Covered manifest.reads address) ∧
      (∀ address, Runtime.Writes program claims machine address →
        AccessManifest.Covered manifest.writes address) ∧
      ∀ after, Runtime.step view prior program claims machine = .ok (.next after) →
        ∀ address, after.overlay.find? address ≠ machine.overlay.find? address →
          AccessManifest.Covered manifest.writes address := by
  intro machine reachable
  obtain ⟨consulted, written⟩ :=
    reachable_grants (Program.decode_loaded decoded).1 derived valid reachable
  refine ⟨?_, ?_, ?_⟩
  · intro address consults
    exact covered_reads (consulted address consults)
  · intro address writes
    exact covered_writes (written address writes)
  · intro after taken address changed
    obtain ⟨instruction, -, -, moves⟩ := Runtime.step_next taken
    exact covered_writes (written address (overlay_of_moves moves changed))

end Manifests

end BlopDb.Vm.AccessAnalysis

namespace BlopDb.Vm.Sample

open BlopDb.Lib

/-- The sample program writes the point five and reads nothing. -/
def manifest : AccessManifest := ⟨[(.key 1 (beBytes 8 5), .write)]⟩

theorem program_derived : AccessAnalysis.derive program = .ok manifest := by
  decide +kernel

/-- The derived manifest covers the runs of the sample program. -/
theorem store_constant_covered :
    AccessAnalysis.derive program = .ok manifest ∧
      ∀ machine, Runtime.Reachable view 2 program claims machine →
        (∀ address, Runtime.Consults program claims machine address →
          AccessManifest.Covered manifest.reads address) ∧
        (∀ address, Runtime.Writes program claims machine address →
          AccessManifest.Covered manifest.writes address) ∧
        ∀ after, Runtime.step view 2 program claims machine = .ok (.next after) →
          ∀ address, after.overlay.find? address ≠ machine.overlay.find? address →
            AccessManifest.Covered manifest.writes address :=
  ⟨program_derived, AccessAnalysis.manifest_covers_run program_decoded program_derived rfl view 2⟩

end BlopDb.Vm.Sample
