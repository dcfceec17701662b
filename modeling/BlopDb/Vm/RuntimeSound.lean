/-
# Soundness of verification

A machine is sound when its registers hold what verification promised, its
charges are exact and within the claims, and its private writes come from write
instructions.  Every instruction of a verified program keeps a sound machine
sound, moves forward, and fails only as outcome validation allows.
-/

import BlopDb.Vm.RuntimeSafe

namespace BlopDb.Vm.Runtime

open BlopDb.Lib
open Storage (View LimitPolicy maxU64)
open Storage.Encoding (Schema)
open History (legalAbort writeTarget)
open Program (Initialized Certificate Loaded Accepted markInitialized)

/-! ## Registers -/

/-- Registers as verification promises them: those marked as initialized hold a
value, and every held value is accepted by its register's type. -/
structure Typed (program : Program) (claims : LimitPolicy) (initialized : Initialized)
    (registers : List (Option Value)) : Prop where
  length : registers.length = program.registerTypes.length
  accepted : ∀ (r : Nat) (ty : Ty) (value : Value), program.registerTypes[r]? = some ty →
    registers[r]? = some (some value) → ty.accepts value = true
  short : ∀ (r : Nat) (value : Value), registers[r]? = some (some value) → value.encodedLen ≤ claims.value 10
  initialized : ∀ r, initialized r = true → ∃ value, registers[r]? = some (some value)

section Registers

variable {program : Program} {claims : LimitPolicy} {initialized : Initialized}
variable {registers : List (Option Value)}

theorem register_eq_ok {r : Nat} {ty : Ty} (found : program.register r = .ok ty) :
    program.registerTypes[r]? = some ty := by
  unfold Program.register Program.at? at found
  cases element : program.registerTypes[r]? with
  | none => simp [element] at found
  | some other => simpa [element] using found

theorem at?_eq_ok {α : Type} {pool : List α} {position : Nat} {reason : String} {element : α}
    (found : Program.at? pool position reason = .ok element) : pool[position]? = some element := by
  unfold Program.at? at found
  cases present : pool[position]? with
  | none => simp [present] at found
  | some other => simpa [present] using found

theorem table_eq_ok {position : Nat} {table : Table} (found : program.table position = .ok table) :
    program.tables[position]? = some table := at?_eq_ok found

/-- A register that verification accepts as a source holds an accepted value. -/
theorem Typed.source (typed : Typed program claims initialized registers) {r : Nat} {ty : Ty}
    (found : program.source initialized r = .ok ty) :
    ∃ value, registers[r]? = some (some value) ∧ ty.accepts value = true ∧
      value.encodedLen ≤ claims.value 10 := by
  obtain ⟨declared, type, rest⟩ := bind_eq_ok.mp found
  obtain ⟨⟨⟩, marked, same⟩ := bind_eq_ok.mp rest
  cases same
  rw [refuse_eq_ok, Bool.not_eq_false] at marked
  obtain ⟨value, held⟩ := typed.initialized r marked
  exact ⟨value, held, typed.accepted r ty value (register_eq_ok type) held,
    typed.short r value held⟩

/-- Assigning an accepted value initializes a register. -/
theorem Typed.assign (typed : Typed program claims initialized registers) {dst : Nat} {ty : Ty}
    {value : Value} (declared : program.registerTypes[dst]? = some ty)
    (accepted : ty.accepts value = true) (short : value.encodedLen ≤ claims.value 10) :
    Typed program claims (markInitialized initialized (some dst))
      (registers.set dst (some value)) := by
  have inside : dst < registers.length := by
    rw [typed.length]
    exact (List.getElem?_eq_some_iff.mp declared).1
  refine ⟨by simp [typed.length], fun r ty' other declared' held => ?_, fun r other held => ?_,
    fun r marked => ?_⟩
  · rw [List.getElem?_set] at held
    split at held
    next same =>
      subst same
      rw [declared] at declared'
      simp only [Option.some.injEq] at held declared'
      exact held ▸ declared' ▸ accepted
    next => exact typed.accepted r ty' other declared' held
  · rw [List.getElem?_set] at held
    split at held
    next same =>
      simp only [Option.some.injEq] at held
      exact held ▸ short
    next => exact typed.short r other held
  · by_cases same : r = dst
    · exact ⟨value, by simp [same, inside]⟩
    · have marked : initialized r = true := by
        simpa [markInitialized, Function.update_of_ne same] using marked
      obtain ⟨other, held⟩ := typed.initialized r marked
      exact ⟨other, by rw [List.getElem?_set_ne (Ne.symm same)]; exact held⟩

/-- Fewer promises hold as well. -/
theorem Typed.mono (typed : Typed program claims initialized registers) {fewer : Initialized}
    (weaker : ∀ r, fewer r = true → initialized r = true) :
    Typed program claims fewer registers :=
  ⟨typed.length, typed.accepted, typed.short, fun r marked => typed.initialized r (weaker r marked)⟩

end Registers

/-! ## Private writes -/

/-- A private write comes from a write instruction of its table and kind, has a
canonical key and stores an accepted value. -/
structure Written (program : Program) (claims : LimitPolicy) (entry : Address × Option Bytes) :
    Prop where
  key_le : entry.1.key.length ≤ claims.value 9
  source : ∃ position table instruction, program.tables[position]? = some table ∧
    table.id = entry.1.table ∧ instruction ∈ program.instructions ∧
    writeTarget instruction = some (position, entry.2.isNone) ∧
    (∃ key, table.key.accepts key = true ∧ entry.1.key = key.keyBytes) ∧
    Stores claims table.value entry.2

/-- Private writes with exact charges, each charged as a point access. -/
structure Overlaid (program : Program) (claims : LimitPolicy) (overlay : Overlay)
    (usage : Usage) : Prop where
  charged : Charged claims overlay usage
  points : overlay.size ≤ usage.pointAccesses
  addresses : ∀ entry ∈ overlay.entries, (usage.addresses.find? entry.1).isSome
  written : ∀ entry ∈ overlay.entries, Written program claims entry

section Writes

variable {program : Program} {claims : LimitPolicy} {overlay : Overlay} {usage after : Usage}

theorem Overlaid.extend (overlaid : Overlaid program claims overlay usage)
    (extended : usage.Extends after) : Overlaid program claims overlay after := by
  obtain ⟨⟨bytes, bytes_le, size_le⟩, points, addresses, written⟩ := overlaid
  refine ⟨⟨?_, ?_, size_le⟩, points.trans extended.pointAccesses,
    fun entry member => extended.addresses _ (addresses entry member), written⟩
  · rw [extended.overlayBytes, bytes]
  · rw [extended.overlayBytes]
    exact bytes_le

/-- Every private write has an address of its own among the charged ones. -/
theorem Overlaid.size_le_addresses (overlaid : Overlaid program claims overlay usage) :
    overlay.size ≤ usage.addresses.size := by
  have nodup : (overlay.entries.map Prod.fst).Nodup := by
    rw [List.Nodup, List.pairwise_map]
    exact overlay.increasing.imp fun less => less.ne
  have subset : overlay.entries.map Prod.fst ⊆ usage.addresses.entries.map Prod.fst := by
    intro address member
    obtain ⟨entry, inside, rfl⟩ := List.mem_map.mp member
    obtain ⟨_, found⟩ := Option.isSome_iff_exists.mp (overlaid.addresses entry inside)
    exact List.mem_map.mpr ⟨_, OrdMap.find?_eq_some.mp found, rfl⟩
  simpa [OrdMap.size] using (nodup.subperm subset).length_le

/-- A charged write keeps the private writes exact. -/
theorem Overlaid.insert (overlaid : Overlaid program claims overlay usage) {address : Address}
    {stored : Option Bytes} {overlay' : Overlay} (change : overlay' = overlay.insert address stored)
    (charged : Charged claims overlay' after) (point : usage.pointAccesses + 1 ≤ after.pointAccesses)
    (addresses : ∀ other, (usage.addresses.find? other).isSome →
      (after.addresses.find? other).isSome)
    (present : (after.addresses.find? address).isSome)
    (written : Written program claims (address, stored)) :
    Overlaid program claims overlay' after := by
  have entries {entry : Address × Option Bytes} (member : entry ∈ overlay'.entries) :
      entry = (address, stored) ∨ entry ∈ overlay.entries := by
    subst change
    exact mem_insertEntry member
  refine ⟨charged, ?_, fun entry member => ?_, fun entry member => ?_⟩
  · have before := overlaid.points
    have grown := OrdMap.size_insert overlay address stored
    rw [← change] at grown
    split at grown <;> omega
  · rcases entries member with rfl | old
    · exact present
    · exact addresses _ (overlaid.addresses entry old)
  · rcases entries member with rfl | old
    · exact written
    · exact overlaid.written entry old

end Writes

/-! ## Sound machines -/

/-- The rows of a table that a read at a sequence can return decode. -/
structure RowsDecode (view : View) (prior : Nat) (table : Table) (schema : Schema) : Prop where
  intact : Database.Intact view table.id prior
  rows : ∀ key value, Database.BaseRow view table.id prior key value →
    RowDecodes table schema key value

/-- A program as it is run: loaded, with admitted tables whose rows decode
unless the state is faulty. -/
structure Runnable (faulty : Prop) (view : View) (prior : Nat) (program : Program)
    (claims : LimitPolicy) : Prop where
  loaded : program.Loaded claims
  tables : ∀ table ∈ program.tables, ∃ schema, table.Admitted schema ∧
    (¬ faulty → RowsDecode view prior table schema)

/-- The invariant between two instructions. -/
structure Sound (program : Program) (claims : LimitPolicy) (facts : Nat → Initialized)
    (machine : Machine) : Prop where
  pc : machine.pc < program.instructions.length
  typed : Typed program claims (facts machine.pc) machine.registers
  held : machine.usage.registerBytes = totalHeld machine.registers
  held_le : machine.usage.registerBytes ≤ claims.value 11
  within : machine.usage.Within claims
  overlaid : Overlaid program claims machine.overlay machine.usage

section Instructions

variable {faulty : Prop} {view : View} {prior : Nat} {program : Program}
variable {claims : LimitPolicy} {initialized : Initialized} {registers : List (Option Value)}
variable {overlay : Overlay} {usage : Usage} {instruction : Instruction}

theorem Typed.register_safe (typed : Typed program claims initialized registers) {r : Nat} {ty : Ty}
    (found : program.source initialized r = .ok ty) :
    Safe (register registers r)
      (fun value => ty.accepts value = true ∧ value.encodedLen ≤ claims.value 10)
      (Allowed faulty instruction) := by
  obtain ⟨value, held, accepted, short⟩ := typed.source found
  refine (Runtime.register_safe held).weaken ?_
  rintro _ rfl
  exact ⟨accepted, short⟩

/-- Verified tuple fields are initialized and can be checked and collected. -/
theorem Typed.fields_safe (typed : Typed program claims initialized registers) {types : List Ty}
    {fields : List Nat} (length : types.length = fields.length)
    (verified : program.verifyFields initialized types fields = .ok ()) :
    Safe (boundFields registers fields types) (fun _ => True) (Allowed faulty instruction) ∧
      Safe (fieldValues registers fields) (fun _ => True) (Allowed faulty instruction) := by
  induction types generalizing fields with
  | nil =>
      cases fields with
      | nil => exact ⟨trivial, trivial⟩
      | cons => simp at length
  | cons ty types ih =>
      cases fields with
      | nil => simp at length
      | cons field fields =>
          obtain ⟨source, found, rest⟩ := bind_eq_ok.mp verified
          obtain ⟨⟨⟩, -, others⟩ := bind_eq_ok.mp rest
          obtain ⟨bounds, values⟩ := ih (by simpa using length) others
          refine ⟨?_, ?_⟩
          · exact Safe.bind (typed.register_safe found) fun value _ =>
              Safe.bind (bound_safe ty value) fun _ _ => bounds
          · exact Safe.bind (typed.register_safe found) fun _ _ =>
              Safe.bind values fun _ _ => Safe.ret trivial

theorem Typed.optional_safe (typed : Typed program claims initialized registers) {key : Ty}
    {position : Option Nat} (verified : program.verifyEndpoint initialized key position = .ok ()) :
    Safe (optionalRegister registers position) (fun _ => True) (Allowed faulty instruction) := by
  cases position with
  | none => trivial
  | some position =>
      obtain ⟨ty, source, -⟩ := bind_eq_ok.mp verified
      exact Safe.bind (typed.register_safe source) fun _ _ => Safe.ret trivial

theorem acceptsFields_accepted {types : List Ty} {values : List Value}
    (accepted : Ty.acceptsFields types values = true) : Accepted types values := by
  induction types generalizing values with
  | nil =>
      cases values with
      | nil => exact .nil
      | cons => simp [Ty.acceptsFields] at accepted
  | cons ty types ih =>
      cases values with
      | nil => simp [Ty.acceptsFields] at accepted
      | cons value values =>
          simp only [Ty.acceptsFields, Bool.and_eq_true] at accepted
          exact .cons accepted.1 (ih accepted.2)

/-- The table and canonical key of a point access, after its charge. -/
theorem keyed_safe (runnable : Runnable faulty view prior program claims)
    (typed : Typed program claims initialized registers) (within : usage.Within claims)
    {table : Table} (member : table ∈ program.tables) {key : Nat} {ty : Ty}
    (found : program.source initialized key = .ok ty) {α : Type} {post : α → Prop}
    {next : Bytes → Usage → EvalResult α}
    (continues : ∀ schema value after, table.Admitted schema →
      (¬ faulty → RowsDecode view prior table schema) → table.key.accepts value = true →
      value.keyBytes.length ≤ claims.value 9 → usage.Extends after → after.Within claims →
      after.pointAccesses = usage.pointAccesses + 1 →
      (after.addresses.find? ⟨table.id, value.keyBytes⟩).isSome →
      Safe (next value.keyBytes after) post (Allowed faulty instruction)) :
    Safe (do
      let key ← canonicalKey table (← register registers key) claims
      let usage ← point usage claims ⟨table.id, key⟩
      next key usage) post (Allowed faulty instruction) := by
  obtain ⟨schema, admitted, rows⟩ := runnable.tables table member
  refine Safe.bind (typed.register_safe found) fun value _ => ?_
  refine Safe.bind (canonicalKey_safe admitted value) ?_
  rintro _ ⟨accepted, rfl, short⟩
  refine Safe.bind (point_safe within _) ?_
  rintro after ⟨extended, bounded, counted, present⟩
  exact continues schema value after admitted rows accepted short extended bounded counted present

/-- A merged point read fails only in a faulty state, and returns a value that
decodes unless the state is faulty. -/
theorem get_safe {table : Table} {schema : Schema} (admitted : table.Admitted schema)
    (rows : ¬ faulty → RowsDecode view prior table schema)
    (written : ∀ entry ∈ overlay.entries, entry.1.table = table.id →
      ∀ bytes, entry.2 = some bytes → ∃ value, decodeValue table.value bytes = .ok value)
    {value : Value} (accepted : table.key.accepts value = true) :
    Safe (reading (Database.get view table.id value.keyBytes prior overlay))
      (fun found => ∀ bytes, found = some bytes → ¬ faulty →
        ∃ value, decodeValue table.value bytes = .ok value) (Allowed faulty instruction) := by
  have short := admitted.key.length_keyBytes accepted
  unfold Database.get
  cases found : overlay.find? ⟨table.id, value.keyBytes⟩ with
  | some stored =>
      refine Safe.ok fun bytes same _ => ?_
      exact written _ (OrdMap.find?_eq_some.mp found) rfl bytes same
  | none =>
      refine reading_safe (fun result returned bytes same sound => ?_) fun error failed => ?_
      · have base : Storage.Mvcc.get view table.id value.keyBytes prior = .ok result := by
          cases read : Storage.Mvcc.get view table.id value.keyBytes prior with
          | ok other => simpa [read, Except.mapError] using returned
          | error error => simp [read, Except.mapError] at returned
        rw [same] at base
        exact ((rows sound).rows _ _ base).2
      · by_contra sound
        obtain ⟨uncorrupted, positive, bounded, snapshot⟩ := (rows sound).intact
        obtain ⟨result, read, -⟩ := Storage.Mvcc.get_selects uncorrupted
          ⟨positive, bounded, snapshot, short⟩
        simp [read, Except.mapError] at failed

/-- The tables of a loaded program are determined by their identities. -/
theorem eq_of_same_id (loaded : program.Loaded claims) {left right : Table}
    (hleft : left ∈ program.tables) (hright : right ∈ program.tables) (same : left.id = right.id) :
    left = right :=
  List.inj_on_of_nodup_map loaded.distinct hleft hright same

/-- Private writes decode like stored rows. -/
theorem Overlaid.decodes (overlaid : Overlaid program claims overlay usage)
    (loaded : program.Loaded claims) {table : Table} (member : table ∈ program.tables)
    {schema : Schema} (admitted : table.Admitted schema) {entry : Address × Option Bytes}
    (inside : entry ∈ overlay.entries) (same : entry.1.table = table.id) :
    entry.1.key.length ≤ Storage.Encoding.maxKeyBytes ∧
      ∀ bytes, entry.2 = some bytes → RowDecodes table schema entry.1.key bytes := by
  obtain ⟨-, position, table', -, found, id, -, -, ⟨key, accepted, canonical⟩, stores⟩ :=
    overlaid.written entry inside
  obtain rfl : table' = table :=
    eq_of_same_id loaded (List.mem_of_getElem? found) member (id.trans same)
  rw [canonical]
  refine ⟨admitted.key.length_keyBytes accepted, fun bytes put => ⟨?_, ?_⟩⟩
  · exact ⟨key.encode, key, admitted.key.decodeKey accepted,
      decodeValue_encode admitted.key.formed accepted⟩
  · obtain ⟨-, value, accepted', rfl⟩ := stores bytes put
    exact ⟨value, decodeValue_encode admitted.value accepted'⟩

theorem Overlaid.values_decode (overlaid : Overlaid program claims overlay usage)
    (loaded : program.Loaded claims) {table : Table} (member : table ∈ program.tables)
    {schema : Schema} (admitted : table.Admitted schema) (entry : Address × Option Bytes)
    (inside : entry ∈ overlay.entries) (same : entry.1.table = table.id) (bytes : Bytes)
    (put : entry.2 = some bytes) : ∃ value, decodeValue table.value bytes = .ok value :=
  ((overlaid.decodes loaded member admitted inside same).2 bytes put).2

/-- A verified instruction with a destination computes a value for it. -/
theorem compute_safe [Sha256] (runnable : Runnable faulty view prior program claims)
    {argumentTypes constantTypes : List Ty} (arguments : Accepted argumentTypes program.arguments)
    (constants : Accepted constantTypes program.constants)
    (typed : Typed program claims initialized registers) (within : usage.Within claims)
    (overlaid : Overlaid program claims overlay usage) {dst : Nat}
    (assigns : AccessAnalysis.destination instruction = some dst) {destination : Option Nat}
    (verified : program.verifyInstruction argumentTypes constantTypes claims initialized
      instruction = .ok destination) :
    Safe (compute view prior program claims registers overlay usage instruction)
      (fun result => result.1 = dst ∧ destination = some dst ∧
        (∃ ty, program.registerTypes[dst]? = some ty) ∧ usage.Extends result.2.2 ∧
        result.2.2.Within claims)
      (Allowed faulty instruction) := by
  have unchanged := Usage.Extends.refl usage
  cases instruction with
  | insert | store | delete | jump | jumpIfFalse | require | abort | «return» => cases assigns
  | const target constant =>
      cases assigns
      obtain ⟨ty, declared, verified⟩ := bind_eq_ok.mp verified
      obtain ⟨own, register, verified⟩ := bind_eq_ok.mp verified
      obtain ⟨⟨⟩, -, same⟩ := bind_eq_ok.mp verified
      cases same
      obtain ⟨value, found, -⟩ := constants.get (at?_eq_ok declared)
      exact Safe.bind_index found
        (Safe.ret ⟨rfl, rfl, ⟨own, register_eq_ok register⟩, unchanged, within⟩)
  | arg target argument =>
      cases assigns
      obtain ⟨ty, declared, verified⟩ := bind_eq_ok.mp verified
      obtain ⟨own, register, verified⟩ := bind_eq_ok.mp verified
      obtain ⟨⟨⟩, -, same⟩ := bind_eq_ok.mp verified
      cases same
      obtain ⟨value, found, -⟩ := arguments.get (at?_eq_ok declared)
      exact Safe.bind_index found
        (Safe.ret ⟨rfl, rfl, ⟨own, register_eq_ok register⟩, unchanged, within⟩)
  | move target src =>
      cases assigns
      obtain ⟨own, register, verified⟩ := bind_eq_ok.mp verified
      obtain ⟨ty, source, verified⟩ := bind_eq_ok.mp verified
      obtain ⟨⟨⟩, -, same⟩ := bind_eq_ok.mp verified
      cases same
      exact Safe.bind (typed.register_safe source) fun _ _ =>
        Safe.ret ⟨rfl, rfl, ⟨own, register_eq_ok register⟩, unchanged, within⟩
  | binary op target left right =>
      cases assigns
      obtain ⟨own, register, verified⟩ := bind_eq_ok.mp verified
      obtain ⟨leftType, sourceLeft, verified⟩ := bind_eq_ok.mp verified
      obtain ⟨rightType, sourceRight, verified⟩ := bind_eq_ok.mp verified
      obtain ⟨⟨⟩, shapes, same⟩ := bind_eq_ok.mp verified
      cases same
      refine Safe.bind (typed.register_safe sourceLeft) fun a ⟨acceptsLeft, _⟩ => ?_
      refine Safe.bind (typed.register_safe sourceRight) fun b ⟨acceptsRight, _⟩ => ?_
      refine Safe.bind_index (register_eq_ok register) ?_
      exact Safe.bind (operation_safe
        (Operations.binary_safe dst left right shapes acceptsLeft acceptsRight)) fun _ _ =>
        Safe.ret ⟨rfl, rfl, ⟨own, register_eq_ok register⟩, unchanged, within⟩
  | unary op target src =>
      cases assigns
      obtain ⟨own, register, verified⟩ := bind_eq_ok.mp verified
      obtain ⟨ty, source, verified⟩ := bind_eq_ok.mp verified
      obtain ⟨⟨⟩, shapes, same⟩ := bind_eq_ok.mp verified
      cases same
      refine Safe.bind (typed.register_safe source) fun value ⟨accepted, _⟩ => ?_
      exact Safe.bind (operation_safe (Operations.unary_safe dst src shapes accepted)) fun _ _ =>
        Safe.ret ⟨rfl, rfl, ⟨own, register_eq_ok register⟩, unchanged, within⟩
  | slice target src start length =>
      cases assigns
      obtain ⟨own, register, verified⟩ := bind_eq_ok.mp verified
      obtain ⟨⟨⟩, -, verified⟩ := bind_eq_ok.mp verified
      obtain ⟨sourceType, source, verified⟩ := bind_eq_ok.mp verified
      obtain ⟨⟨⟩, shape, verified⟩ := bind_eq_ok.mp verified
      obtain ⟨startType, starts, verified⟩ := bind_eq_ok.mp verified
      obtain ⟨⟨⟩, startShape, verified⟩ := bind_eq_ok.mp verified
      obtain ⟨lengthType, lengths, verified⟩ := bind_eq_ok.mp verified
      obtain ⟨⟨⟩, lengthShape, same⟩ := bind_eq_ok.mp verified
      cases same
      refine Safe.bind (typed.register_safe source) fun a ⟨acceptsSource, _⟩ => ?_
      refine Safe.bind (typed.register_safe starts) fun b ⟨acceptsStart, _⟩ => ?_
      refine Safe.bind (typed.register_safe lengths) fun c ⟨acceptsLength, _⟩ => ?_
      have sliced := Operations.slice_safe
        ((head_of_accepts acceptsSource).trans (head_of_sameShape shape))
        ((head_of_accepts acceptsStart).trans (head_of_sameShape startShape))
        ((head_of_accepts acceptsLength).trans (head_of_sameShape lengthShape))
      refine Safe.bind (operation_safe (sliced.mono (fun _ => id) fun reason same => ?_)) fun _ _ =>
        Safe.ret ⟨rfl, rfl, ⟨own, register_eq_ok register⟩, unchanged, within⟩
      exact same ▸ ⟨rfl, by decide, by decide⟩
  | tuple target fields =>
      cases assigns
      obtain ⟨own, register, verified⟩ := bind_eq_ok.mp verified
      cases own with
      | tuple types =>
          obtain ⟨⟨⟩, arity, verified⟩ := bind_eq_ok.mp verified
          obtain ⟨⟨⟩, checked, same⟩ := bind_eq_ok.mp verified
          cases same
          rw [refuse_eq_ok, not_not] at arity
          obtain ⟨bounds, values⟩ := typed.fields_safe arity checked
          refine Safe.bind_index (register_eq_ok register) ?_
          exact Safe.bind bounds fun _ _ => Safe.bind values fun _ _ =>
            Safe.ret ⟨rfl, rfl, ⟨_, register_eq_ok register⟩, unchanged, within⟩
      | unit | boolean | i64 | u64 | bytes | string | rows => cases verified
  | field target src position =>
      cases assigns
      obtain ⟨sourceType, source, verified⟩ := bind_eq_ok.mp verified
      cases sourceType with
      | tuple types =>
          obtain ⟨ty, declared, verified⟩ := bind_eq_ok.mp verified
          obtain ⟨own, register, verified⟩ := bind_eq_ok.mp verified
          obtain ⟨⟨⟩, -, same⟩ := bind_eq_ok.mp verified
          cases same
          refine Safe.bind (typed.register_safe source) fun value ⟨accepted, _⟩ => ?_
          obtain ⟨values, rfl⟩ := Value.of_head_tuple (head_of_accepts accepted)
          have fields : Accepted types values := acceptsFields_accepted (by simpa [Ty.accepts] using accepted)
          obtain ⟨field, found, -⟩ := fields.get (at?_eq_ok declared)
          exact Safe.bind_index found
            (Safe.ret ⟨rfl, rfl, ⟨own, register_eq_ok register⟩, unchanged, within⟩)
      | unit | boolean | i64 | u64 | bytes | string | rows => cases verified
  | load target position key =>
      cases assigns
      obtain ⟨table, tabled, verified⟩ := bind_eq_ok.mp verified
      obtain ⟨keyType, source, verified⟩ := bind_eq_ok.mp verified
      obtain ⟨⟨⟩, -, verified⟩ := bind_eq_ok.mp verified
      obtain ⟨own, register, verified⟩ := bind_eq_ok.mp verified
      obtain ⟨⟨⟩, -, same⟩ := bind_eq_ok.mp verified
      cases same
      have tabled := table_eq_ok tabled
      have member := List.mem_of_getElem? tabled
      refine Safe.bind_index tabled (keyed_safe runnable typed within member source ?_)
      intro schema value after admitted rows accepted _ extended bounded _ _
      refine Safe.bind (get_safe admitted rows
        (overlaid.values_decode runnable.loaded member admitted) accepted) fun found decodes => ?_
      cases found with
      | none => exact abort_safe ⟨rfl, by decide, by decide⟩
      | some bytes =>
          exact Safe.bind (loaded_safe (decodes bytes rfl)) fun _ _ =>
            Safe.ret ⟨rfl, rfl, ⟨own, register_eq_ok register⟩, extended, bounded⟩
  | «exists» target position key =>
      cases assigns
      obtain ⟨keyType, source, verified⟩ := bind_eq_ok.mp verified
      obtain ⟨table, tabled, verified⟩ := bind_eq_ok.mp verified
      obtain ⟨⟨⟩, -, verified⟩ := bind_eq_ok.mp verified
      obtain ⟨own, register, verified⟩ := bind_eq_ok.mp verified
      obtain ⟨⟨⟩, -, same⟩ := bind_eq_ok.mp verified
      cases same
      have tabled := table_eq_ok tabled
      have member := List.mem_of_getElem? tabled
      refine Safe.bind_index tabled (keyed_safe runnable typed within member source ?_)
      intro schema value after admitted rows accepted _ extended bounded _ _
      exact Safe.bind (get_safe admitted rows
        (overlaid.values_decode runnable.loaded member admitted) accepted) fun _ _ =>
        Safe.ret ⟨rfl, rfl, ⟨own, register_eq_ok register⟩, extended, bounded⟩
  | scan target position lower upper flags rowLimit byteLimit =>
      cases assigns
      obtain ⟨⟨⟩, -, verified⟩ := bind_eq_ok.mp verified
      obtain ⟨⟨⟩, limited, verified⟩ := bind_eq_ok.mp verified
      obtain ⟨table, tabled, verified⟩ := bind_eq_ok.mp verified
      obtain ⟨own, register, verified⟩ := bind_eq_ok.mp verified
      have tabled := table_eq_ok tabled
      have member := List.mem_of_getElem? tabled
      obtain ⟨schema, admitted, rows⟩ := runnable.tables table member
      cases own with
      | rows maximum keyType valueType =>
          obtain ⟨⟨⟩, -, verified⟩ := bind_eq_ok.mp verified
          obtain ⟨⟨⟩, -, verified⟩ := bind_eq_ok.mp verified
          obtain ⟨⟨⟩, lowerVerified, verified⟩ := bind_eq_ok.mp verified
          obtain ⟨⟨⟩, upperVerified, same⟩ := bind_eq_ok.mp verified
          cases same
          rw [refuse_eq_ok, not_lt] at limited
          refine Safe.bind_index tabled ?_
          refine Safe.bind (typed.optional_safe lowerVerified) fun lowerValue _ => ?_
          refine Safe.bind (typed.optional_safe upperVerified) fun upperValue _ => ?_
          refine Safe.bind (scan_safe admitted (runnable.loaded.tables table member)
            (fun sound => ⟨(rows sound).intact, (rows sound).rows⟩)
            (fun entry inside same => overlaid.decodes runnable.loaded member admitted inside same)
            within lowerValue upperValue flags rowLimit limited) ?_
          rintro result ⟨extended, bounded⟩
          exact Safe.ret ⟨rfl, rfl, ⟨_, register_eq_ok register⟩, extended, bounded⟩
      | unit | boolean | i64 | u64 | bytes | string | tuple => cases verified

/-- A charged write instruction keeps the private writes exact. -/
theorem writing_safe {after : Usage} (overlaid : Overlaid program claims overlay usage)
    (within : after.Within claims) (extended : usage.Extends after)
    (counted : after.pointAccesses = usage.pointAccesses + 1) {position : Nat} {table : Table}
    {schema : Schema} (tabled : program.tables[position]? = some table)
    (admitted : table.Admitted schema) (member : instruction ∈ program.instructions)
    {key : Value} (accepted : table.key.accepts key = true)
    (short : key.keyBytes.length ≤ claims.value 9)
    (present : (after.addresses.find? ⟨table.id, key.keyBytes⟩).isSome) {value : Option Value}
    (target : writeTarget instruction = some (position, value.isNone)) :
    Safe (write overlay after claims table key.keyBytes value)
      (fun result => Overlaid program claims result.1 result.2 ∧ result.2.Within claims ∧
        result.2.registerBytes = usage.registerBytes)
      (Allowed faulty instruction) := by
  have before := (overlaid.extend extended).charged
  refine (write_safe before admitted.value (admitted.key.length_keyBytes accepted)).weaken ?_
  rintro ⟨overlay', usage'⟩ ⟨stored, same, stores, change, update, charged⟩
  simp only at change update charged ⊢
  subst update
  have kind : stored.isNone = value.isNone := by
    cases stored <;> cases value <;> simp_all
  refine ⟨overlaid.insert change charged (by simp [counted]) extended.addresses present ?_, ?_,
    extended.registerBytes⟩
  · exact ⟨short, position, table, instruction, tabled, rfl, member, by rw [target, kind],
      ⟨key, accepted, rfl⟩, stores⟩
  · exact ⟨within.instructions, within.pointAccesses, within.addresses, within.rangeRows,
      within.rangeBytes⟩

/-- What a step of a sound machine leads to. -/
def StepSound (program : Program) (claims : LimitPolicy) (facts : Nat → Initialized)
    (machine : Machine) : Step → Prop
  | .next after => Sound program claims facts after ∧ machine.pc < after.pc
  | .return value overlay =>
      program.resultType.accepts value = true ∧ value.encodedLen ≤ claims.value 16 ∧
        value.encodedLen ≤ claims.value 10 ∧
        ∃ usage : Usage, Overlaid program claims overlay usage ∧ usage.Within claims

end Instructions

section Steps

variable [Sha256] {faulty : Prop} {view : View} {prior : Nat} {program : Program}
variable {claims : LimitPolicy} {argumentTypes constantTypes : List Ty} {facts : Nat → Initialized}

/-- Every instruction keeps a sound machine sound and moves forward, returns an
accepted value, or fails as outcome validation allows. -/
theorem step_safe (runnable : Runnable faulty view prior program claims)
    (arguments : Accepted argumentTypes program.arguments)
    (constants : Accepted constantTypes program.constants)
    (certificate : Certificate program argumentTypes constantTypes claims facts)
    {machine : Machine} (sound : Sound program claims facts machine) {instruction : Instruction}
    (found : program.instructions[machine.pc]? = some instruction) :
    Safe (step view prior program claims machine) (StepSound program claims facts machine)
      (Allowed faulty instruction) := by
  obtain ⟨pc, registers, overlay, usage⟩ := machine
  obtain ⟨-, typed, held, held_le, within, overlaid⟩ := sound
  simp only at typed held held_le within overlaid found
  obtain ⟨destination, verified, edges⟩ := certificate.verified pc instruction found
  have member := List.mem_of_getElem? found
  have ceiling := claims.value_le_ceiling 1
  have before := within.instructions
  simp only [Storage.limitCeilings, List.getD_cons_succ, List.getD_cons_zero] at ceiling
  refine Safe.bind_addChecked (by omega) ?_
  refine Safe.bind (check_one_safe (by decide)) fun _ counted => ?_
  refine Safe.bind_index found ?_
  -- The usage after counting the instruction.
  have within : Usage.Within claims { usage with instructions := usage.instructions + 1 } :=
    ⟨counted, within.pointAccesses, within.addresses, within.rangeRows, within.rangeBytes⟩
  have overlaid : Overlaid program claims overlay
      { usage with instructions := usage.instructions + 1 } :=
    ⟨⟨overlaid.charged.bytes, overlaid.charged.bytes_le, overlaid.charged.size_le⟩,
      overlaid.points, overlaid.addresses, overlaid.written⟩
  revert within overlaid
  generalize hcounted : ({ usage with instructions := usage.instructions + 1 } : Usage) = counted
  intro within overlaid
  replace held : counted.registerBytes = totalHeld registers := hcounted ▸ held
  replace held_le : counted.registerBytes ≤ claims.value 11 := hcounted ▸ held_le
  -- Moving along an edge keeps the promises for the registers.
  have advance {target : Nat} {registers' : List (Option Value)} {overlay' : Overlay}
      {after : Usage} (edge : instruction.exit.Edge pc target)
      (typed : Typed program claims (markInitialized (facts pc) destination) registers')
      (held : after.registerBytes = totalHeld registers')
      (held_le : after.registerBytes ≤ claims.value 11) (within : after.Within claims)
      (overlaid : Overlaid program claims overlay' after) :
      StepSound program claims facts ⟨pc, registers, overlay, usage⟩
        (.next ⟨target, registers', overlay', after⟩) := by
    obtain ⟨forward, inside, keeps⟩ := edges target edge
    exact ⟨⟨inside, typed.mono keeps, held, held_le, within, overlaid⟩, forward⟩
  by_cases computes : ∃ dst, AccessAnalysis.destination instruction = some dst
  · obtain ⟨dst, assigns⟩ := computes
    have next : instruction.exit = .next := by
      cases instruction <;> first | rfl | cases assigns
    have computing := compute_safe runnable arguments constants typed within overlaid assigns verified
    have assigning : ∀ result : Nat × Value × Usage, result.1 = dst ∧ destination = some dst ∧
        (∃ ty, program.registerTypes[dst]? = some ty) ∧ counted.Extends result.2.2 ∧
        result.2.2.Within claims →
        Safe (assign registers program.registerTypes result.2.2 claims result.1 result.2.1 >>=
            fun assigned => pure (Step.next ⟨pc + 1, assigned.1, overlay, assigned.2⟩))
          (StepSound program claims facts ⟨pc, registers, overlay, usage⟩)
          (Allowed faulty instruction) := by
      rintro ⟨_, value, after⟩ ⟨rfl, rfl, ⟨ty, declared⟩, extended, bounded⟩
      have formed := runnable.loaded.registers ty (List.mem_of_getElem? declared)
      refine Safe.bind (assign_safe typed.length declared formed
        (by rw [extended.registerBytes, held]) (by rw [extended.registerBytes]; exact held_le)) ?_
      rintro ⟨registers', after'⟩ ⟨accepted, short, changed, update, total⟩
      simp only at changed update total
      subst changed update
      have charged := (overlaid.extend extended).charged
      refine Safe.ret (advance (by rw [next]; rfl) (typed.assign declared accepted short) rfl total
        ⟨bounded.instructions, bounded.pointAccesses, bounded.addresses, bounded.rangeRows,
          bounded.rangeBytes⟩ ?_)
      exact ⟨⟨charged.bytes, charged.bytes_le, charged.size_le⟩, (overlaid.extend extended).points,
        (overlaid.extend extended).addresses, overlaid.written⟩
    cases instruction with
    | insert | store | delete | jump | jumpIfFalse | require | abort | «return» => cases assigns
    | _ => exact Safe.bind computing assigning
  · have writing {position : Nat} {table : Table} {schema : Schema} {key : Value} {after : Usage}
        {value : Option Value} (tabled : program.tables[position]? = some table)
        (admitted : table.Admitted schema) (accepted : table.key.accepts key = true)
        (short : key.keyBytes.length ≤ claims.value 9) (extended : counted.Extends after)
        (bounded : after.Within claims) (once : after.pointAccesses = counted.pointAccesses + 1)
        (present : (after.addresses.find? ⟨table.id, key.keyBytes⟩).isSome)
        (target : writeTarget instruction = some (position, value.isNone))
        (undefined : destination = none) (next : instruction.exit = .next) :
        Safe (writeNext pc registers (write overlay after claims table key.keyBytes value))
          (StepSound program claims facts ⟨pc, registers, overlay, usage⟩)
          (Allowed faulty instruction) := by
      refine Safe.bind (writing_safe overlaid bounded extended once tabled admitted member accepted
        short present target) ?_
      rintro ⟨overlay', after'⟩ ⟨overlaid', bounded', same⟩
      refine Safe.ret (advance (by rw [next]; rfl) (by rw [undefined]; exact typed) ?_ ?_ bounded'
        overlaid')
      · exact same.trans held
      · exact same.le.trans held_le
    cases instruction with
    | insert position key value =>
        obtain ⟨table, tabled, verified⟩ := bind_eq_ok.mp verified
        obtain ⟨keyType, source, verified⟩ := bind_eq_ok.mp verified
        obtain ⟨⟨⟩, -, verified⟩ := bind_eq_ok.mp verified
        obtain ⟨valueType, valueSource, verified⟩ := bind_eq_ok.mp verified
        obtain ⟨⟨⟩, -, same⟩ := bind_eq_ok.mp verified
        cases same
        have tabled := table_eq_ok tabled
        have inTables := List.mem_of_getElem? tabled
        refine Safe.bind_index tabled (keyed_safe runnable typed within inTables source ?_)
        intro schema keyValue after admitted rows accepted short extended bounded once present
        refine Safe.bind (get_safe admitted rows
          (overlaid.values_decode runnable.loaded inTables admitted) accepted) fun found _ => ?_
        cases found with
        | some bytes => exact abort_safe ⟨rfl, by decide, by decide⟩
        | none =>
            refine Safe.bind (typed.register_safe valueSource) fun stored _ => ?_
            exact writing tabled admitted accepted short extended bounded once present rfl rfl rfl
    | store position key value =>
        obtain ⟨table, tabled, verified⟩ := bind_eq_ok.mp verified
        obtain ⟨keyType, source, verified⟩ := bind_eq_ok.mp verified
        obtain ⟨⟨⟩, -, verified⟩ := bind_eq_ok.mp verified
        obtain ⟨valueType, valueSource, verified⟩ := bind_eq_ok.mp verified
        obtain ⟨⟨⟩, -, same⟩ := bind_eq_ok.mp verified
        cases same
        have tabled := table_eq_ok tabled
        have inTables := List.mem_of_getElem? tabled
        refine Safe.bind_index tabled (keyed_safe runnable typed within inTables source ?_)
        intro schema keyValue after admitted _ accepted short extended bounded once present
        refine Safe.bind (typed.register_safe valueSource) fun stored _ => ?_
        exact writing tabled admitted accepted short extended bounded once present rfl rfl rfl
    | delete position key =>
        obtain ⟨table, tabled, verified⟩ := bind_eq_ok.mp verified
        obtain ⟨keyType, source, verified⟩ := bind_eq_ok.mp verified
        obtain ⟨⟨⟩, -, same⟩ := bind_eq_ok.mp verified
        cases same
        have tabled := table_eq_ok tabled
        have inTables := List.mem_of_getElem? tabled
        refine Safe.bind_index tabled (keyed_safe runnable typed within inTables source ?_)
        intro schema keyValue after admitted _ accepted short extended bounded once present
        exact writing tabled admitted accepted short extended bounded once present rfl rfl rfl
    | jump target =>
        cases verified
        exact Safe.ret (advance rfl typed held held_le within overlaid)
    | jumpIfFalse condition target =>
        obtain ⟨ty, source, verified⟩ := bind_eq_ok.mp verified
        obtain ⟨⟨⟩, -, same⟩ := bind_eq_ok.mp verified
        cases same
        refine Safe.bind (typed.register_safe source) fun value _ => Safe.ret ?_
        by_cases jumps : value = .boolean false
        · simp only [jumps, if_true]
          exact advance (.inl rfl) typed held held_le within overlaid
        · simp only [jumps, if_false]
          exact advance (.inr rfl) typed held held_le within overlaid
    | require condition userCode =>
        obtain ⟨ty, source, verified⟩ := bind_eq_ok.mp verified
        obtain ⟨⟨⟩, -, same⟩ := bind_eq_ok.mp verified
        cases same
        refine Safe.bind (typed.register_safe source) fun value _ => ?_
        by_cases fails : value = .boolean false
        · simp only [fails, if_true]
          exact Safe.raised ⟨by simp [legalAbort], by decide, fun h => absurd rfl h, by simp,
            fun _ => rfl⟩
        · simp only [fails, if_false]
          exact Safe.ret (advance rfl typed held held_le within overlaid)
    | abort userCode =>
        exact Safe.raised ⟨by simp [legalAbort], by decide, fun _ h => absurd rfl h, by simp,
          fun _ => rfl⟩
    | «return» src =>
        obtain ⟨ty, source, verified⟩ := bind_eq_ok.mp verified
        refine Safe.bind (typed.register_safe source) fun value held => ?_
        refine Safe.bind (bound_safe program.resultType value) fun _ accepted => ?_
        refine Safe.bind (check_one_safe (by decide)) fun _ returned => Safe.ret ?_
        exact ⟨accepted, returned, held.2, counted, overlaid, within⟩
    | _ => exact absurd ⟨_, rfl⟩ computes

/-! ## Whole runs -/

/-- The machines a run passes through. -/
inductive Reachable (view : View) (prior : Nat) (program : Program) (claims : LimitPolicy) :
    Machine → Prop
  | start : Reachable view prior program claims (initial program)
  | step {machine after : Machine} : Reachable view prior program claims machine →
      step view prior program claims machine = .ok (.next after) →
      Reachable view prior program claims after

omit [Sha256] in
theorem initial_sound (certificate : Certificate program argumentTypes constantTypes claims facts) :
    Sound program claims facts (initial program) := by
  refine ⟨certificate.nonempty, ⟨?_, ?_, ?_, ?_⟩, ?_, Nat.zero_le _,
    ⟨Nat.zero_le _, Nat.zero_le _, Nat.zero_le _, Nat.zero_le _, Nat.zero_le _⟩,
    ⟨⟨rfl, Nat.zero_le _, Nat.zero_le _⟩, Nat.zero_le _, ?_, ?_⟩⟩
  · simp [initial]
  · intro r ty value _ held
    simp [initial, List.getElem?_replicate] at held
  · intro r value held
    simp [initial, List.getElem?_replicate] at held
  · intro r marked
    simp [initial, certificate.start] at marked
  · have none (count : Nat) : totalHeld (List.replicate count none) = 0 := by
      simp [totalHeld, heldBytes]
    simp [initial, Usage.default, none]
  · intro entry member
    cases member
  · intro entry member
    cases member

/-- Every machine of a run is sound. -/
theorem reachable_sound (runnable : Runnable faulty view prior program claims)
    (arguments : Accepted argumentTypes program.arguments)
    (constants : Accepted constantTypes program.constants)
    (certificate : Certificate program argumentTypes constantTypes claims facts)
    {machine : Machine} (reachable : Reachable view prior program claims machine) :
    Sound program claims facts machine := by
  induction reachable with
  | start => exact initial_sound certificate
  | step _ taken ih =>
      have safe := step_safe runnable arguments constants certificate ih
        (List.getElem?_eq_getElem ih.pc)
      exact (safe.of_ok taken).1

/-- What a run returns: an accepted value with the effects of exact private
writes, or an abort that outcome validation allows. -/
def OutcomeSound (program : Program) (claims : LimitPolicy) : Outcome → Prop
  | .success resultType value effects =>
      resultType = program.resultType ∧ program.resultType.accepts value = true ∧
        value.encodedLen ≤ claims.value 16 ∧ value.encodedLen ≤ claims.value 10 ∧
        ∃ overlay usage, effects = overlay.entries.map effect ∧
          Overlaid program claims overlay usage ∧ usage.Within claims
  | .aborted abort => ∃ instruction, program.instructions[abort.instruction]? = some instruction ∧
      Allowed False instruction (.abort abort.reason abort.userCode abort.detail)

/-- A sound machine finishes with fuel for the instructions from its counter. -/
theorem runFrom_safe (runnable : Runnable faulty view prior program claims)
    (arguments : Accepted argumentTypes program.arguments)
    (constants : Accepted constantTypes program.constants)
    (certificate : Certificate program argumentTypes constantTypes claims facts) {fuel : Nat}
    {machine : Machine} (sound : Sound program claims facts machine)
    (enough : program.instructions.length ≤ machine.pc + fuel) :
    ∃ result, runFrom view prior program claims fuel machine = some result ∧
      Safe result (OutcomeSound program claims) (fun _ => faulty) := by
  induction fuel generalizing machine with
  | zero =>
      have := sound.pc
      omega
  | succ fuel ih =>
      have found := List.getElem?_eq_getElem sound.pc
      have safe := step_safe runnable arguments constants certificate sound found
      rw [runFrom]
      match step view prior program claims machine, safe with
      | .ok (.next after), ⟨sound', forward⟩ => exact ih sound' (by omega)
      | .ok (.return value overlay), ⟨accepted, returned, short, usage, overlaid, within⟩ =>
          exact ⟨_, rfl, rfl, accepted, returned, short, overlay, usage, rfl, overlaid, within⟩
      | .error (.raised (.abort reason userCode detail)), allowed =>
          exact ⟨_, rfl, _, found, allowed⟩
      | .error (.raised (.error error)), fault => exact ⟨_, rfl, fault⟩

/-- A run finishes within the instruction count. -/
theorem run_safe (runnable : Runnable faulty view prior program claims) :
    ∃ result, run view prior program claims = some result ∧
      Safe result (OutcomeSound program claims) (fun _ => faulty) := by
  obtain ⟨argumentTypes, constantTypes, facts, arguments, constants, certificate⟩ :=
    runnable.loaded.certified
  exact runFrom_safe runnable arguments constants certificate (initial_sound certificate)
    (by simp [initial])

end Steps

end BlopDb.Vm.Runtime
