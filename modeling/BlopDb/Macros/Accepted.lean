/-
# Compiled programs are accepted

A transaction that the generated code builds decodes in the machine, whatever the
captured values and the bound tables, and its arguments are the captured values.  The
types the macro accepts are those the machine decodes.
-/

import BlopDb.Macros.ProgramVerified

namespace BlopDb.Macros

open BlopDb.Lib
open Vm (Ty Value)
open Vm.Program (readUint readBlob readArguments isRows Initialized)

/-! ## Captured values -/

mutual

/-- The Rust type of a capture holds the value. -/
def carries : Ty → Value → Bool
  | .unit, .unit => true
  | .boolean, .boolean _ => true
  | .i64, .i64 _ => true
  | .u64, .u64 _ => true
  | .bytes _, .bytes _ => true
  | .string _, .string _ => true
  | .tuple types, .tuple values => carriesAll types values
  | _, _ => false

/-- The Rust types of tuple fields hold the values. -/
def carriesAll : List Ty → List Value → Bool
  | [], [] => true
  | ty :: types, value :: values => carries ty value && carriesAll types values
  | _, _ => false

end

theorem pushBlob_eq_ok {out bytes result : Bytes} {maxBytes : Nat} :
    pushBlob out bytes maxBytes = .ok result ↔
      bytes.length < 2 ^ 32 ∧ bytes.length ≤ maxBytes ∧ out.length + 4 + bytes.length ≤ maxArgumentBytes ∧
        result = out ++ framed bytes := by
  simp only [pushBlob, bind_eq_ok, refuse_eq_ok, exists_const, pure_eq_ok, Except.ok.injEq, not_not, gt_iff_lt,
    not_lt, framed, List.append_assoc, and_assoc, @eq_comm _ result]

mutual

/-- A captured value is encoded as the machine encodes it, and its type accepts it. -/
theorem encodeCapture_sound : ∀ (ty : Ty) (value : Value) (out encoded : Bytes), carries ty value = true →
    encodeCapture out ty value = .ok encoded → encoded = out ++ value.encode ∧ ty.accepts value = true
  | .unit, .unit, out, _, _, done => by
      cases done
      exact ⟨(List.append_nil out).symm, rfl⟩
  | .boolean, .boolean _, _, _, _, done | .i64, .i64 _, _, _, _, done | .u64, .u64 _, _, _, _, done => by
      cases done
      exact ⟨rfl, rfl⟩
  | .bytes bound, .bytes data, out, encoded, _, done => by
      obtain ⟨-, short, -, rfl⟩ := pushBlob_eq_ok.mp done
      exact ⟨rfl, by simpa [Ty.accepts] using short⟩
  | .string bound, .string text, out, encoded, _, done => by
      obtain ⟨-, short, -, rfl⟩ := pushBlob_eq_ok.mp done
      exact ⟨rfl, by simpa [Ty.accepts] using short⟩
  | .tuple types, .tuple values, out, encoded, carried, done =>
      encodeCaptures_sound types values out encoded carried done

/-- Captured fields are encoded as the machine encodes them. -/
theorem encodeCaptures_sound : ∀ (types : List Ty) (values : List Value) (out encoded : Bytes),
    carriesAll types values = true → encodeCaptures out types values = .ok encoded →
    encoded = out ++ Value.encodeFields values ∧ Ty.acceptsFields types values = true
  | [], [], out, _, _, done => by
      cases done
      exact ⟨(List.append_nil out).symm, rfl⟩
  | ty :: types, value :: values, out, encoded, carried, done => by
      rw [carriesAll, Bool.and_eq_true] at carried
      obtain ⟨middle, first, rest⟩ := bind_eq_ok.mp done
      obtain ⟨rfl, accepts⟩ := encodeCapture_sound ty value out middle carried.1 first
      obtain ⟨rfl, others⟩ := encodeCaptures_sound types values _ encoded carried.2 rest
      refine ⟨by rw [List.append_assoc]; rfl, ?_⟩
      rw [Ty.acceptsFields, accepts, others]
      rfl

end

/-- The arguments that the generated code encodes are read back. -/
theorem readArguments_pushArguments {types : List Ty} {values : List Value} {start arguments : Bytes}
    (carried : List.Forall₂ (fun ty value => carries ty value = true) types values)
    (described : ∀ ty ∈ types, ty.Described) (done : pushArguments types values start = .ok arguments) :
    ∃ input, arguments = start ++ input ∧ readArguments valueLimit types input = .ok (values, []) := by
  induction carried generalizing start with
  | nil =>
      cases done
      exact ⟨[], (List.append_nil _).symm, rfl⟩
  | @cons ty value types values carried _ ih =>
      obtain ⟨first, others⟩ := List.forall_mem_cons.mp described
      obtain ⟨encoded, captured, rest⟩ := bind_eq_ok.mp done
      obtain ⟨middle, pushed, rest⟩ := bind_eq_ok.mp rest
      obtain ⟨rfl, accepts⟩ := encodeCapture_sound ty value [] encoded carried captured
      obtain ⟨small, short, -, rfl⟩ := pushBlob_eq_ok.mp pushed
      obtain ⟨input, rfl, read⟩ := ih others rest
      rw [List.nil_append] at small short
      refine ⟨framed value.encode ++ input, by rw [List.append_assoc]; rfl, ?_⟩
      have decoded := Vm.decodeValue_encode first.formed accepts
      simp only [readArguments, readBlob_framed small, ok_bind, refuse_of_not _ (not_lt.mpr short), decoded, read,
        pure_eq_ok]

/-! ## Decoding -/

/-- What was read and verified is decoded, within the largest claims. -/
theorem decode_of_reads {bytes argumentBytes input : Bytes} {tables : List Vm.Table} {contents : Contents}
    {values : List Value} (read : readProgram valueLimit bytes = .ok contents)
    (small : argumentBytes.length ≤ maxArgumentBytes) (resolved : contents.ids = tables.map (·.id))
    (counted : readUint 4 argumentBytes = .ok (contents.arguments.length, input))
    (supplied : readArguments valueLimit contents.arguments input = .ok (values, []))
    (verified : Vm.Program.verify
      ⟨contents.result, tables, values, contents.registers, contents.constants.map Prod.snd, contents.instructions⟩
      contents.arguments (contents.constants.map Prod.fst) ceilings = .ok ()) :
    Vm.Program.decode bytes argumentBytes tables ceilings = .ok
      ⟨contents.result, tables, values, contents.registers, contents.constants.map Prod.snd,
        contents.instructions⟩ := by
  simp only [readProgram, bind_eq_ok, Prod.exists, pure_eq_ok, Except.ok.injEq] at read
  obtain ⟨header, afterHeader, headed, descriptor, afterResult, framed, result, described, ids, afterTables, tabled,
    arguments, afterArguments, argued, registers, afterRegisters, registered, constants, afterConstants, pooled,
    instructions, afterCode, coded, ⟨⟩, done, rfl⟩ := read
  have fits := Vm.Program.header_fits headed
  have short : bytes.length ≤ Vm.maxProgramBytes := by
    obtain ⟨⟨⟩, within, -⟩ := bind_eq_ok.mp headed
    simpa [refuse_eq_ok] using within
  have same : arguments.length = header.arguments := (Vm.Program.readTypes_described argued).1
  simp only at resolved counted supplied verified
  have limit : ceilings.value 10 = valueLimit := rfl
  simp only [Vm.Program.decode, headed, ok_bind, refuse_of_not _ (show ¬ bytes.length > ceilings.value 0 from not_lt.mpr short),
    refuse_of_not _ (show ¬ header.instructions > ceilings.value 1 from not_lt.mpr fits.instructions.2),
    refuse_of_not _ (show ¬ header.registers > ceilings.value 2 from not_lt.mpr fits.registers),
    refuse_of_not _ (show ¬ header.arguments > ceilings.value 3 from not_lt.mpr fits.arguments),
    refuse_of_not _ (show ¬ argumentBytes.length > ceilings.value 4 from not_lt.mpr small),
    refuse_of_not _ (show ¬ header.tables > ceilings.value 5 from not_lt.mpr fits.tables), framed, described, tabled,
    refuse_of_not _ (not_not.mpr resolved), argued, registered, limit, pooled, coded, done, counted,
    refuse_of_not _ (not_not.mpr same), supplied]
  exact bind_eq_ok.mpr ⟨(), rfl, bind_eq_ok.mpr ⟨(), verified, rfl⟩⟩

/-! ## Types -/

mutual

/-- Every bound is a number of 32 bits. -/
def bounded : Ty → Bool
  | .bytes bound | .string bound => bound < 2 ^ 32
  | .tuple fields => boundedAll fields
  | .rows count key value => count < 2 ^ 32 && bounded key && bounded value
  | _ => true

/-- Every bound of the fields is a number of 32 bits. -/
def boundedAll : List Ty → Bool
  | [] => true
  | field :: fields => bounded field && boundedAll fields

end

/-- Fields are added up within the limit. -/
theorem sizes_of_le {depth : Nat} {fields : List Ty} {start : Nat}
    (each : ∀ field ∈ fields, size depth false field = some field.maxValueBytes)
    (fits : start + Ty.maxFieldsBytes fields ≤ valueLimit) :
    sizes depth fields start = some (start + Ty.maxFieldsBytes fields) := by
  induction fields generalizing start with
  | nil => rfl
  | cons field fields ih =>
      obtain ⟨first, others⟩ := List.forall_mem_cons.mp each
      simp only [Ty.maxFieldsBytes, valueLimit] at fits ⊢
      rw [sizes, first, Option.bind_some, Vm.checkedAdd_of_lt (by omega), Option.bind_some,
        ih others (by simp only [valueLimit]; omega), Nat.add_assoc]

/-- A type the machine decodes is legal for the macro. -/
theorem size_complete {levels depth : Nat} (nested : depth + levels = 17) (deep : 0 < depth) {allowRows : Bool}
    (top : depth = 1 → allowRows = true) {ty : Ty} (formed : ty.Formed levels) :
    size depth allowRows ty = some ty.maxValueBytes := by
  induction levels generalizing depth allowRows ty with
  | zero => exact formed.elim
  | succ levels ih =>
      have inner {ty : Ty} (formed : ty.Formed levels) : size (depth + 1) false ty = some ty.maxValueBytes :=
        ih (show depth + 1 + levels = 17 by omega) (by omega) (by omega) formed
      have fits := formed.size_le
      have below : depth ≤ 16 := by omega
      cases ty with
      | tuple fields =>
          obtain ⟨-, few, each⟩ := formed
          have summed := @sizes_of_le (depth + 1) fields 0 (fun field member => inner (each field member))
            (by simpa [valueLimit, Vm.maxValueBytes, Ty.maxValueBytes] using fits)
          rw [size, if_pos few, summed]
          exact legal_eq_some.mpr ⟨below, by simp [Ty.maxValueBytes], fits⟩
      | rows count key value =>
          obtain ⟨-, first, few, keyFormed, valueFormed⟩ := formed
          have keySize := keyFormed.size_le
          have valueSize := valueFormed.size_le
          have product := Nat.mul_comm (key.maxValueBytes + value.maxValueBytes) count
          simp only [Vm.maxValueBytes, Ty.maxValueBytes, Vm.maxRows] at fits few keySize valueSize
          rw [size, if_pos ⟨top (by omega), few⟩, inner keyFormed, inner valueFormed, Option.bind_some,
            Option.bind_some, Vm.checkedMul_of_lt (by omega), Option.bind_some, Vm.checkedAdd_of_lt (by omega)]
          refine legal_eq_some.mpr ⟨below, ?_, by simpa only [Ty.maxValueBytes, valueLimit] using fits⟩
          simp only [Ty.maxValueBytes, product, Nat.add_comm 4]
      | _ => exact legal_eq_some.mpr ⟨below, rfl, fits⟩

theorem leBytes_append_inj {width left right : Nat} (leftSmall : left < 256 ^ width) (rightSmall : right < 256 ^ width)
    {rest rest' : Bytes} (same : leBytes width left ++ rest = leBytes width right ++ rest') :
    left = right ∧ rest = rest' := by
  obtain ⟨head, tail⟩ := List.append_inj same (by simp)
  exact ⟨leBytes_inj leftSmall rightSmall head, tail⟩

mutual

/-- An encodable type is known from any bytes that start with its encoding. -/
theorem encodeType_injective : ∀ (left right : Ty) (rest rest' : Bytes), bounded left = true → bounded right = true →
    left.encodeType.length < 2 ^ 16 + 2 → right.encodeType.length < 2 ^ 16 + 2 →
    left.encodeType ++ rest = right.encodeType ++ rest' → left = right ∧ rest = rest'
  | .unit, right, _, _, _, _, _, _, same | .boolean, right, _, _, _, _, _, _, same
  | .i64, right, _, _, _, _, _, _, same | .u64, right, _, _, _, _, _, _, same => by
      cases right <;> simp [Ty.encodeType] at same ⊢
      exact same
  | .bytes bound, right, rest, rest', small, small', _, _, same => by
      cases right with
      | bytes bound' =>
          simp only [bounded, decide_eq_true_eq] at small small'
          obtain ⟨rfl, tail⟩ := leBytes_append_inj (show bound < 256 ^ 4 by omega) (by omega) (List.cons.inj same).2
          exact ⟨rfl, tail⟩
      | _ => simp [Ty.encodeType] at same
  | .string bound, right, rest, rest', small, small', _, _, same => by
      cases right with
      | string bound' =>
          simp only [bounded, decide_eq_true_eq] at small small'
          obtain ⟨rfl, tail⟩ := leBytes_append_inj (show bound < 256 ^ 4 by omega) (by omega) (List.cons.inj same).2
          exact ⟨rfl, tail⟩
      | _ => simp [Ty.encodeType] at same
  | .tuple fields, right, rest, rest', small, small', short, short', same => by
      cases right with
      | tuple fields' =>
          have few := Vm.length_le_encodeTypes fields
          have few' := Vm.length_le_encodeTypes fields'
          simp only [Ty.encodeType, List.length_cons, List.length_append, length_leBytes] at short short'
          simp only [Ty.encodeType, List.cons_append, List.append_assoc, List.cons.injEq, true_and] at same
          obtain ⟨length, tail⟩ := leBytes_append_inj (show fields.length < 256 ^ 2 by omega) (by omega) same
          obtain ⟨rfl, ends⟩ :=
            encodeTypes_injective fields fields' rest rest' length small small' (by omega) (by omega) tail
          exact ⟨rfl, ends⟩
      | _ => simp [Ty.encodeType] at same
  | .rows count key value, right, rest, rest', small, small', short, short', same => by
      cases right with
      | rows count' key' value' =>
          simp only [bounded, Bool.and_eq_true, decide_eq_true_eq] at small small'
          simp only [Ty.encodeType, List.length_cons, List.length_append, length_leBytes] at short short'
          simp only [Ty.encodeType, List.cons_append, List.append_assoc, List.cons.injEq, true_and] at same
          obtain ⟨rfl, tail⟩ := leBytes_append_inj (show count < 256 ^ 4 by omega) (by omega) same
          obtain ⟨rfl, rest⟩ := encodeType_injective key key' _ _ small.1.2 small'.1.2 (by omega) (by omega) tail
          obtain ⟨rfl, ends⟩ := encodeType_injective value value' _ _ small.2 small'.2 (by omega) (by omega) rest
          exact ⟨rfl, ends⟩
      | _ => simp [Ty.encodeType] at same

/-- The encodings of equally many fields are told apart. -/
theorem encodeTypes_injective : ∀ (lefts rights : List Ty) (rest rest' : Bytes), lefts.length = rights.length →
    boundedAll lefts = true → boundedAll rights = true → (Ty.encodeTypes lefts).length < 2 ^ 16 + 2 →
    (Ty.encodeTypes rights).length < 2 ^ 16 + 2 →
    Ty.encodeTypes lefts ++ rest = Ty.encodeTypes rights ++ rest' → lefts = rights ∧ rest = rest'
  | [], rights, rest, rest', length, _, _, _, _, same => by
      obtain rfl : rights = [] := List.length_eq_zero_iff.mp length.symm
      exact ⟨rfl, same⟩
  | left :: lefts, rights, rest, rest', length, small, small', short, short', same => by
      cases rights with
      | nil => simp at length
      | cons right rights =>
          simp only [boundedAll, Bool.and_eq_true] at small small'
          simp only [Ty.encodeTypes, List.length_append] at short short'
          simp only [Ty.encodeTypes, List.append_assoc] at same
          obtain ⟨rfl, tail⟩ := encodeType_injective left right _ _ small.1 small'.1 (by omega) (by omega) same
          obtain ⟨rfl, ends⟩ := encodeTypes_injective lefts rights rest rest' (by simpa using length) small.2 small'.2
            (by omega) (by omega) tail
          exact ⟨rfl, ends⟩

end

theorem bounded_of_formed {levels : Nat} {ty : Ty} (formed : ty.Formed levels) : bounded ty = true := by
  induction levels generalizing ty with
  | zero => exact formed.elim
  | succ levels ih =>
      have size := formed.size_le
      cases ty with
      | bytes bound | string bound =>
          simp only [Ty.maxValueBytes, Vm.maxValueBytes] at size
          simp only [bounded, decide_eq_true_eq]
          omega
      | tuple fields =>
          obtain ⟨-, -, each⟩ := formed
          rw [bounded]
          clear size
          induction fields with
          | nil => rfl
          | cons field fields more =>
              obtain ⟨first, others⟩ := List.forall_mem_cons.mp each
              rw [boundedAll, ih first, more others]
              rfl
      | rows count key value =>
          obtain ⟨-, -, few, keyFormed, valueFormed⟩ := formed
          simp only [Vm.maxRows] at few
          rw [bounded, ih keyFormed, ih valueFormed, decide_eq_true (by omega)]
          rfl
      | _ => rfl

/-- The macro accepts a type exactly if the machine decodes its descriptor, and it decodes
to that type. -/
theorem validateType_iff_decode {ty : Ty} (small : bounded ty = true) :
    (validateType ty true = .ok () ↔ ∃ decoded, Ty.decode ty.descriptor = .ok decoded) ∧
      ∀ decoded, Ty.decode ty.descriptor = .ok decoded → decoded = ty := by
  have same (decoded : Ty) (reads : Ty.decode ty.descriptor = .ok decoded) : decoded = ty := by
    obtain ⟨descriptor, formed, short⟩ := Vm.Ty.decode_sound reads
    have length := congrArg List.length descriptor
    simp only [Vm.maxDescriptorBytes, Ty.descriptor, List.length_append, length_leBytes] at short length
    have encoded := List.append_cancel_left descriptor
    refine ((encodeType_injective ty decoded [] [] small (bounded_of_formed formed) (by omega) (by omega) ?_).1).symm
    rw [List.append_nil, List.append_nil]
    exact encoded
  refine ⟨⟨fun valid => ⟨ty, (described_of_validateType valid).1.decode⟩, ?_⟩, same⟩
  rintro ⟨decoded, reads⟩
  obtain rfl := same decoded reads
  obtain ⟨-, formed, short⟩ := Vm.Ty.decode_sound reads
  have sized := size_complete (show 1 + 16 = 17 from rfl) Nat.one_pos (fun _ => rfl) formed
  refine refuse_of_not _ ?_
  rw [sized]
  simpa [Vm.maxDescriptorBytes] using short

/-! ## Bound programs -/

/-- Control goes from one instruction to another. -/
def Goes (program : Vm.Program) (source target : Nat) : Prop :=
  ∃ instruction, program.instructions[source]? = some instruction ∧ instruction.exit.Edge source target

/-- Every instruction of a region is reached from its start. -/
theorem Setting.reached_of_region {setting : Setting} {later : Initialized}
    (region : setting.Region 0 setting.machine.instructions (fun _ => false) later false) {pc : Nat}
    (inside : pc < setting.machine.instructions.length) : Relation.ReflTransGen (Goes setting.machine) 0 pc := by
  obtain ⟨facts, table, -⟩ := region (fun index => setting.machine.instructions[index]?) (by simp [Holds])
  rw [Nat.zero_add] at table
  induction pc using Nat.strong_induction_on with
  | _ pc ih =>
      rcases Nat.eq_zero_or_pos pc with rfl | positive
      · exact .refl
      · obtain ⟨source, instruction, -, before, here, edge⟩ := table.reached pc positive inside.le fun _ => inside
        exact (ih source before (before.trans inside)).tail ⟨instruction, here, edge⟩

theorem Setting.nonempty_of_region {setting : Setting} {later : Initialized}
    (region : setting.Region 0 setting.machine.instructions (fun _ => false) later false) :
    0 < setting.machine.instructions.length := by
  obtain ⟨facts, table, -⟩ := region (fun index => setting.machine.instructions[index]?) (by simp [Holds])
  simpa using table.nonempty rfl

/-- The resolved tables of a program: those of the bound identities, in their order, with
the declared shapes. -/
structure Resolved (declarations : List TableDeclaration) (ids : List Nat) (tables : List Vm.Table) : Prop where
  identities : tables.map (·.id) = sortedIds ids
  shaped : ∀ (index : Nat) (declaration : TableDeclaration) (resolved : Vm.Table),
    declarations[index]? = some declaration → ids[index]? = some resolved.id → resolved ∈ tables →
      resolved.key.sameShape declaration.key = true ∧ resolved.value.sameShape declaration.value = true

section Bound

variable {program : SourceProgram} {compiled : Compiled} {ids : List Nat} {tables : List Vm.Table}

/-- The machine's program for a bound template. -/
def Compiled.setting (compiled : Compiled) (ids : List Nat) (tables : List Vm.Table)
    (arguments constants : List Value) (meanings : List Vm.Instruction) : Setting where
  machine := ⟨compiled.result, tables, arguments, compiled.registers, constants,
    meanings.map (mapTable (slotOf ids))⟩
  arguments := compiled.arguments
  constants := compiled.constants.map Prod.fst
  slot := slotOf ids

/-- Declared tables are found at their positions in the sorted array. -/
theorem Resolved.shapes (resolved : Resolved program.tables ids tables)
    (length : ids.length = program.tables.length) (distinct : (program.tables.map (·.name)).Nodup)
    {declared : String → Option TableInfo}
    (declares : declareTables program.tables 0 (fun _ => none) = .ok declared) {setting : Setting}
    (same : setting.machine.tables = tables) (slots : setting.slot = slotOf ids) {name : String}
    {info : TableInfo} (known : declared name = some info) : setting.Shaped info := by
  rcases (declareTables_lookup declares distinct).mp known with ⟨index, declaration, found, -, rfl⟩ | ⟨-, absent⟩
  · have inside : index < ids.length := by
      rw [length]
      exact (List.getElem?_eq_some_iff.mp found).1
    have slot := sortedIds_slotOf inside
    rw [← resolved.identities, List.getElem?_map, List.getElem?_eq_getElem inside] at slot
    obtain ⟨table, here, identity⟩ := Option.map_eq_some_iff.mp slot
    obtain ⟨key, value⟩ := resolved.shaped index declaration table found
      (by rw [List.getElem?_eq_getElem inside, identity]) (List.mem_of_getElem? here)
    refine ⟨table, ?_, key, value⟩
    rw [same, slots, TableDeclaration.info, Nat.zero_add]
    exact here
  · cases absent

variable {values arguments : List Value} {meanings code : List Vm.Instruction}

/-- The pools of a compiled program are small. -/
theorem Emitted.small (emitted : Emitted program compiled values meanings)
    (length : ids.length = compiled.tableCount) (resolved : Resolved program.tables ids tables)
    (same : compiled.instructions.length = code.length) :
    (compiled.setting ids tables arguments values code).Small := by
  have counted := emitted.readable.counted
  have matching : tables.length = compiled.tableCount := by
    rw [← length, ← (sortedIds_perm ids).length_eq, ← resolved.identities, List.length_map]
  refine ⟨counted.registers, fun ty member => (emitted.readable.registers ty member).formed,
    matching.trans_le counted.tables, counted.arguments, ?_, ?_⟩
  · rw [Compiled.setting, List.length_map]
    exact counted.constants
  · rw [Compiled.setting, List.length_map, ← same]
    exact counted.instructions

/-- The code of a region is readable in a bound program. -/
theorem Emitted.readable_of_region (emitted : Emitted program compiled values meanings)
    (length : ids.length = compiled.tableCount) (encodes : List.Forall₂ Encodes compiled.instructions code)
    (small : (compiled.setting ids tables arguments values code).Small) {later : Initialized}
    (region : (compiled.setting ids tables arguments values code).Region 0 (code.map (mapTable (slotOf ids)))
      (fun _ => false) later false) :
    (compiled.bound ids).Readable values (code.map (mapTable (slotOf ids))) := by
  have fits := small.fits_of_region region fun instruction member => by
    obtain ⟨original, isOriginal, rfl⟩ := List.mem_map.mp member
    obtain ⟨position, inside, rfl⟩ := List.getElem_of_mem isOriginal
    exact (encodes.get (encodes.length_eq ▸ inside) inside).legal.mapTable _
  refine { emitted.bound length with code := ?_ }
  rw [Compiled.bound, List.forall₂_map_left_iff, List.forall₂_map_right_iff]
  rw [List.forall₂_iff_get] at encodes ⊢
  refine ⟨encodes.1, fun position inside inside' => ⟨(encodes.2 position inside inside').means.rename _, ?_⟩⟩
  exact fits _ (List.mem_map_of_mem (List.get_mem _ _))

end Bound

/-- Every program that compiles is accepted by the machine, within the largest claims,
for all captured values and table identities that the generated code takes and all tables
of the declared shapes.  Every instruction is reached, verifies where it is reached, and
passes control forward and inside the program only; the arguments are the captured values.
The macro accepts a type exactly if the machine decodes its descriptor. -/
theorem program_accepted :
    (∀ (program : SourceProgram) (template : Encoded), compile program = .ok template →
      ∀ (values : List Value) (ids : List Nat) (tables : List Vm.Table) (transaction : Transaction),
        List.Forall₂ (fun ty value => carries ty value = true) (program.captures.map (·.ty)) values →
        ids.length = program.tables.length → (∀ id ∈ ids, id < 2 ^ 64) →
        buildTransaction template (program.captures.map (·.ty)) values ids = .ok transaction →
        Resolved program.tables ids tables →
        ∃ decoded, Vm.Program.decode transaction.program transaction.arguments tables ceilings = .ok decoded ∧
          decoded.arguments = values ∧
          (∀ pc, pc < decoded.instructions.length → Relation.ReflTransGen (Goes decoded) 0 pc) ∧
          ∃ constantTypes facts, Vm.Program.Certificate decoded (program.captures.map (·.ty)) constantTypes
            ceilings facts) ∧
    ∀ ty, bounded ty = true →
      (validateType ty true = .ok () ↔ ∃ decoded, Ty.decode ty.descriptor = .ok decoded) ∧
        ∀ decoded, Ty.decode ty.descriptor = .ok decoded → decoded = ty := by
  refine ⟨fun program template compiles values ids tables transaction carried length wide built resolved => ?_,
    fun ty small => validateType_iff_decode small⟩
  obtain ⟨⟨⟩, checked, compiled, compiles, encoded⟩ : ∃ _ : Unit, checkDeclarations program = .ok () ∧
      ∃ compiled, compileProgram program = .ok compiled ∧ compiled.template = .ok template := by
    simpa only [compile, bind_eq_ok] using compiles
  obtain ⟨names, captured, tabled⟩ := bind_eq_ok.mp checked
  obtain ⟨distinct, -⟩ := checkTables_eq_ok.mp tabled
  obtain ⟨counted, fits, -⟩ := template_eq_ok.mp encoded
  obtain ⟨pool, meanings, emitted⟩ := emitted_of_compileProgram checked compiles counted
  obtain ⟨declared, code, declares, encodes, verified⟩ := region_compileProgram compiles
  obtain ⟨arguments, pushed, bound⟩ := bind_eq_ok.mp built
  obtain ⟨bindable, short⟩ := bindable_of_bindProgram bound
  obtain ⟨bound', -⟩ := emitted.reads encoded length wide bindable short
  obtain rfl := Except.ok.inj (bound'.symm.trans bound)
  -- The machine's program is a region, so its code is readable and it verifies.
  rw [← emitted.arguments] at carried pushed ⊢
  have matching : ids.length = compiled.tableCount := length.trans emitted.tables.symm
  obtain ⟨later, region⟩ := verified (compiled.setting ids tables values pool code)
    ⟨rfl, rfl, rfl, rfl, fun _ _ known => resolved.shapes length distinct declares rfl rfl known⟩
  have small := @Emitted.small _ _ _ _ _ values _ _ emitted matching resolved encodes.length_eq
  have read := emitted.reads_bound matching wide bindable fits
    (emitted.readable_of_region matching encodes small region)
  have accepted := Setting.verify_of_region region
  -- The arguments are read back.
  have constants := emitted.readable.constants.length_eq
  obtain ⟨input, rfl, supplied⟩ := readArguments_pushArguments carried
    (fun ty member => (emitted.readable.arguments ty member).1) pushed
  have pooled : ((compiled.constants.map Prod.fst).zip pool).map Prod.snd = pool :=
    List.map_snd_zip (by rw [List.length_map, constants])
  have typed : ((compiled.constants.map Prod.fst).zip pool).map Prod.fst = compiled.constants.map Prod.fst :=
    List.map_fst_zip (by rw [List.length_map, constants])
  have few := counted.arguments
  refine ⟨_, decode_of_reads read short resolved.identities.symm
    (readUint_leBytes (by omega) input) supplied ?_, rfl, ?_, ?_⟩
  · rw [pooled, typed]
    exact accepted
  · rw [pooled]
    exact fun pc inside => Setting.reached_of_region region inside
  · refine ⟨compiled.constants.map Prod.fst, ?_⟩
    rw [pooled]
    exact Vm.Program.verify_certificate (Setting.nonempty_of_region region) accepted

namespace Sample

/-- The tables of the sample, bound in decreasing order of their identities. -/
def transferTables : List Vm.Table := [⟨4, .u64, .u64⟩, ⟨9, .u64, .u64⟩]

/-- The sample is accepted. -/
theorem transfer_accepted :
    ∃ (template : Encoded) (transaction : Transaction) (decoded : Vm.Program), compile transfer = .ok template ∧
      buildTransaction template [.u64] [.u64 5] [9, 4] = .ok transaction ∧
      Vm.Program.decode transaction.program transaction.arguments transferTables ceilings = .ok decoded ∧
      decoded.arguments = [.u64 5] := by
  have builds : ((compile transfer).toOption.bind fun template =>
      (buildTransaction template [.u64] [.u64 5] [9, 4]).toOption).isSome = true := by decide +kernel
  obtain ⟨transaction, built⟩ := Option.isSome_iff_exists.mp builds
  obtain ⟨template, compiles, built⟩ := Option.bind_eq_some_iff.mp built
  have compiles : compile transfer = .ok template := by
    cases done : compile transfer <;> simp_all [Except.toOption]
  have built : buildTransaction template [.u64] [.u64 5] [9, 4] = .ok transaction := by
    cases done : buildTransaction template [.u64] [.u64 5] [9, 4] <;> simp_all [Except.toOption]
  have resolved : Resolved transfer.tables [9, 4] transferTables := by
    refine ⟨by decide, fun index declaration resolved found _ member => ?_⟩
    have declared : declaration.key = .u64 ∧ declaration.value = .u64 := by
      have member := List.mem_of_getElem? found
      simp only [transfer, List.mem_cons, List.not_mem_nil, or_false] at member
      rcases member with rfl | rfl <;> exact ⟨rfl, rfl⟩
    simp only [transferTables, List.mem_cons, List.not_mem_nil, or_false] at member
    rw [declared.1, declared.2]
    rcases member with rfl | rfl <;> exact ⟨rfl, rfl⟩
  obtain ⟨decoded, decodes, arguments, -⟩ := program_accepted.1 transfer template compiles [.u64 5] [9, 4]
    transferTables transaction (.cons rfl .nil) rfl (by decide) built resolved
  exact ⟨template, transaction, decoded, compiles, built, decodes, arguments⟩

end Sample

end BlopDb.Macros
