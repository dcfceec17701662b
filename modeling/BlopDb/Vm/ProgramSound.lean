/-
# What reading and verification establish

A program that decodes has formed types, valid table identities, pools of
accepted values, and a certificate: a table of registers that are initialized on
entry to each instruction, for which every instruction verifies and which is
closed under control flow.
-/

import BlopDb.Vm.History
import BlopDb.Vm.ValueCodec

namespace BlopDb.Vm.Program

open BlopDb.Lib
open Storage (LimitPolicy maxU64)

/-! ## Pools -/

theorem readUint_lt {width value : Nat} {input rest : Bytes}
    (read : readUint width input = .ok (value, rest)) : value < 256 ^ width := by
  obtain ⟨⟨bytes, tail⟩, taken, same⟩ := bind_eq_ok.mp read
  obtain ⟨-, length⟩ := takeBytes_eq_ok.mp taken
  cases same
  exact length ▸ leNat_lt bytes

theorem readTableIds_valid {count : Nat} {last : Option Nat} {input : Bytes} {ids : List Nat}
    (read : readTableIds count last input = .ok ids) {id : Nat} (member : id ∈ ids) :
    id ≠ 0 ∧ id < maxU64 := by
  induction count generalizing last input ids with
  | zero =>
      cases read
      simp at member
  | succ count ih =>
      simp only [readTableIds, bind_eq_ok, refuse_eq_ok, Prod.exists] at read
      obtain ⟨first, rest, taken, -, valid, others, tail, same⟩ := read
      cases same
      have small := readUint_lt taken
      simp only [not_or] at valid
      rcases List.mem_cons.mp member with rfl | inTail
      · refine ⟨valid.1, lt_of_le_of_ne ?_ valid.2.1⟩
        unfold maxU64
        omega
      · exact ih tail inTail

/-- Table identities increase strictly, beyond the last one read before. -/
theorem readTableIds_increasing {count : Nat} {last : Option Nat} {input : Bytes} {ids : List Nat}
    (read : readTableIds count last input = .ok ids) :
    ids.Pairwise (· < ·) ∧ ∀ previous ∈ last, ∀ id ∈ ids, previous < id := by
  induction count generalizing last input ids with
  | zero =>
      cases read
      simp
  | succ count ih =>
      simp only [readTableIds, bind_eq_ok, refuse_eq_ok, Prod.exists] at read
      obtain ⟨first, rest, -, -, valid, others, tail, same⟩ := read
      cases same
      obtain ⟨increasing, later⟩ := ih tail
      simp only [not_or, Option.any_eq_true, not_exists, not_and, decide_eq_true_eq, ge_iff_le,
        not_le] at valid
      refine ⟨List.pairwise_cons.mpr ⟨later first rfl, increasing⟩, fun previous isLast id member => ?_⟩
      have before := valid.2.2 previous isLast
      rcases List.mem_cons.mp member with rfl | inTail
      · exact before
      · exact before.trans (later first rfl id inTail)

theorem readTableIds_length {count : Nat} {last : Option Nat} {input : Bytes} {ids : List Nat}
    (read : readTableIds count last input = .ok ids) : ids.length = count := by
  induction count generalizing last input ids with
  | zero =>
      cases read
      rfl
  | succ count ih =>
      simp only [readTableIds, bind_eq_ok, Prod.exists] at read
      obtain ⟨_, _, -, -, -, others, tail, same⟩ := read
      cases same
      rw [List.length_cons, ih tail]

theorem readTypes_described {check : Ty → Except Error Unit} {count : Nat} {input rest : Bytes}
    {types : List Ty} (read : readTypes check count input = .ok (types, rest)) :
    types.length = count ∧ ∀ ty ∈ types, ty.Described := by
  induction count generalizing input types with
  | zero =>
      cases read
      simp
  | succ count ih =>
      simp only [readTypes, bind_eq_ok, Prod.exists] at read
      obtain ⟨descriptor, input, -, ty, decoded, -, -, others, tail, remaining, same⟩ := read
      cases same
      obtain ⟨length, described⟩ := ih remaining
      refine ⟨by rw [List.length_cons, length], fun other member => ?_⟩
      rcases List.mem_cons.mp member with rfl | inTail
      · exact .of_decode decoded
      · exact described other inTail

/-- Values that are accepted by the types of a list, one by one. -/
def Accepted (types : List Ty) (values : List Value) : Prop :=
  List.Forall₂ (fun ty value => ty.accepts value = true) types values

theorem Accepted.get {types : List Ty} {values : List Value} (accepted : Accepted types values)
    {position : Nat} {ty : Ty} (found : types[position]? = some ty) :
    ∃ value, values[position]? = some value ∧ ty.accepts value = true := by
  induction accepted generalizing position with
  | nil => simp at found
  | cons head tail ih =>
      cases position with
      | zero =>
          cases found
          exact ⟨_, rfl, head⟩
      | succ position => exact ih found

theorem readConstants_described {limit count : Nat} {input rest : Bytes} {constants : List (Ty × Value)}
    (read : readConstants limit count input = .ok (constants, rest)) :
    constants.length = count ∧
      ∀ constant ∈ constants, constant.1.Described ∧ constant.1.accepts constant.2 = true := by
  induction count generalizing input constants with
  | zero =>
      cases read
      simp
  | succ count ih =>
      simp only [readConstants, bind_eq_ok, Prod.exists] at read
      obtain ⟨_, _, -, ty, typed, -, -, _, _, -, -, -, value, decoded, others, _, remaining, same⟩ := read
      cases same
      obtain ⟨length, described⟩ := ih remaining
      refine ⟨by rw [List.length_cons, length], fun other member => ?_⟩
      rcases List.mem_cons.mp member with rfl | inTail
      · exact ⟨.of_decode typed, (decodeValue_sound decoded).2⟩
      · exact described other inTail

theorem readConstants_accepted {limit count : Nat} {input rest : Bytes}
    {constants : List (Ty × Value)}
    (read : readConstants limit count input = .ok (constants, rest)) :
    Accepted (constants.map (·.1)) (constants.map (·.2)) := by
  rw [Accepted, List.forall₂_map_left_iff, List.forall₂_map_right_iff]
  exact List.forall₂_same.mpr fun constant member => ((readConstants_described read).2 constant member).2

theorem readArguments_accepted {limit : Nat} {types : List Ty} {input rest : Bytes}
    {values : List Value} (read : readArguments limit types input = .ok (values, rest)) :
    Accepted types values := by
  induction types generalizing input values with
  | nil =>
      cases read
      exact .nil
  | cons ty types ih =>
      simp only [readArguments, bind_eq_ok, Prod.exists] at read
      obtain ⟨_, _, -, -, -, value, decoded, others, _, remaining, same⟩ := read
      cases same
      exact .cons (decodeValue_sound decoded).2 (ih remaining)

/-! ## Certificates -/

/-- A table of initialized registers for which every instruction verifies. -/
structure Certificate (program : Program) (argumentTypes constantTypes : List Ty)
    (claims : LimitPolicy) (facts : Nat → Initialized) : Prop where
  /-- There is a first instruction. -/
  nonempty : 0 < program.instructions.length
  /-- Nothing is initialized before it. -/
  start : ∀ register, facts 0 register = false
  /-- Every instruction verifies and every edge goes forward, stays inside and
  keeps what is initialized. -/
  verified : ∀ pc instruction, program.instructions[pc]? = some instruction →
    ∃ destination,
      program.verifyInstruction argumentTypes constantTypes claims (facts pc) instruction =
        .ok destination ∧
      ∀ target, instruction.exit.Edge pc target →
        pc < target ∧ target < program.instructions.length ∧
          ∀ register, facts target register = true →
            markInitialized (facts pc) destination register = true

/-- A set of registers contains every register a fact marks as initialized. -/
def describes (fact : Initialized) (registers : Nat → Prop) : Prop :=
  ∀ register, fact register = true → registers register

theorem describes_intersect_left (left right : Initialized) (registers : Nat → Prop)
    (holds : describes left registers) : describes (intersect left right) registers :=
  fun register both => holds register (Bool.and_eq_true_iff.mp both).1

theorem describes_intersect_right (left right : Initialized) (registers : Nat → Prop)
    (holds : describes right registers) : describes (intersect left right) registers :=
  fun register both => holds register (Bool.and_eq_true_iff.mp both).2

theorem verifyTarget_forward {program : Program} {pc : Nat} {instruction : Instruction}
    (verified : program.verifyTarget pc instruction = .ok ()) :
    instruction.exit.Forward pc program.instructions.length := by
  cases instruction <;> simp only [Instruction.exit, Exit.Forward]
  all_goals
    simp only [verifyTarget, refuse_eq_ok] at verified
    omega

/-- Verification succeeds only with a certificate. -/
theorem verify_certificate {program : Program} {argumentTypes constantTypes : List Ty}
    {claims : LimitPolicy} (nonempty : 0 < program.instructions.length)
    (verified : program.verify argumentTypes constantTypes claims = .ok ()) :
    ∃ facts, Certificate program argumentTypes constantTypes claims facts := by
  obtain ⟨final, ran, closed⟩ := bind_eq_ok.mp verified
  have stops : final.fallthrough.isSome = false := by simpa [refuse_eq_ok] using closed
  have : Nonempty Initialized := ⟨fun _ => false⟩
  obtain ⟨facts, entry, -, visited⟩ := flow_sound describes_intersect_left describes_intersect_right
    (Nat.zero_add program.instructions.length)
    (fun k instruction _ fact acc result visit => by
      obtain ⟨destination, -, rest⟩ := bind_eq_ok.mp visit
      obtain ⟨⟨⟩, target, -⟩ := bind_eq_ok.mp rest
      exact verifyTarget_forward target) ran
  refine ⟨facts, nonempty, fun register => ?_, fun pc instruction found => ?_⟩
  · have holds := entry (fun _ => false) (fun _ => False) rfl (List.ne_nil_of_length_pos nonempty)
      fun _ h => by simp at h
    by_contra marked
    exact holds register (by simpa using marked)
  · obtain ⟨acc, out, acc', visit, -, edges⟩ := (visited pc instruction found).visited
    rw [Nat.zero_add] at visit edges
    obtain ⟨destination, checked, rest⟩ := bind_eq_ok.mp visit
    obtain ⟨⟨⟩, target, same⟩ := bind_eq_ok.mp rest
    cases same
    refine ⟨destination, checked, fun next edge => ?_⟩
    obtain ⟨inside, keeps⟩ := edges next edge
    have inside : next < program.instructions.length := by
      rcases inside with inside | ⟨-, falls⟩
      · exact inside
      · simp [stops] at falls
    exact ⟨(verifyTarget_forward target).lt_of_edge edge, inside,
      keeps (fun register => markInitialized (facts pc) destination register = true)
        (fun _ h => h) inside⟩

/-! ## Decoded programs -/

/-- The user codes of an instruction fit 32 bits. -/
def codeFits : Instruction → Bool
  | .require _ code | .abort code => code < 2 ^ 32
  | _ => true

theorem readTwo_codeFits {make : Nat → Nat → Instruction} {operands rest : Bytes}
    {instruction : Instruction} (fits : ∀ a b, codeFits (make a b) = true)
    (read : readTwo make operands = .ok (instruction, rest)) : codeFits instruction = true := by
  simp only [readTwo, bind_eq_ok, Prod.exists] at read
  obtain ⟨_, _, -, _, _, -, same⟩ := read
  cases same
  exact fits _ _

theorem readThree_codeFits {make : Nat → Nat → Nat → Instruction} {operands rest : Bytes}
    {instruction : Instruction} (fits : ∀ a b c, codeFits (make a b c) = true)
    (read : readThree make operands = .ok (instruction, rest)) : codeFits instruction = true := by
  simp only [readThree, bind_eq_ok, Prod.exists] at read
  obtain ⟨_, _, -, _, _, -, _, _, -, same⟩ := read
  cases same
  exact fits _ _ _

/-- Instructions are read with user codes of 32 bits. -/
theorem readInstruction_codeFits {opcode : Nat} {operands rest : Bytes} {instruction : Instruction}
    (read : readInstruction opcode operands = .ok (instruction, rest)) :
    codeFits instruction = true := by
  unfold readInstruction at read
  split at read
  case h_9 =>
    simp only [readScan, bind_eq_ok, Prod.exists] at read
    obtain ⟨_, _, -, _, _, -, _, _, -, _, _, -, _, _, -, -, -, _, _, -, -, -, -, -, _, _, -, _, _, -,
      same⟩ := read
    cases same
    rfl
  case h_10 =>
    simp only [bind_eq_ok, Prod.exists] at read
    obtain ⟨_, _, -, _, _, -, _, _, -, _, _, -, same⟩ := read
    cases same
    rfl
  case h_11 =>
    simp only [bind_eq_ok, Prod.exists] at read
    obtain ⟨_, _, -, _, _, -, -, -, _, _, -, same⟩ := read
    cases same
    rfl
  case h_13 =>
    simp only [bind_eq_ok, Prod.exists] at read
    obtain ⟨_, _, -, same⟩ := read
    cases same
    rfl
  case h_14 =>
    simp only [bind_eq_ok, Prod.exists] at read
    obtain ⟨_, _, -, _, _, -, same⟩ := read
    cases same
    rfl
  case h_15 =>
    simp only [bind_eq_ok, Prod.exists] at read
    obtain ⟨_, _, -, code, _, taken, same⟩ := read
    cases same
    simpa [codeFits] using readUint_lt taken
  case h_16 =>
    simp only [bind_eq_ok, Prod.exists] at read
    obtain ⟨code, _, taken, same⟩ := read
    cases same
    simpa [codeFits] using readUint_lt taken
  case h_17 =>
    simp only [bind_eq_ok, Prod.exists] at read
    obtain ⟨_, _, -, same⟩ := read
    cases same
    rfl
  case h_18 =>
    split at read
    · exact readThree_codeFits (fun _ _ _ => rfl) read
    · exact readTwo_codeFits (fun _ _ => rfl) read
    · cases read
  all_goals
    first
    | exact readTwo_codeFits (fun _ _ => rfl) read
    | exact readThree_codeFits (fun _ _ _ => rfl) read

theorem readInstructions_spec {count : Nat} {input rest : Bytes} {instructions : List Instruction}
    (read : readInstructions count input = .ok (instructions, rest)) :
    instructions.length = count ∧ ∀ instruction ∈ instructions, codeFits instruction = true := by
  induction count generalizing input instructions with
  | zero =>
      cases read
      simp
  | succ count ih =>
      simp only [readInstructions, bind_eq_ok, Prod.exists] at read
      obtain ⟨_, _, -, _, _, -, -, -, _, _, -, _, _, -, instruction, _, first, -, -, others, _, tail,
        same⟩ := read
      cases same
      obtain ⟨length, fits⟩ := ih tail
      refine ⟨by simp [length], fun other member => ?_⟩
      rcases List.mem_cons.mp member with rfl | inTail
      · exact readInstruction_codeFits first
      · exact fits other inTail

/-- What a decoded program guarantees. -/
structure Loaded (program : Program) (claims : LimitPolicy) : Prop where
  /-- The returned type was decoded. -/
  result : program.resultType.Formed 16 ∧
    program.resultType.descriptor.length ≤ maxDescriptorBytes
  /-- The register types were decoded. -/
  registers : ∀ ty ∈ program.registerTypes, ty.Formed 16
  /-- Table identities are not reserved. -/
  tables : ∀ table ∈ program.tables, table.id ≠ 0 ∧ table.id < maxU64
  /-- Tables have distinct identities. -/
  distinct : (program.tables.map (·.id)).Nodup
  /-- The number of instructions fits its format. -/
  count : program.instructions.length ≤ 65535
  /-- User codes fit 32 bits. -/
  codes : ∀ instruction ∈ program.instructions, codeFits instruction = true
  /-- The program verifies over accepted pools. -/
  certified : ∃ argumentTypes constantTypes facts, Accepted argumentTypes program.arguments ∧
    Accepted constantTypes program.constants ∧
    Certificate program argumentTypes constantTypes claims facts

/-- The counts of a header fit their fields. -/
structure Header.Fits (header : Header) : Prop where
  instructions : 1 ≤ header.instructions ∧ header.instructions ≤ 65535
  registers : header.registers ≤ 65535
  arguments : header.arguments ≤ 65535
  tables : header.tables ≤ 65535
  constants : header.constants ≤ 65535

theorem header_fits {bytes rest : Bytes} {header : Header}
    (read : Program.header bytes = .ok (header, rest)) : header.Fits := by
  simp only [Program.header, bind_eq_ok, refuse_eq_ok, Prod.exists] at read
  obtain ⟨-, -, _, _, -, -, -, _, _, -, -, -, _, _, -, -, -, _, _, -, -, -, _, _, registers, _, _,
    arguments, _, _, tables, _, _, constants, count, _, -, -, range, _, _, -, -, -, same⟩ := read
  cases same
  exact ⟨by simpa using range, Nat.le_of_lt_succ (readUint_lt registers),
    Nat.le_of_lt_succ (readUint_lt arguments), Nat.le_of_lt_succ (readUint_lt tables),
    Nat.le_of_lt_succ (readUint_lt constants)⟩

/-- Every decoded program is loaded with its resolved tables. -/
theorem decode_loaded {programBytes argumentBytes : Bytes} {tables : List Table}
    {claims : LimitPolicy} {program : Program}
    (decoded : Program.decode programBytes argumentBytes tables claims = .ok program) :
    Loaded program claims ∧ program.tables = tables := by
  simp only [Program.decode, bind_eq_ok, refuse_eq_ok, Prod.exists] at decoded
  obtain ⟨header, _, head, -, -, -, -, -, -, -, -, -, -, -, -, descriptor, _, -, resultType, result,
    ids, _, tableIds, -, same, argumentTypes, _, -, registerTypes, _, registers, constants, _, pool,
    instructions, _, code, -, -, count, _, -, -, -, arguments, _, values, -, -, ⟨⟩, verified,
    built⟩ := decoded
  simp only [pure_eq_ok, Except.ok.injEq] at built
  subst built
  obtain ⟨least, most⟩ := (header_fits head).instructions
  obtain ⟨length, codes⟩ := readInstructions_spec code
  obtain ⟨-, formed, short⟩ := Ty.decode_sound result
  have nonempty : 0 < instructions.length := by omega
  obtain ⟨facts, certificate⟩ := verify_certificate nonempty verified
  simp only [readTables, bind_eq_ok, Prod.exists] at tableIds
  obtain ⟨_, _, -, _, listed, renamed⟩ := tableIds
  cases renamed
  have same := not_not.mp same
  refine ⟨⟨⟨formed, short⟩, fun ty member => ((readTypes_described registers).2 ty member).formed, fun table member => ?_, ?_, ?_, codes,
    argumentTypes, constants.map (·.1), facts, readArguments_accepted values,
    readConstants_accepted pool, certificate⟩, rfl⟩
  · refine readTableIds_valid listed ?_
    rw [same]
    exact List.mem_map_of_mem member
  · exact same ▸ (readTableIds_increasing listed).1.imp fun less => less.ne
  · simp only
    omega

end BlopDb.Vm.Program
