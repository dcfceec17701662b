/-
# Code the verifier takes

Every step of the compiler appends a region of instructions that verifies in each
program the compilation can still end in: one whose pools extend those of the compiler
and whose tables have the declared shapes.  A step needs some registers initialized and
gives others; the locals and captures in scope stay initialized throughout.
-/

import BlopDb.Lib.Regions
import BlopDb.Macros.Invariant
import BlopDb.Macros.Shapes
import Mathlib.Order.BooleanAlgebra.Basic

namespace BlopDb.Macros

open BlopDb.Lib
open Vm (Ty)
open Vm.Program (Initialized markInitialized)

/-- The largest limits a program can claim. -/
def ceilings : Storage.LimitPolicy := ⟨Storage.limitCeilings, rfl, by decide⟩

/-! ## Programs the compilation can end in -/

/-- A program of the machine with the types of its arguments and constants, and the
position of every declared table. -/
structure Setting where
  machine : Vm.Program
  arguments : List Ty
  constants : List Ty
  slot : Nat → Nat

/-- The table at a position has the declared shapes. -/
def Setting.Shaped (setting : Setting) (table : TableInfo) : Prop :=
  ∃ resolved, setting.machine.tables[setting.slot table.index]? = some resolved ∧
    resolved.key.sameShape table.key = true ∧ resolved.value.sameShape table.value = true

/-- The program extends what the compiler has so far. -/
structure Setting.Fulfils (setting : Setting) (compiler : Compiler) : Prop where
  registers : compiler.registers <+: setting.machine.registerTypes
  constants : compiler.constants.map Prod.fst <+: setting.constants
  result : ∀ ty, compiler.result = some ty → setting.machine.resultType.sameShape ty = true
  tables : ∀ name table, compiler.tables name = some table → setting.Shaped table

/-- A later state of the compiler has at least the pools of an earlier one. -/
structure Compiler.Extends (before after : Compiler) : Prop where
  registers : before.registers <+: after.registers
  constants : before.constants.map Prod.fst <+: after.constants.map Prod.fst
  result : ∀ ty, before.result = some ty → ∃ ty', after.result = some ty' ∧ ty'.sameShape ty = true
  tables : after.tables = before.tables

/-- Nothing came into scope or left it. -/
structure Compiler.Scoped (before after : Compiler) : Prop where
  locals : after.locals = before.locals
  captures : after.captures = before.captures

/-- The scope and the result type stay. -/
structure Compiler.Kept (before after : Compiler) : Prop extends before.Scoped after where
  result : after.result = before.result

theorem getElem?_of_prefix {α : Type} {short long : List α} (more : short <+: long) {index : Nat} {item : α}
    (found : short[index]? = some item) : long[index]? = some item := by
  obtain ⟨inside, rfl⟩ := List.getElem?_eq_some_iff.mp found
  exact List.prefix_iff_getElem?.mp more index inside

section States

variable {compiler middle after : Compiler} {setting : Setting}

theorem Compiler.Extends.refl (compiler : Compiler) : compiler.Extends compiler :=
  ⟨List.prefix_rfl, List.prefix_rfl, fun ty known => ⟨ty, known, sameShape_refl ty⟩, rfl⟩

theorem Compiler.Extends.trans (first : compiler.Extends middle) (second : middle.Extends after) :
    compiler.Extends after where
  registers := first.registers.trans second.registers
  constants := first.constants.trans second.constants
  result := by
    intro ty known
    obtain ⟨ty', known', same⟩ := first.result ty known
    obtain ⟨ty'', known'', same'⟩ := second.result ty' known'
    exact ⟨ty'', known'', sameShape_trans same' same⟩
  tables := second.tables.trans first.tables

theorem Setting.Fulfils.earlier (fulfils : setting.Fulfils after) (extends' : compiler.Extends after) :
    setting.Fulfils compiler where
  registers := extends'.registers.trans fulfils.registers
  constants := extends'.constants.trans fulfils.constants
  result := by
    intro ty known
    obtain ⟨ty', known', same⟩ := extends'.result ty known
    exact sameShape_trans (fulfils.result ty' known') same
  tables := fun name table known => fulfils.tables name table (by rw [extends'.tables, known])

theorem Compiler.Scoped.trans (first : compiler.Scoped middle) (second : middle.Scoped after) :
    compiler.Scoped after :=
  ⟨second.locals.trans first.locals, second.captures.trans first.captures⟩

theorem Compiler.Kept.refl (compiler : Compiler) : compiler.Kept compiler := ⟨⟨rfl, rfl⟩, rfl⟩

theorem Compiler.Kept.trans (first : compiler.Kept middle) (second : middle.Kept after) : compiler.Kept after :=
  ⟨first.toScoped.trans second.toScoped, second.result.trans first.result⟩

/-- The types of registers stay. -/
theorem Compiler.Extends.typed (extends' : compiler.Extends after) {register : Nat} {ty : Ty}
    (typed : compiler.registers[register]? = some ty) : after.registers[register]? = some ty :=
  getElem?_of_prefix extends'.registers typed

theorem Setting.Fulfils.typed (fulfils : setting.Fulfils compiler) {register : Nat} {ty : Ty}
    (typed : compiler.registers[register]? = some ty) : setting.machine.register register = .ok ty := by
  have found : setting.machine.registerTypes[register]? = some ty :=
    getElem?_of_prefix fulfils.registers typed
  rw [Vm.Program.register, Vm.Program.at?, found]

theorem Setting.Fulfils.source (fulfils : setting.Fulfils compiler) {register : Nat} {ty : Ty}
    (typed : compiler.registers[register]? = some ty) {fact : Initialized} (initialized : fact register = true) :
    setting.machine.source fact register = .ok ty := by
  rw [Vm.Program.source, fulfils.typed typed, ok_bind, refuse_of_not _ (by simp [initialized])]
  rfl

end States

/-! ## Emitted code -/

/-- Operands the verifier does not look at are those the reader takes. -/
def Legal : Vm.Instruction → Prop
  | .require _ userCode | .abort userCode => userCode < 2 ^ 32
  | .scan _ _ lower upper flags _ _ =>
      flags ≤ 3 ∧ (lower = none → flags &&& 1 = 0) ∧ (upper = none → flags &&& 2 = 0)
  | _ => True

/-- The encoded form of a legal instruction. -/
structure Encodes (encoded : Instruction) (meaning : Vm.Instruction) : Prop where
  means : Means encoded meaning
  legal : Legal meaning

/-- An instruction verifies wherever the registers of a fact are initialized. -/
def Setting.Passes (setting : Setting) (instruction : Vm.Instruction) (fact out : Initialized) : Prop :=
  ∃ destination, (∀ more, fact ≤ more → setting.machine.verifyInstruction setting.arguments setting.constants
    ceilings more instruction = .ok destination) ∧ out ≤ markInitialized fact destination

/-- A region of verified code. -/
abbrev Setting.Region (setting : Setting) (base : Nat) (code : List Vm.Instruction) (before after : Initialized)
    (leaves : Bool) : Prop :=
  Lib.Region Vm.Instruction.exit setting.Passes base code before after leaves

/-- The locals and the captures are initialized. -/
structure Compiler.Ready (compiler : Compiler) (fact : Initialized) : Prop where
  locals : ∀ name found, compiler.locals name = some found → fact found.register = true
  captures : ∀ name register, compiler.captures name = some register → fact register = true

/-- The later state has appended code that verifies from the needed registers on and, if
control leaves it, initializes the given ones. -/
def Emits (compiler : Compiler) (needs : List Nat) (after : Compiler) (gives : List Nat) (leaves : Bool) : Prop :=
  ∃ encoded meanings, after.instructions = compiler.instructions ++ encoded ∧
    List.Forall₂ Encodes encoded meanings ∧ compiler.Extends after ∧
    ∀ setting : Setting, setting.Fulfils after → ∀ fact, compiler.Ready fact →
      (∀ register ∈ needs, fact register = true) → ∃ later,
        setting.Region compiler.instructions.length (meanings.map (mapTable setting.slot)) fact later leaves ∧
        (leaves = true → fact ≤ later ∧ after.Ready later ∧ ∀ register ∈ gives, later register = true)

section Emits

variable {compiler middle after : Compiler} {needs gives gives' : List Nat} {leaves : Bool}

theorem le_initialized {fact more : Initialized} (le : fact ≤ more) {register : Nat}
    (initialized : fact register = true) : more register = true :=
  Bool.le_iff_imp.mp (le register) initialized

theorem Compiler.Ready.inScope {fact : Initialized} (ready : compiler.Ready fact) (within : compiler.Scoped after) :
    after.Ready fact :=
  ⟨by rw [within.locals]; exact ready.locals, by rw [within.captures]; exact ready.captures⟩

theorem Compiler.Ready.more {fact more : Initialized} (ready : compiler.Ready fact) (le : fact ≤ more) :
    compiler.Ready more :=
  ⟨fun name found known => le_initialized le (ready.locals name found known),
    fun name register known => le_initialized le (ready.captures name register known)⟩

theorem Emits.extends (emits : Emits compiler needs after gives leaves) : compiler.Extends after := by
  obtain ⟨_, _, -, -, more, -⟩ := emits
  exact more

/-- A step that emits nothing. -/
theorem Emits.still (more : compiler.Extends after) (same : after.instructions = compiler.instructions)
    (leaves : ∀ fact, compiler.Ready fact → (∀ register ∈ needs, fact register = true) →
      after.Ready fact ∧ ∀ register ∈ gives, fact register = true) : Emits compiler needs after gives true :=
  ⟨[], [], by simp [same], .nil, more, fun _ _ fact ready initialized =>
    ⟨fact, .nil, fun _ => ⟨le_rfl, leaves fact ready initialized⟩⟩⟩

/-- A step that emits nothing and keeps the scope. -/
theorem Emits.silent (more : compiler.Extends after) (within : compiler.Scoped after)
    (same : after.instructions = compiler.instructions)
    (given : ∀ register ∈ gives, register ∈ needs ∨ ∀ fact, compiler.Ready fact → fact register = true) :
    Emits compiler needs after gives true := by
  refine .still more same fun fact ready initialized => ⟨ready.inScope within, fun register member => ?_⟩
  rcases given register member with needed | inScope
  · exact initialized register needed
  · exact inScope fact ready

/-- Code followed by code that may use what the first gives. -/
theorem Emits.trans (first : Emits compiler needs middle gives true)
    (second : Emits middle (needs ++ gives) after gives' leaves) : Emits compiler needs after gives' leaves := by
  obtain ⟨encoded, meanings, appended, means, more, verified⟩ := first
  obtain ⟨encoded', meanings', appended', means', more', verified'⟩ := second
  refine ⟨encoded ++ encoded', meanings ++ meanings', by rw [appended', appended, List.append_assoc],
    List.rel_append means means', more.trans more', fun setting fulfils fact ready initialized => ?_⟩
  obtain ⟨later, region, leaving⟩ := verified setting (fulfils.earlier more') fact ready initialized
  obtain ⟨le, ready', given⟩ := leaving rfl
  obtain ⟨last, region', leaving'⟩ := verified' setting fulfils later ready' (by
    simp only [List.mem_append]
    rintro register (needed | member)
    · exact le_initialized le (initialized register needed)
    · exact given register member)
  refine ⟨last, ?_, fun left => ?_⟩
  · rw [List.map_append]
    refine region.append ?_
    rw [List.length_map, ← means.length_eq]
    rwa [appended, List.length_append] at region'
  · obtain ⟨le', ready'', given'⟩ := leaving' left
    exact ⟨le.trans le', ready'', given'⟩

/-- More registers may be needed, and fewer or needed ones given. -/
theorem Emits.weaken (emits : Emits compiler needs after gives leaves) {needs' : List Nat}
    (more : needs ⊆ needs') (fewer : gives' ⊆ needs' ++ gives) : Emits compiler needs' after gives' leaves := by
  obtain ⟨encoded, meanings, appended, means, extended, verified⟩ := emits
  refine ⟨encoded, meanings, appended, means, extended, fun setting fulfils fact ready initialized => ?_⟩
  obtain ⟨later, region, leaving⟩ := verified setting fulfils fact ready fun register member =>
    initialized register (more member)
  refine ⟨later, region, fun left => ?_⟩
  obtain ⟨le, ready', given⟩ := leaving left
  refine ⟨le, ready', fun register member => ?_⟩
  rcases List.mem_append.mp (fewer member) with needed | member
  · exact le_initialized le (initialized register needed)
  · exact given register member

/-- Locals that left the scope are forgotten. -/
theorem Emits.restore (emits : Emits compiler needs middle gives leaves)
    (captures : middle.captures = compiler.captures) :
    Emits compiler needs { middle with locals := compiler.locals } gives leaves := by
  obtain ⟨encoded, meanings, appended, means, more, verified⟩ := emits
  refine ⟨encoded, meanings, appended, means, ⟨more.registers, more.constants, more.result, more.tables⟩,
    fun setting fulfils fact ready initialized => ?_⟩
  obtain ⟨later, region, leaving⟩ := verified setting
    ⟨fulfils.registers, fulfils.constants, fulfils.result, fulfils.tables⟩ fact ready initialized
  refine ⟨later, region, fun left => ?_⟩
  obtain ⟨le, -, given⟩ := leaving left
  exact ⟨le, (ready.more le).inScope ⟨rfl, captures⟩, given⟩

/-- Nothing is said of the state where control does not get. -/
theorem Emits.finish (emits : Emits compiler needs middle gives false) (more : middle.Extends after)
    (same : after.instructions = middle.instructions) : Emits compiler needs after gives' false := by
  obtain ⟨encoded, meanings, appended, means, more', verified⟩ := emits
  refine ⟨encoded, meanings, same.trans appended, means, more'.trans more,
    fun setting fulfils fact ready initialized => ?_⟩
  obtain ⟨later, region, -⟩ := verified setting (fulfils.earlier more) fact ready initialized
  exact ⟨later, region, by simp⟩

theorem exit_mapTable (rename : Nat → Nat) (instruction : Vm.Instruction) :
    (mapTable rename instruction).exit = instruction.exit := by
  cases instruction <;> rfl

theorem le_markInitialized (fact : Initialized) (destination : Option Nat) :
    fact ≤ markInitialized fact destination := by
  intro register
  cases destination with
  | none => exact le_rfl
  | some destination =>
      rw [Bool.le_iff_imp, markInitialized]
      intro initialized
      by_cases same : register = destination
      · rw [same, Function.update_self]
      · rwa [Function.update_of_ne same]

/-- The compiler with one more instruction. -/
def Compiler.with (compiler : Compiler) (instruction : Instruction) : Compiler :=
  { compiler with instructions := compiler.instructions ++ [instruction] }

theorem Compiler.extends_with (compiler : Compiler) (instruction : Instruction) :
    compiler.Extends (compiler.with instruction) :=
  ⟨List.prefix_rfl, List.prefix_rfl, fun ty known => ⟨ty, known, sameShape_refl ty⟩, rfl⟩

theorem Compiler.kept_with (compiler : Compiler) (instruction : Instruction) :
    compiler.Kept (compiler.with instruction) :=
  ⟨⟨rfl, rfl⟩, rfl⟩

/-- The instructions do not matter to the pools. -/
theorem Compiler.Extends.recoded {code code' : List Instruction}
    (more : Compiler.Extends { compiler with instructions := code } after) :
    compiler.Extends { after with instructions := code' } :=
  ⟨more.registers, more.constants, more.result, more.tables⟩

theorem Setting.Fulfils.recoded {setting : Setting} {code : List Instruction}
    (fulfils : setting.Fulfils { compiler with instructions := code }) : setting.Fulfils compiler :=
  ⟨fulfils.registers, fulfils.constants, fulfils.result, fulfils.tables⟩

/-- An instruction verifies with the needed registers and initializes its destination. -/
def Verifies (compiler : Compiler) (needs : List Nat) (meaning : Vm.Instruction) (destination : Option Nat) :
    Prop :=
  ∀ setting : Setting, setting.Fulfils compiler → ∀ fact : Initialized,
    (∀ register ∈ needs, fact register = true) →
    setting.machine.verifyInstruction setting.arguments setting.constants ceilings fact
      (mapTable setting.slot meaning) = .ok destination

theorem Verifies.passes {meaning : Vm.Instruction} {destination : Option Nat}
    (verifies : Verifies compiler needs meaning destination) {setting : Setting}
    (fulfils : setting.Fulfils compiler) {fact : Initialized}
    (initialized : ∀ register ∈ needs, fact register = true) :
    setting.Passes (mapTable setting.slot meaning) fact (markInitialized fact destination) :=
  ⟨destination, fun more le => verifies setting fulfils more fun register member =>
    le_initialized le (initialized register member), le_rfl⟩

/-- An instruction that is followed by the next one. -/
theorem Emits.instruction {instruction : Instruction} {meaning : Vm.Instruction} {destination : Option Nat}
    (means : Encodes instruction meaning) (falls : meaning.exit = .next)
    (verifies : Verifies compiler needs meaning destination) :
    Emits compiler needs (compiler.with instruction) destination.toList true := by
  refine ⟨[instruction], [meaning], rfl, .cons means .nil, compiler.extends_with instruction,
    fun setting fulfils fact ready initialized => ?_⟩
  have le := le_markInitialized fact destination
  refine ⟨markInitialized fact destination, .next (by rw [exit_mapTable, falls])
    (verifies.passes fulfils.recoded initialized), fun _ => ⟨le, ?_, ?_⟩⟩
  · exact (ready.more le).inScope ⟨rfl, rfl⟩
  · intro register member
    cases destination with
    | none => cases member
    | some destination =>
        cases List.mem_singleton.mp member
        exact Function.update_self ..

/-- An instruction that ends the program. -/
theorem Emits.final {instruction : Instruction} {meaning : Vm.Instruction}
    (means : Encodes instruction meaning) (stops : meaning.exit = .stop)
    (verifies : Verifies compiler needs meaning none) :
    Emits compiler needs (compiler.with instruction) [] false := by
  refine ⟨[instruction], [meaning], rfl, .cons means .nil, compiler.extends_with instruction,
    fun setting fulfils fact ready initialized => ?_⟩
  exact ⟨fact, .stop (by rw [exit_mapTable, stops]) (verifies.passes fulfils.recoded initialized), by simp⟩

/-! ## Branches -/

/-- A jump whose target is filled later. -/
def pendingJump : Option Nat → Instruction
  | none => ⟨0x60, leBytes 4 0, none, none⟩
  | some condition => ⟨0x61, operandBytes [condition] ++ leBytes 4 0, none, none⟩

/-- The jump with its target. -/
def filledJump (target : Nat) : Option Nat → Instruction
  | none => ⟨0x60, leBytes 4 target, none, none⟩
  | some condition => ⟨0x61, operandBytes [condition] ++ leBytes 4 target, none, none⟩

/-- The instruction a filled jump stands for. -/
def jumpTo (target : Nat) : Option Nat → Vm.Instruction
  | none => .jump target
  | some condition => .jumpIfFalse condition target

theorem means_filledJump (target : Nat) (condition : Option Nat) :
    Encodes (filledJump target condition) (jumpTo target condition) := by
  cases condition <;> exact ⟨⟨rfl, rfl, rfl⟩, trivial⟩

theorem push_run {instruction : Instruction} {index : Nat} {after : Compiler}
    (ran : push instruction compiler = .ok (index, after)) :
    index = compiler.instructions.length ∧ after = compiler.with instruction := by
  simp only [push, bind_eq_ok, pure_eq_ok, Except.ok.injEq, Prod.mk.injEq] at ran
  obtain ⟨_, pooled, rfl, rfl⟩ := ran
  exact ⟨(poolIndex_eq_ok.mp pooled).2.symm, rfl⟩

theorem jump_eq_ok {condition : Option Nat} {index : Nat} (ran : jump condition compiler = .ok (index, after)) :
    index = compiler.instructions.length ∧ after = compiler.with (pendingJump condition) := by
  have pushes : jump condition = push (pendingJump condition) := by
    cases condition with
    | none => exact (push_extendOperands ⟨0x60, [], none, none⟩ (leBytes 4 0) pure).trans (bind_pure _)
    | some condition =>
        exact (push_extendOperands ⟨0x61, operandBytes [condition], none, none⟩ (leBytes 4 0) pure).trans
          (bind_pure _)
  rw [pushes] at ran
  exact push_run ran

/-- Filling a jump replaces it in place. -/
theorem patchJump_eq_ok {condition : Option Nat} {left right : List Instruction}
    (placed : middle.instructions = left ++ pendingJump condition :: right)
    (ran : patchJump left.length middle = .ok ((), after)) :
    after = { middle with
      instructions := left ++ filledJump middle.instructions.length condition :: right } := by
  have found : middle.instructions[left.length]? = some (pendingJump condition) := by
    rw [placed, List.getElem?_append_right le_rfl, Nat.sub_self, List.getElem?_cons_zero]
  simp only [patchJump, found] at ran
  split_ifs at ran with short
  simp only [Except.ok.injEq, Prod.mk.injEq, true_and] at ran
  rw [← ran, placed, List.set_append_right _ _ le_rfl, Nat.sub_self, List.set_cons_zero]
  congr 3
  cases condition with
  | none =>
      simp only [pendingJump, filledJump, Instruction.mk.injEq, true_and, and_true, length_leBytes, Nat.sub_self]
      exact overwrite_self (by simp)
  | some condition =>
      simp only [pendingJump, filledJump, Instruction.mk.injEq, true_and, and_true]
      rw [overwrite_append_right _ _ (by simp), List.length_append, length_leBytes, Nat.add_sub_cancel,
        Nat.sub_self, overwrite_self (by simp)]

/-- Filling a jump keeps the pools and the scope. -/
theorem patchJump_run {index : Nat} (ran : patchJump index compiler = .ok ((), after)) :
    compiler.Extends after ∧ compiler.Kept after := by
  unfold patchJump at ran
  split at ran
  · cases ran
  · split_ifs at ran
    cases ran
    exact ⟨(Compiler.Extends.refl compiler).recoded, ⟨rfl, rfl⟩, rfl⟩

/-- A register of a type with the shape of another. -/
def Compiler.Typed (compiler : Compiler) (register : Nat) (shape : Ty) : Prop :=
  ∃ ty, compiler.registers[register]? = some ty ∧ ty.sameShape shape = true

theorem Compiler.Typed.later {register : Nat} {shape : Ty} (typed : compiler.Typed register shape)
    (more : compiler.Extends after) : after.Typed register shape := by
  obtain ⟨ty, known, same⟩ := typed
  exact ⟨ty, more.typed known, same⟩

theorem sameShape_eq_ok {left right : Ty} (same : left.sameShape right = true) :
    Vm.Program.sameShape left right = .ok () :=
  refuse_of_not _ (by simp [same])

/-- A conditional jump passes with the same registers. -/
theorem passes_jumpIfFalse {condition target : Nat} (typed : compiler.Typed condition .boolean)
    (needed : condition ∈ needs) {setting : Setting} (fulfils : setting.Fulfils compiler) {fact : Initialized}
    (initialized : ∀ register ∈ needs, fact register = true) :
    setting.Passes (.jumpIfFalse condition target) fact fact := by
  obtain ⟨ty, known, same⟩ := typed
  refine ⟨none, fun more le => ?_, le_rfl⟩
  have source := fulfils.source known (le_initialized le (initialized condition needed))
  have shape := sameShape_eq_ok (sameShape_symm same)
  simp only [Vm.Program.verifyInstruction, source, ok_bind, shape, pure_eq_ok]

theorem passes_jump (setting : Setting) (target : Nat) (fact : Initialized) :
    setting.Passes (.jump target) fact fact :=
  ⟨none, fun _ _ => rfl, le_rfl⟩

/-- A branch around code. -/
theorem Emits.around {condition : Nat} (typed : compiler.Typed condition .boolean) (needed : condition ∈ needs)
    (inner : Emits (compiler.with (pendingJump (some condition))) needs middle gives leaves)
    (within : compiler.Scoped middle)
    (patched : patchJump compiler.instructions.length middle = .ok ((), after)) :
    Emits compiler needs after [] true := by
  obtain ⟨encoded, meanings, appended, means, more, verified⟩ := inner
  have placed : middle.instructions = compiler.instructions ++ pendingJump (some condition) :: encoded := by
    rw [appended, Compiler.with, List.append_assoc, List.singleton_append]
  obtain rfl := patchJump_eq_ok placed patched
  have target : middle.instructions.length = compiler.instructions.length + 1 + meanings.length := by
    rw [placed, List.length_append, List.length_cons, means.length_eq]
    omega
  have extended : compiler.Extends { middle with
      instructions := compiler.instructions ++
        filledJump middle.instructions.length (some condition) :: encoded } := more.recoded
  refine ⟨_, _, rfl, .cons (means_filledJump _ _) means, extended,
    fun setting fulfils fact ready initialized => ⟨fact, ?_, fun _ => ⟨le_rfl, ready.inScope ⟨within.locals, within.captures⟩, by simp⟩⟩⟩
  obtain ⟨later, region, leaving⟩ := verified setting fulfils.recoded fact (ready.inScope ⟨rfl, rfl⟩) initialized
  rw [Compiler.with, List.length_append, List.length_singleton] at region
  refine Lib.Region.branch ?_ ?_ (region.weaken le_rfl fun left => (leaving left).1)
  · rw [List.length_map, exit_mapTable, target]
    rfl
  · exact passes_jumpIfFalse typed needed (fulfils.earlier extended) initialized

/-- A branch to an alternative behind a jump. -/
theorem Emits.alternatives {condition : Nat} {first second third : Compiler} {leaves' : Bool}
    (typed : compiler.Typed condition .boolean) (needed : condition ∈ needs)
    (inner : Emits (compiler.with (pendingJump (some condition))) needs first gives true)
    (within : compiler.Scoped first)
    (patched : patchJump compiler.instructions.length (first.with (pendingJump none)) = .ok ((), second))
    (other : Emits second needs third gives' leaves') (within' : second.Scoped third)
    (patched' : patchJump first.instructions.length third = .ok ((), after)) :
    Emits compiler needs after [] true := by
  obtain ⟨encoded, meanings, appended, means, more, verified⟩ := inner
  obtain ⟨encoded', meanings', appended', means', more', verified'⟩ := other
  have start : first.instructions = compiler.instructions ++ pendingJump (some condition) :: encoded := by
    rw [appended, Compiler.with, List.append_assoc, List.singleton_append]
  have placed : (first.with (pendingJump none)).instructions =
      compiler.instructions ++ pendingJump (some condition) :: (encoded ++ [pendingJump none]) := by
    rw [Compiler.with, start, List.append_assoc, List.cons_append]
  obtain rfl := patchJump_eq_ok placed patched
  have branchTarget : (first.with (pendingJump none)).instructions.length =
      compiler.instructions.length + 1 + meanings.length + 1 := by
    rw [placed, List.length_append, List.length_cons, List.length_append, means.length_eq,
      List.length_singleton]
    omega
  have length : (compiler.instructions ++ filledJump (first.with (pendingJump none)).instructions.length
      (some condition) :: encoded).length = first.instructions.length := by
    rw [start, List.length_append, List.length_append, List.length_cons, List.length_cons]
  have placed' : third.instructions = (compiler.instructions ++
      filledJump (first.with (pendingJump none)).instructions.length (some condition) :: encoded) ++
        pendingJump none :: encoded' := by
    rw [appended']
    simp only [List.append_assoc, List.cons_append, List.nil_append]
  rw [← length] at patched'
  obtain rfl := patchJump_eq_ok placed' patched'
  have jumpTarget : third.instructions.length =
      compiler.instructions.length + 1 + meanings.length + 1 + meanings'.length := by
    rw [placed', List.length_append, length, start, List.length_append, List.length_cons, List.length_cons,
      means.length_eq, means'.length_eq]
    omega
  have extended : compiler.Extends third := more.recoded.trans more'.recoded
  refine ⟨filledJump (first.with (pendingJump none)).instructions.length (some condition) ::
      (encoded ++ filledJump third.instructions.length none :: encoded'), _, ?_,
    .cons (means_filledJump _ _) (List.rel_append means (.cons (means_filledJump _ _) means')),
    extended.recoded, fun setting fulfils fact ready initialized => ⟨fact, ?_, fun _ => ⟨le_rfl, ?_, by simp⟩⟩⟩
  · simp only [List.append_assoc, List.cons_append]
  · have fulfils' := fulfils.recoded
    obtain ⟨later, region, leaving⟩ := verified setting (fulfils'.earlier more').recoded.recoded fact
      (ready.inScope ⟨rfl, rfl⟩) initialized
    obtain ⟨later', region', leaving'⟩ := verified' setting fulfils' fact (ready.inScope ⟨within.locals, within.captures⟩) initialized
    rw [Compiler.with, List.length_append, List.length_singleton] at region
    have position : (compiler.instructions ++ filledJump (first.with (pendingJump none)).instructions.length
        (some condition) :: (encoded ++ [pendingJump none])).length =
          compiler.instructions.length + 1 + (meanings.map (mapTable setting.slot)).length + 1 := by
      rw [List.length_map, ← branchTarget, placed]
      simp only [List.length_append, List.length_cons]
    rw [position] at region'
    rw [List.map_cons, List.map_append, List.map_cons]
    refine Lib.Region.alternatives ?_ ?_ ?_ (passes_jump setting _ fact)
      (region.weaken le_rfl fun left => (leaving left).1)
      (region'.weaken le_rfl fun left => (leaving' left).1)
    · rw [List.length_map, exit_mapTable, branchTarget]
      rfl
    · rw [List.length_map, List.length_map, exit_mapTable, jumpTarget]
      rfl
    · exact passes_jumpIfFalse typed needed (fulfils'.earlier extended) initialized
  · exact ready.inScope ⟨within'.locals.trans within.locals, within'.captures.trans within.captures⟩

end Emits

/-! ## Steps -/

section Steps

variable {α β : Type}

/-- Every successful run of a step emits code and ends in a state of which a property
holds. -/
def Codes (compiler : Compiler) (needs : List Nat) (step : CompileM α) (gives : α → List Nat)
    (leaves : α → Bool) (holds : α → Compiler → Prop) : Prop :=
  ∀ value after, step compiler = .ok (value, after) →
    Emits compiler needs after (gives value) (leaves value) ∧ holds value after

variable {compiler : Compiler} {needs : List Nat} {step : CompileM α} {next : α → CompileM β}
  {gives : α → List Nat} {gives' : β → List Nat} {leaves : β → Bool} {holds : α → Compiler → Prop}
  {holds' : β → Compiler → Prop}

theorem bind_run {after : Compiler} {value : β} :
    (step >>= next) compiler = .ok (value, after) ↔
      ∃ first middle, step compiler = .ok (first, middle) ∧ next first middle = .ok (value, after) := by
  rw [Lockstep.bind_apply, bind_eq_ok, Prod.exists]

theorem Codes.bind (first : Codes compiler needs step gives (fun _ => true) holds)
    (continues : ∀ value middle, compiler.Extends middle → holds value middle →
      Codes middle (needs ++ gives value) (next value) gives' leaves holds') :
    Codes compiler needs (step >>= next) gives' leaves holds' := by
  intro value after ran
  obtain ⟨result, middle, here, rest⟩ := bind_run.mp ran
  obtain ⟨emits, held⟩ := first result middle here
  obtain ⟨emits', held'⟩ := continues result middle emits.extends held value after rest
  exact ⟨emits.trans emits', held'⟩

/-- A step that only looks at the state. -/
theorem Codes.read {known : α → Prop}
    (reads : ∀ value after, step compiler = .ok (value, after) → after = compiler ∧ known value)
    (continues : ∀ value, known value → Codes compiler needs (next value) gives' leaves holds') :
    Codes compiler needs (step >>= next) gives' leaves holds' := by
  intro value after ran
  obtain ⟨result, middle, here, rest⟩ := bind_run.mp ran
  obtain ⟨rfl, found⟩ := reads result middle here
  exact continues result found value after rest

theorem Codes.get {next : Compiler → CompileM β} (continues : Codes compiler needs (next compiler) gives' leaves holds') :
    Codes compiler needs (get >>= next) gives' leaves holds' := by
  intro value after ran
  exact continues value after ran

theorem lift_run {result : Except CompileError α} {value : α} {after : Compiler}
    (ran : Macros.lift result compiler = .ok (value, after)) : after = compiler ∧ result = .ok value := by
  cases result with
  | error error => cases ran
  | ok found =>
      cases ran
      exact ⟨rfl, rfl⟩

theorem Codes.lift {result : Except CompileError α}
    (continues : ∀ value, result = .ok value → Codes compiler needs (next value) gives' leaves holds') :
    Codes compiler needs (Macros.lift result >>= next) gives' leaves holds' :=
  .read (fun _ _ ran => lift_run ran) continues

theorem Codes.reject {bad : Prop} [Decidable bad] {error : CompileError} {next : Unit → CompileM β}
    (continues : ¬ bad → Codes compiler needs (next ()) gives' leaves holds') :
    Codes compiler needs (Macros.reject bad error >>= next) gives' leaves holds' := by
  refine @Codes.read _ _ _ _ _ _ _ _ _ (fun _ => ¬ bad) (fun _ after ran => ?_) fun _ => continues
  unfold Macros.reject at ran
  split_ifs at ran with fails
  cases ran
  exact ⟨rfl, fails⟩

theorem Codes.orFail {value : Option α} {error : CompileError}
    (continues : ∀ found, value = some found → Codes compiler needs (next found) gives' leaves holds') :
    Codes compiler needs (Macros.orFail value error >>= next) gives' leaves holds' := by
  refine .read (fun found after ran => ?_) continues
  cases value with
  | none => cases ran
  | some known =>
      cases ran
      exact ⟨rfl, rfl⟩

theorem tyOf_run {register : Nat} {ty : Ty} {after : Compiler}
    (ran : Macros.tyOf register compiler = .ok (ty, after)) :
    after = compiler ∧ compiler.registers[register]? = some ty := by
  unfold Macros.tyOf at ran
  split at ran
  · rename_i found
    cases ran
    exact ⟨rfl, found⟩
  · cases ran

theorem Codes.tyOf {register : Nat} {next : Ty → CompileM β}
    (continues : ∀ ty, compiler.registers[register]? = some ty →
      Codes compiler needs (next ty) gives' leaves holds') :
    Codes compiler needs (Macros.tyOf register >>= next) gives' leaves holds' :=
  .read (fun _ _ ran => tyOf_run ran) continues

/-- A last change of the state that emits nothing. -/
theorem Codes.modified {change : Compiler → Compiler} {holds : Unit → Compiler → Prop}
    (more : compiler.Extends (change compiler)) (same : (change compiler).instructions = compiler.instructions)
    (ready : ∀ fact, compiler.Ready fact → (∀ register ∈ needs, fact register = true) →
      (change compiler).Ready fact) (held : holds () (change compiler)) :
    Codes compiler needs (modify change : CompileM Unit) (fun _ => []) (fun _ => true) holds := by
  rintro _ _ ⟨⟩
  exact ⟨.still more same fun fact inScope initialized =>
    ⟨ready fact inScope initialized, List.forall_mem_nil _⟩, held⟩

/-- A change of the state that emits nothing. -/
theorem Codes.modify {change : Compiler → Compiler} {next : Unit → CompileM β}
    (more : compiler.Extends (change compiler)) (same : (change compiler).instructions = compiler.instructions)
    (ready : ∀ fact, compiler.Ready fact → (∀ register ∈ needs, fact register = true) →
      (change compiler).Ready fact)
    (continues : Codes (change compiler) needs (next ()) gives' leaves holds') :
    Codes compiler needs (modify change >>= next) gives' leaves holds' := by
  intro value after ran
  obtain ⟨emits, held⟩ := continues value after ran
  have still : Emits compiler needs (change compiler) [] true :=
    .still more same fun fact inScope initialized => ⟨ready fact inScope initialized, List.forall_mem_nil _⟩
  exact ⟨still.trans (by rwa [List.append_nil]), held⟩

theorem Codes.pure {value : α} {leaves : α → Bool} (falls : leaves value = true)
    (given : ∀ register ∈ gives value, register ∈ needs ∨ ∀ fact, compiler.Ready fact → fact register = true)
    (held : holds value compiler) : Codes compiler needs (Pure.pure value) gives leaves holds := by
  rintro _ _ ⟨⟩
  rw [falls]
  exact ⟨.silent (.refl compiler) ⟨rfl, rfl⟩ rfl given, held⟩

theorem Codes.fail {error : CompileError} {leaves : α → Bool} :
    Codes compiler needs (Macros.fail error) gives leaves holds := by
  rintro _ _ ⟨⟩

theorem Codes.weaken {needs' : List Nat} {gives' : α → List Nat} {leaves : α → Bool}
    {holds' : α → Compiler → Prop} (codes : Codes compiler needs step gives leaves holds) (more : needs ⊆ needs')
    (fewer : ∀ value, gives' value ⊆ needs' ++ gives value)
    (implies : ∀ value after, compiler.Extends after → holds value after → holds' value after) :
    Codes compiler needs' step gives' leaves holds' := by
  intro value after ran
  obtain ⟨emits, held⟩ := codes value after ran
  exact ⟨emits.weaken more (fewer value), implies value after emits.extends held⟩

end Steps

end BlopDb.Macros
