/-
# Compiled programs verify

The captures and the body of a program make one region, which control does not leave.
Its instructions fit their encodings, since the verifier has looked up every operand,
and the forward pass of the verifier accepts them.
-/

import BlopDb.Macros.Agreement
import BlopDb.Macros.StatementVerified
import BlopDb.Vm.ProgramSound

namespace BlopDb.Macros

open BlopDb.Lib
open Vm (Ty Value)
open Vm.Program (Initialized markInitialized)

variable {compiler : Compiler}

/-! ## Bodies -/

/-- The compiler with the result type that is laid out. -/
def Compiler.settled (compiler : Compiler) : Compiler :=
  { compiler with result := some (compiler.result.getD .unit) }

theorem Compiler.extends_settled (compiler : Compiler) : compiler.Extends compiler.settled := by
  refine ⟨List.prefix_rfl, List.prefix_rfl, fun ty known => ⟨ty, ?_, sameShape_refl ty⟩, rfl⟩
  rw [Compiler.settled, known, Option.getD_some]

/-- A body returns, or it returns unit at its end. -/
theorem emits_compileBody {body : List Statement} {after : Compiler}
    (ran : compileBody body compiler = .ok ((), after)) : Emits compiler [] after.settled [] false := by
  obtain ⟨terminated, middle, blocked, ran⟩ := bind_run.mp ran
  obtain ⟨emits, -⟩ := proceeds_compileBlock (opens_statements body compiler []) terminated middle blocked
  cases terminated with
  | true =>
      cases ran
      exact emits.finish (Compiler.extends_settled _) rfl
  | false =>
      obtain ⟨_, _, ⟨⟩, ran⟩ := bind_run.mp ran
      obtain ⟨⟨⟩, _, checked, ran⟩ := bind_run.mp ran
      unfold reject at checked
      split_ifs at checked with plain
      cases checked
      obtain ⟨unit, third, loaded, ran⟩ := bind_run.mp ran
      obtain ⟨index, last, pushed, ran⟩ := bind_run.mp ran
      cases ran
      obtain ⟨-, rfl⟩ := push_run pushed
      obtain ⟨emits', typed, kept⟩ := codes_constant .unit [] unit third loaded
      have isUnit : third.result.getD .unit = .unit := by
        rw [kept.result]
        cases known : middle.result with
        | none => rfl
        | some ty => simpa [known] using plain
      have still : Emits third [unit] third.settled [unit] true :=
        .still third.extends_settled rfl fun fact ready initialized =>
          ⟨ready.inScope ⟨rfl, rfl⟩, initialized⟩
      refine (emits.trans emits').trans (Emits.trans (still : Emits third ([] ++ [] ++ [unit]) _ _ _)
        (@Emits.final _ _ _ (.return unit) ⟨⟨rfl, rfl, rfl⟩, trivial⟩ rfl
          fun setting fulfils fact initialized => ?_))
      have shape := fulfils.result _ rfl
      rw [isUnit] at shape
      have typed' : third.settled.registers[unit]? = some .unit := typed
      have read := fulfils.source typed' (initialized unit (by simp))
      simp only [mapTable, Vm.Program.verifyInstruction, read, ok_bind, sameShape_eq_ok shape, pure_eq_ok]

/-! ## Captures -/

/-- The captures are loaded from the arguments, in order. -/
theorem region_declareCaptures {captures : List Capture} {position : Nat} {after : Compiler}
    (ran : declareCaptures captures position compiler = .ok ((), after)) :
    ∃ encoded meanings, after.instructions = compiler.instructions ++ encoded ∧
      List.Forall₂ Encodes encoded meanings ∧ compiler.Extends after ∧
      ∀ setting : Setting, setting.Fulfils after →
        (∀ offset capture, captures[offset]? = some capture →
          setting.arguments[position + offset]? = some capture.ty) →
        ∀ fact, compiler.Ready fact → ∃ later, after.Ready later ∧
          setting.Region compiler.instructions.length (meanings.map (mapTable setting.slot)) fact later true := by
  induction captures generalizing compiler position with
  | nil =>
      cases ran
      exact ⟨[], [], by simp, .nil, .refl _, fun _ _ _ fact ready => ⟨fact, ready, .nil⟩⟩
  | cons capture captures ih =>
      obtain ⟨index, start, pooled, ran⟩ := bind_run.mp ran
      obtain ⟨rfl, indexed⟩ := lift_run pooled
      obtain ⟨-, rfl⟩ := poolIndex_eq_ok.mp indexed
      obtain ⟨register, first, allocated, ran⟩ := bind_run.mp ran
      obtain ⟨_, second, pushed, ran⟩ := bind_run.mp ran
      obtain ⟨_, third, ⟨⟩, ran⟩ := bind_run.mp ran
      obtain ⟨-, rfl⟩ := push_run pushed
      obtain ⟨same, rfl⟩ := register_run allocated
      obtain ⟨encoded, meanings, appended, means, more, verified⟩ := ih ran
      refine ⟨⟨0x02, operandBytes [register, position], none, none⟩ :: encoded,
        .arg register position :: meanings, ?_, .cons ⟨⟨rfl, rfl, rfl⟩, trivial⟩ means,
        ⟨(List.prefix_append _ _).trans more.registers, more.constants, more.result, more.tables⟩,
        fun setting fulfils arguments fact ready => ?_⟩
      · simpa [Compiler.with] using appended
      · have argued : setting.arguments[position]? = some capture.ty := arguments 0 capture rfl
        have typed := (fulfils.earlier more).typed (show (start.registers ++ [capture.ty])[register]? = some capture.ty by
          rw [same, List.getElem?_concat_length])
        have passed : setting.Passes (.arg register position) fact (markInitialized fact (some register)) := by
          refine ⟨some register, fun _ _ => ?_, le_rfl⟩
          simp only [Vm.Program.verifyInstruction, Vm.Program.at?, argued, typed, ok_bind,
            sameShape_eq_ok (sameShape_refl capture.ty), pure_eq_ok]
        have ready := ready.more (le_markInitialized fact (some register))
        have marked : markInitialized fact (some register) register = true := Function.update_self ..
        obtain ⟨later, inScope, region⟩ := verified setting fulfils (fun offset other found => by
            have argued := arguments (offset + 1) other found
            rwa [show position + (offset + 1) = position + 1 + offset by omega] at argued)
          (markInitialized fact (some register))
          ⟨forall_update marked ready.locals, forall_update marked ready.captures⟩
        refine ⟨later, inScope, (Lib.Region.next rfl passed).append ?_⟩
        rwa [Compiler.with, List.length_append] at region

/-! ## Programs -/

/-- The program is what was compiled, and its tables have the declared shapes. -/
structure Setting.Hosts (setting : Setting) (compiled : Compiled) (declared : String → Option TableInfo) : Prop where
  registers : setting.machine.registerTypes = compiled.registers
  result : setting.machine.resultType = compiled.result
  arguments : setting.arguments = compiled.arguments
  constants : setting.constants = compiled.constants.map Prod.fst
  tables : ∀ name table, declared name = some table → setting.Shaped table

theorem SourceProgram.start_ready (program : SourceProgram) (declared : String → Option TableInfo)
    (fact : Initialized) : (program.start declared).Ready fact where
  locals := by
    intro _ _ absent
    cases absent
  captures := by
    intro _ _ absent
    cases absent

/-- A compiled program is one region, which control does not leave. -/
theorem region_compileProgram {program : SourceProgram} {compiled : Compiled}
    (compiles : compileProgram program = .ok compiled) :
    ∃ declared meanings, declareTables program.tables 0 (fun _ => none) = .ok declared ∧
      List.Forall₂ Encodes compiled.instructions meanings ∧
      ∀ setting : Setting, setting.Hosts compiled declared → ∃ later,
        setting.Region 0 (meanings.map (mapTable setting.slot)) (fun _ => false) later false := by
  obtain ⟨declared, after, declares, ran, -, rfl⟩ := compileProgram_eq_ok.mp compiles
  obtain ⟨⟨⟩, middle, loaded, ran⟩ := bind_run.mp ran
  obtain ⟨encoded, meanings, appended, means, more, verified⟩ := region_declareCaptures loaded
  obtain ⟨encoded', meanings', appended', means', more', verified'⟩ := emits_compileBody ran
  have start : (program.start declared).instructions = [] := rfl
  rw [start, List.nil_append] at appended
  have code : after.instructions = encoded ++ encoded' := by
    rw [← appended]
    exact appended'
  refine ⟨declared, meanings ++ meanings', declares, ?_, fun setting hosts => ?_⟩
  · simp only [SourceProgram.output, code]
    exact List.rel_append means means'
  · have tables : after.settled.tables = declared := more'.tables.trans more.tables
    have fulfils : setting.Fulfils after.settled := by
      refine ⟨?_, ?_, fun ty known => ?_, fun name table known => hosts.tables name table ?_⟩
      · rw [hosts.registers]
        exact List.prefix_rfl
      · rw [hosts.constants]
        exact List.prefix_rfl
      · cases known
        rw [hosts.result]
        exact sameShape_refl _
      · rwa [tables] at known
    obtain ⟨later, inScope, region⟩ := verified setting (fulfils.earlier more') (fun offset capture found => by
        rw [hosts.arguments, SourceProgram.output, List.getElem?_map, Nat.zero_add, found, Option.map_some])
      (fun _ => false) (program.start_ready declared _)
    obtain ⟨last, region', -⟩ := verified' setting fulfils later inScope (List.forall_mem_nil _)
    refine ⟨last, ?_⟩
    rw [List.map_append]
    refine region.append ?_
    rw [List.length_map, ← means.length_eq]
    rw [appended] at region'
    simpa [start] using region'

/-! ## The forward pass -/

theorem markInitialized_mono {fact more : Initialized} (le : fact ≤ more) (destination : Option Nat) :
    markInitialized fact destination ≤ markInitialized more destination := by
  cases destination with
  | none => exact le
  | some destination => exact update_le_update_iff.mpr ⟨le_rfl, fun register _ => le register⟩

theorem verifyTarget_of_edges {machine : Vm.Program} {index : Nat} {instruction : Vm.Instruction}
    (inside : ∀ target, instruction.exit.Edge index target → index < target ∧ target < machine.instructions.length) :
    machine.verifyTarget index instruction = .ok () := by
  cases instruction with
  | jump target =>
      have := inside target rfl
      exact refuse_of_not _ (by omega)
  | jumpIfFalse condition target =>
      have := inside target (.inl rfl)
      exact refuse_of_not _ (by omega)
  | _ => rfl

/-- The forward pass accepts a program that is a region. -/
theorem Setting.verify_of_region {setting : Setting} {later : Initialized}
    (region : setting.Region 0 setting.machine.instructions (fun _ => false) later false) :
    setting.machine.verify setting.arguments setting.constants ceilings = .ok () := by
  have visits (index : Nat) (instruction : Vm.Instruction) (fact out more : Initialized) (acc : Unit)
      (passes : setting.Passes instruction fact out) (stronger : fact ≤ more)
      (inside : ∀ target, instruction.exit.Edge index target →
        index < target ∧ target < setting.machine.instructions.length) :
      ∃ out' acc', setting.machine.verifyVisit setting.arguments setting.constants ceilings index instruction more
        acc = .ok (out', acc') ∧ out ≤ out' := by
    obtain ⟨destination, verifies, weaker⟩ := passes
    refine ⟨_, (), ?_, weaker.trans (markInitialized_mono stronger destination)⟩
    rw [Vm.Program.verifyVisit, verifies more stronger, ok_bind, verifyTarget_of_edges inside]
    rfl
  obtain ⟨final, passed, stops⟩ : ∃ final, flow Vm.Program.intersect Vm.Instruction.exit
      (.invalid "unreachable instruction") (setting.machine.verifyVisit setting.arguments setting.constants ceilings) 0
      setting.machine.instructions ⟨some fun _ => false, fun _ => none, ()⟩ = .ok final ∧ final.fallthrough = none :=
    region.flows (fun _ _ _ low low' register => le_inf (low register) (low' register)) visits ()
  rw [Vm.Program.verify, passed, ok_bind, stops]
  rfl

/-! ## Operands -/

/-- The pools of a program are as small as its format, and its register types formed. -/
structure Setting.Small (setting : Setting) : Prop where
  registers : setting.machine.registerTypes.length ≤ 65535
  formed : ∀ ty ∈ setting.machine.registerTypes, ty.Formed 16
  tables : setting.machine.tables.length ≤ 65535
  arguments : setting.arguments.length ≤ 65535
  constants : setting.constants.length ≤ 65535
  instructions : setting.machine.instructions.length ≤ 65535

theorem at?_lt {α : Type} {pool : List α} {index : Nat} {reason : String} {item : α}
    (found : Vm.Program.at? pool index reason = .ok item) : index < pool.length := by
  unfold Vm.Program.at? at found
  split at found
  · rename_i here
    exact (List.getElem?_eq_some_iff.mp here).1
  · cases found

section Fits

variable {setting : Setting} (small : setting.Small) {fact : Initialized}

include small

theorem Setting.Small.register {register : Nat} {ty : Ty} (found : setting.machine.register register = .ok ty) :
    register < 65535 ∧ ty.Formed 16 := by
  have inside := at?_lt found
  refine ⟨inside.trans_le small.registers, small.formed ty ?_⟩
  simp only [Vm.Program.register, Vm.Program.at?, List.getElem?_eq_getElem inside, Except.ok.injEq] at found
  exact found ▸ List.getElem_mem inside

theorem Setting.Small.source {register : Nat} {ty : Ty}
    (found : setting.machine.source fact register = .ok ty) : register < 65535 ∧ ty.Formed 16 := by
  simp only [Vm.Program.source, bind_eq_ok, refuse_eq_ok, exists_const, pure_eq_ok, Except.ok.injEq] at found
  obtain ⟨declared, found, -, rfl⟩ := found
  exact small.register found

theorem Setting.Small.table {index : Nat} {table : Vm.Table} (found : setting.machine.table index = .ok table) :
    index < 65535 :=
  (at?_lt found).trans_le small.tables

theorem Setting.Small.endpoint {key : Ty} {endpoint : Option Nat}
    (verified : setting.machine.verifyEndpoint fact key endpoint = .ok ()) : ∀ register ∈ endpoint, register < 65535 := by
  cases endpoint with
  | none => simp
  | some register =>
      simp only [Vm.Program.verifyEndpoint, bind_eq_ok] at verified
      obtain ⟨_, found, -⟩ := verified
      simpa using (small.source found).1

theorem Setting.Small.fields {types : List Ty} {fields : List Nat} (length : types.length = fields.length)
    (verified : setting.machine.verifyFields fact types fields = .ok ()) : Short fields := by
  induction fields generalizing types with
  | nil => exact short_nil
  | cons field fields ih =>
      cases types with
      | nil => simp at length
      | cons ty types =>
          simp only [Vm.Program.verifyFields, bind_eq_ok] at verified
          obtain ⟨_, found, _, -, rest⟩ := verified
          have here := (small.source found).1
          exact .cons (by omega) (ih (by simpa using length) rest)

/-- The operands of a verified instruction fit its encoding. -/
theorem Setting.Small.fits {index : Nat} {instruction : Vm.Instruction} {destination : Option Nat}
    (legal : Legal instruction)
    (verified : setting.machine.verifyInstruction setting.arguments setting.constants ceilings fact instruction =
      .ok destination) (target : setting.machine.verifyTarget index instruction = .ok ()) : Fits instruction := by
  have few := small.instructions
  cases instruction with
  | const dst constant =>
      simp only [Vm.Program.verifyInstruction, bind_eq_ok] at verified
      obtain ⟨_, pooled, _, declared, -⟩ := verified
      have inside := (at?_lt pooled).trans_le small.constants
      have := (small.register declared).1
      exact .cons (by omega) (.cons (by omega) short_nil)
  | arg dst argument =>
      simp only [Vm.Program.verifyInstruction, bind_eq_ok] at verified
      obtain ⟨_, pooled, _, declared, -⟩ := verified
      have inside := (at?_lt pooled).trans_le small.arguments
      have := (small.register declared).1
      exact .cons (by omega) (.cons (by omega) short_nil)
  | move dst src =>
      simp only [Vm.Program.verifyInstruction, bind_eq_ok] at verified
      obtain ⟨_, declared, _, read, -⟩ := verified
      have := (small.register declared).1
      have := (small.source read).1
      exact .cons (by omega) (.cons (by omega) short_nil)
  | unary op dst src =>
      simp only [Vm.Program.verifyInstruction, bind_eq_ok] at verified
      obtain ⟨_, declared, _, read, -⟩ := verified
      have := (small.register declared).1
      have := (small.source read).1
      exact .cons (by omega) (.cons (by omega) short_nil)
  | binary op dst left right =>
      simp only [Vm.Program.verifyInstruction, bind_eq_ok] at verified
      obtain ⟨_, declared, _, readLeft, _, readRight, -⟩ := verified
      have := (small.register declared).1
      have := (small.source readLeft).1
      have := (small.source readRight).1
      exact .cons (by omega) (.cons (by omega) (.cons (by omega) short_nil))
  | load dst table key =>
      simp only [Vm.Program.verifyInstruction, bind_eq_ok] at verified
      obtain ⟨_, found, _, read, _, -, _, declared, -⟩ := verified
      have := small.table found
      have := (small.source read).1
      have := (small.register declared).1
      exact .cons (by omega) (.cons (by omega) (.cons (by omega) short_nil))
  | «exists» dst table key =>
      simp only [Vm.Program.verifyInstruction, bind_eq_ok] at verified
      obtain ⟨_, read, _, found, _, -, _, declared, -⟩ := verified
      have := small.table found
      have := (small.source read).1
      have := (small.register declared).1
      exact .cons (by omega) (.cons (by omega) (.cons (by omega) short_nil))
  | insert table key value | store table key value =>
      simp only [Vm.Program.verifyInstruction, bind_eq_ok] at verified
      obtain ⟨_, found, _, readKey, _, -, _, readValue, -⟩ := verified
      have := small.table found
      have := (small.source readKey).1
      have := (small.source readValue).1
      exact .cons (by omega) (.cons (by omega) (.cons (by omega) short_nil))
  | delete table key =>
      simp only [Vm.Program.verifyInstruction, bind_eq_ok] at verified
      obtain ⟨_, found, _, read, -⟩ := verified
      have := small.table found
      have := (small.source read).1
      exact .cons (by omega) (.cons (by omega) short_nil)
  | scan dst table lower upper flags rowLimit byteLimit =>
      simp only [Vm.Program.verifyInstruction, bind_eq_ok, refuse_eq_ok, exists_const, not_lt, gt_iff_lt] at verified
      obtain ⟨rows, bytes, _, found, ty, declared, verified⟩ := verified
      have rows : rowLimit ≤ 65535 := rows
      have bytes : byteLimit ≤ 64 * 1024 * 1024 := bytes
      have := small.table found
      have := (small.register declared).1
      cases ty with
      | rows count key value =>
          simp only [bind_eq_ok] at verified
          obtain ⟨_, -, _, -, ⟨⟩, low, ⟨⟩, high, -⟩ := verified
          exact ⟨.cons (by omega) (.cons (by omega) short_nil), small.endpoint low, small.endpoint high, legal.1,
            legal.2.1, legal.2.2, by omega, by omega⟩
      | _ => cases verified
  | slice dst src start length =>
      simp only [Vm.Program.verifyInstruction, bind_eq_ok] at verified
      obtain ⟨_, declared, _, -, _, read, _, -, _, readStart, _, -, _, readLength, -⟩ := verified
      have := (small.register declared).1
      have := (small.source read).1
      have := (small.source readStart).1
      have := (small.source readLength).1
      exact .cons (by omega) (.cons (by omega) (.cons (by omega) (.cons (by omega) short_nil)))
  | tuple dst fields =>
      simp only [Vm.Program.verifyInstruction, bind_eq_ok] at verified
      obtain ⟨ty, declared, verified⟩ := verified
      obtain ⟨inside, formed⟩ := small.register declared
      cases ty with
      | tuple types =>
          simp only [bind_eq_ok, refuse_eq_ok, exists_const, not_not, ne_eq] at verified
          obtain ⟨length, ⟨⟩, read, -⟩ := verified
          have count := formed.2.1
          exact ⟨.cons (by omega) (small.fields length read), by omega⟩
      | _ => cases verified
  | field dst src field =>
      simp only [Vm.Program.verifyInstruction, bind_eq_ok] at verified
      obtain ⟨ty, read, verified⟩ := verified
      obtain ⟨inside, formed⟩ := small.source read
      cases ty with
      | tuple types =>
          simp only [bind_eq_ok] at verified
          obtain ⟨_, found, _, declared, -⟩ := verified
          have count := formed.2.1
          have position := at?_lt found
          have := (small.register declared).1
          exact .cons (by omega) (.cons (by omega) (.cons (by omega) short_nil))
      | _ => cases verified
  | jump destination =>
      simp only [Vm.Program.verifyTarget, refuse_eq_ok] at target
      simp only [Fits]
      omega
  | jumpIfFalse condition destination =>
      simp only [Vm.Program.verifyInstruction, bind_eq_ok] at verified
      obtain ⟨_, read, -⟩ := verified
      have := (small.source read).1
      simp only [Vm.Program.verifyTarget, refuse_eq_ok] at target
      exact ⟨.cons (by omega) short_nil, by omega⟩
  | require condition userCode =>
      simp only [Vm.Program.verifyInstruction, bind_eq_ok] at verified
      obtain ⟨_, read, -⟩ := verified
      have := (small.source read).1
      exact ⟨.cons (by omega) short_nil, legal⟩
  | abort userCode => exact legal
  | «return» src =>
      simp only [Vm.Program.verifyInstruction, bind_eq_ok] at verified
      obtain ⟨_, read, -⟩ := verified
      have := (small.source read).1
      exact .cons (by omega) short_nil

end Fits

theorem Legal.mapTable {instruction : Vm.Instruction} (legal : Legal instruction) (rename : Nat → Nat) :
    Legal (mapTable rename instruction) := by
  cases instruction <;> exact legal

/-- The instructions of a region fit their encodings. -/
theorem Setting.Small.fits_of_region {setting : Setting} (small : setting.Small) {later : Initialized}
    (region : setting.Region 0 setting.machine.instructions (fun _ => false) later false)
    (legal : ∀ instruction ∈ setting.machine.instructions, Legal instruction) :
    ∀ instruction ∈ setting.machine.instructions, Fits instruction := by
  intro instruction member
  obtain ⟨facts, table, -⟩ := region (fun index => setting.machine.instructions[index]?) (by simp [Holds])
  obtain ⟨index, found⟩ := List.getElem?_of_mem member
  have inside := (List.getElem?_eq_some_iff.mp found).1
  obtain ⟨other, out, here, ⟨destination, verifies, -⟩, edges⟩ := table.passes index (Nat.zero_le _) (by omega)
  obtain rfl : instruction = other := Option.some.inj (found.symm.trans here)
  have forward : setting.machine.verifyTarget index instruction = .ok () := by
    refine verifyTarget_of_edges fun target edge => ?_
    obtain ⟨later, -, stays, -⟩ := edges target edge
    have := stays rfl
    exact ⟨later, by omega⟩
  exact small.fits (legal instruction member) (verifies (facts index) le_rfl) forward

end BlopDb.Macros
