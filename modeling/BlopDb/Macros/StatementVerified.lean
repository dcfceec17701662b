/-
# Statements verify

Each statement emits code that verifies, and control reaches the end of that code
unless the statement ends its block.  Returned registers have one shape, which the
result type of the program has too.
-/

import BlopDb.Macros.ExprVerified
import BlopDb.Macros.StatementSound

namespace BlopDb.Macros

open BlopDb.Lib
open Vm (Ty)

variable {compiler : Compiler} {needs : List Nat}

/-! ## Assignments -/

theorem yields_argument (expression : Expr) : (argument expression).Yields := by
  unfold argument
  split
  · refine ⟨yields_expr _, ?_⟩
    rintro _ _ ⟨⟩
    exact yields_expr _
  · exact .of_yields (yields_expr _)

/-- The register a target is reached by. -/
def Target.register : Target → Nat
  | .variable register => register
  | .row _ key => key

/-- A row is in a declared table, at a key of the shape of its key. -/
def Target.Reachable (compiler : Compiler) : Target → Prop
  | .variable _ => True
  | .row table key => compiler.Declares table ∧ compiler.Typed key table.key

/-- The type of what a target holds. -/
def Target.Holds (compiler : Compiler) (ty : Ty) : Target → Prop
  | .variable register => compiler.registers[register]? = some ty
  | .row table _ => table.value = ty

theorem Target.Reachable.later {target : Target} (reachable : target.Reachable compiler) {after : Compiler}
    (more : compiler.Extends after) : target.Reachable after := by
  cases target with
  | «variable» register => trivial
  | row table key => exact ⟨reachable.1.later more, reachable.2.later more⟩

theorem Target.Holds.later {target : Target} {ty : Ty} (holds : target.Holds compiler ty) {after : Compiler}
    (more : compiler.Extends after) : target.Holds after ty := by
  cases target with
  | «variable» register => exact more.typed holds
  | row table key => exact holds

theorem codes_assignTarget (target : Expr) :
    Codes compiler needs (assignTarget target) (fun place => [place.register]) (fun _ => true) fun place after =>
      place.Reachable after ∧ compiler.Kept after := by
  unfold assignTarget
  split
  · refine (codes_address (yields_argument _)).bind fun ⟨table, key⟩ middle more ⟨declares, typed, kept⟩ => ?_
    exact .pure rfl (by simp [Target.register]) ⟨⟨declares, typed⟩, kept⟩
  · refine .lift fun name _ => .get (.orFail fun found known => .reject fun _ => ?_)
    refine .pure rfl (fun register member => .inr fun fact ready => ?_) ⟨trivial, .refl _⟩
    rw [List.mem_singleton.mp member]
    exact ready.locals name found known

theorem targetType_run {target : Target} {ty : Ty} {after : Compiler}
    (ran : targetType target compiler = .ok (ty, after)) : after = compiler ∧ target.Holds compiler ty := by
  cases target with
  | «variable» register => exact tyOf_run ran
  | row table key =>
      cases ran
      exact ⟨rfl, rfl⟩

/-- An action on the state alone. -/
abbrev Acts (compiler : Compiler) (needs : List Nat) (action : CompileM Unit) : Prop :=
  Codes compiler needs action (fun _ => []) (fun _ => true) fun _ after => compiler.Kept after

/-- A row of a table is written. -/
theorem codes_writeRow {table : TableInfo} (declares : compiler.Declares table) {key value : Nat}
    (keyTyped : compiler.Typed key table.key) (valueTyped : compiler.Typed value table.value)
    (keyNeeded : key ∈ needs) (valueNeeded : value ∈ needs) {opcode : Nat} {make : Nat → Nat → Nat → Vm.Instruction}
    (written : (opcode = 0x42 ∧ make = .insert) ∨ (opcode = 0x43 ∧ make = .store)) :
    Acts compiler needs (do let _ ← emitTable opcode [table.index, key, value] 0 table) := by
  have verified (setting : Setting) (fulfils : setting.Fulfils compiler) (fact : Vm.Program.Initialized)
      (initialized : ∀ register ∈ needs, fact register = true) :
      ∃ resolved keyType valueType, setting.machine.table (setting.slot table.index) = .ok resolved ∧
        setting.machine.source fact key = .ok keyType ∧ setting.machine.source fact value = .ok valueType ∧
        Vm.Program.sameShape resolved.key keyType = .ok () ∧
        Vm.Program.sameShape resolved.value valueType = .ok () := by
    obtain ⟨keyType, keyKnown, keySame⟩ := keyTyped
    obtain ⟨valueType, valueKnown, valueSame⟩ := valueTyped
    obtain ⟨resolved, found, keyShape, valueShape⟩ := fulfils.table declares
    exact ⟨resolved, keyType, valueType, found, fulfils.source keyKnown (initialized key keyNeeded),
      fulfils.source valueKnown (initialized value valueNeeded),
      sameShape_eq_ok (sameShape_trans keyShape (sameShape_symm keySame)),
      sameShape_eq_ok (sameShape_trans valueShape (sameShape_symm valueSame))⟩
  rcases written with ⟨rfl, rfl⟩ | ⟨rfl, rfl⟩
  · refine (@codes_push _ _ _ (.insert table.index key value) none ⟨⟨rfl, rfl, rfl⟩, trivial⟩ rfl
      fun setting fulfils fact initialized => ?_).bind fun _ after _ kept => .pure rfl (by simp) kept
    obtain ⟨resolved, keyType, valueType, found, readKey, readValue, keySame, valueSame⟩ :=
      verified setting fulfils fact initialized
    simp only [mapTable, Vm.Program.verifyInstruction, found, readKey, readValue, keySame, valueSame, ok_bind,
      pure_eq_ok]
  · refine (@codes_push _ _ _ (.store table.index key value) none ⟨⟨rfl, rfl, rfl⟩, trivial⟩ rfl
      fun setting fulfils fact initialized => ?_).bind fun _ after _ kept => .pure rfl (by simp) kept
    obtain ⟨resolved, keyType, valueType, found, readKey, readValue, keySame, valueSame⟩ :=
      verified setting fulfils fact initialized
    simp only [mapTable, Vm.Program.verifyInstruction, found, readKey, readValue, keySame, valueSame, ok_bind,
      pure_eq_ok]

theorem codes_writeTarget {target : Target} {ty : Ty} (reachable : target.Reachable compiler)
    (holds : target.Holds compiler ty) (needed : target.register ∈ needs) {source : Nat}
    (typed : compiler.Typed source ty) (sourceNeeded : source ∈ needs) :
    Acts compiler needs (writeTarget target source) := by
  cases target with
  | «variable» register =>
      obtain ⟨sourceType, known, same⟩ := typed
      exact (codes_move sourceNeeded holds known same).bind fun _ after _ kept => .pure rfl (by simp) kept
  | row table key =>
      obtain rfl : table.value = ty := holds
      exact codes_writeRow reachable.1 reachable.2 typed needed sourceNeeded (.inr ⟨rfl, rfl⟩)

theorem codes_priorValue {target : Target} {ty : Ty} (reachable : target.Reachable compiler)
    (holds : target.Holds compiler ty) (needed : target.register ∈ needs) :
    Fresh compiler needs (priorValue target) ty := by
  cases target with
  | «variable» register => exact .pure rfl (fun _ member => .inl (List.mem_singleton.mp member ▸ needed)) ⟨holds, .refl _⟩
  | row table key =>
      obtain rfl : table.value = ty := holds
      exact codes_readRow reachable.1 reachable.2 (fun result => .load result table.index key)
        (fun _ _ => ⟨⟨rfl, rfl, rfl⟩, trivial⟩) (fun _ => rfl)
        fun after result declares typed fresh => verifies_load declares typed needed fresh

/-- An assignment operator keeps the type of its target. -/
theorem resultType_assignmentOp {op : BinaryOperator} {opcode : Nat} (taken : assignmentOp op = some opcode)
    (ty : Ty) : resultType (booleanOpcode opcode ty) ty = ty := by
  cases op <;> cases taken
  all_goals
    by_cases boolean : ty = .boolean
    · subst boolean
      rfl
    · simp [resultType, booleanOpcode, boolean]

theorem codes_assignValue (target value : Expr) (opcode : Option Nat)
    (keeps : ∀ code ∈ opcode, ∀ ty, resultType (booleanOpcode code ty) ty = ty) :
    Acts compiler needs (assignValue target value opcode) := by
  refine (codes_assignTarget target).bind fun target first more ⟨reachable, kept⟩ => ?_
  refine .read (fun _ _ ran => targetType_run ran) fun ty holds => ?_
  cases opcode with
  | none =>
      refine (yields_expr value first _ (some ty)).bind fun source second more' ⟨typed, kept'⟩ => ?_
      exact (codes_writeTarget (reachable.later more') (holds.later more') (by simp) (typed ty rfl)
        (by simp)).weaken (List.Subset.refl _) (fun _ => List.nil_subset _)
        fun _ _ _ kept'' => (kept.trans kept').trans kept''
  | some opcode =>
      refine (codes_priorValue reachable holds (by simp)).bind fun prior second more' ⟨priorTyped, kept'⟩ => ?_
      refine (yields_expr value second _ _).bind fun operand third more'' ⟨_, kept''⟩ => ?_
      refine (codes_binaryInstruction opcode (by simp) (by simp)).bind
        fun source fourth more₃ ⟨⟨found, known, sourceTyped⟩, kept₃⟩ => ?_
      obtain rfl : ty = found := Option.some.inj ((more''.typed priorTyped).symm.trans known)
      rw [keeps opcode rfl ty] at sourceTyped
      have later := more'.trans (more''.trans more₃)
      exact (codes_writeTarget (reachable.later later) (holds.later later) (by simp)
        ⟨ty, sourceTyped, sameShape_refl ty⟩ (by simp)).weaken (List.Subset.refl _) (fun _ => List.nil_subset _)
        fun _ _ _ kept₄ => ((kept.trans kept').trans kept'').trans (kept₃.trans kept₄)

/-! ## Calls -/

/-- A code that is read after its instruction is emitted with it. -/
theorem coded_run {instruction : Instruction} {code : Except CompileError Nat} {after : Compiler}
    (ran : (do let index ← push instruction; let code ← lift code
               extendOperands index (leBytes 4 code)) compiler = .ok ((), after)) :
    ∃ value, code = .ok value ∧
      after = compiler.with { instruction with operands := instruction.operands ++ leBytes 4 value } := by
  obtain ⟨index, middle, pushed, ran⟩ := bind_run.mp ran
  obtain ⟨value, middle', coded, ran⟩ := bind_run.mp ran
  obtain ⟨rfl, rfl⟩ := push_run pushed
  obtain ⟨rfl, known⟩ := lift_run coded
  simp only [extendOperands, Compiler.with, List.getElem?_concat_length] at ran
  cases ran
  refine ⟨value, known, ?_⟩
  simp only [Compiler.with, List.set_append_right _ _ le_rfl, Nat.sub_self, List.set_cons_zero]

theorem codes_compileRequire (args : List Expr) : Acts compiler needs (compileRequire args) := by
  cases args with
  | nil => exact .fail
  | cons condition code =>
      refine .reject fun _ => (yields_expr condition compiler needs _).bind fun condition middle more held => ?_
      intro _ after ran
      obtain ⟨value, taken, rfl⟩ := coded_run ran
      obtain ⟨ty, known, same⟩ := held.1 .boolean rfl
      have verifies : Verifies middle (needs ++ [condition]) (.require condition value) none := by
        intro setting fulfils fact initialized
        simp only [mapTable, Vm.Program.verifyInstruction, fulfils.source known (initialized condition (by simp)),
          ok_bind, sameShape_eq_ok (sameShape_symm same), pure_eq_ok]
      have legal : Legal (.require condition value) := userCode_lt taken
      exact ⟨.instruction ⟨⟨rfl, rfl, rfl⟩, legal⟩ rfl verifies, held.2.trans (middle.kept_with _)⟩

/-- An action that ends its block. -/
abbrev Stops (compiler : Compiler) (needs : List Nat) (action : CompileM Unit) : Prop :=
  Codes compiler needs action (fun _ => []) (fun _ => false) fun _ after => compiler.Scoped after

theorem codes_compileAbort (args : List Expr) : Stops compiler needs (compileAbort args) := by
  refine .reject fun _ _ after ran => ?_
  obtain ⟨value, taken, rfl⟩ := coded_run ran
  have legal : Legal (.abort value) := userCode_lt taken
  exact ⟨.final ⟨⟨rfl, rfl, rfl⟩, legal⟩ rfl fun _ _ _ _ => rfl, rfl, rfl⟩

theorem codes_compileWrite (args : List Expr) {opcode : Nat} {make : Nat → Nat → Nat → Vm.Instruction}
    (written : (opcode = 0x42 ∧ make = .insert) ∨ (opcode = 0x43 ∧ make = .store)) :
    Acts compiler needs (compileWrite opcode args) := by
  unfold compileWrite
  split
  · refine (codes_address (yields_argument _)).bind fun ⟨table, key⟩ first more ⟨declares, keyTyped, kept⟩ => ?_
    refine (yields_expr _ first _ _).bind fun value second more' ⟨typed, kept'⟩ => ?_
    exact (codes_writeRow (declares.later more') (keyTyped.later more') (typed table.value rfl) (by simp) (by simp)
      written).weaken (List.Subset.refl _) (fun _ => List.nil_subset _) fun _ _ _ kept'' => (kept.trans kept').trans kept''
  · exact .fail

theorem codes_compileDelete (args : List Expr) : Acts compiler needs (compileDelete args) := by
  unfold compileDelete
  split
  · refine (codes_address (yields_argument _)).bind fun ⟨table, key⟩ first more ⟨declares, typed, kept⟩ => ?_
    refine (@codes_push _ _ _ (.delete table.index key) none ⟨⟨rfl, rfl, rfl⟩, trivial⟩ rfl
      fun setting fulfils fact initialized => ?_).bind fun _ after _ kept' => .pure rfl (by simp) (kept.trans kept')
    obtain ⟨keyType, known, same⟩ := typed
    obtain ⟨resolved, found, keyShape, -⟩ := fulfils.table declares
    simp only [mapTable, Vm.Program.verifyInstruction, found, fulfils.source known (initialized key (by simp)),
      ok_bind, sameShape_eq_ok (sameShape_trans keyShape (sameShape_symm same)), pure_eq_ok]
  · exact .fail

/-- The result type keeps the shape of what is returned. -/
theorem sameShape_returnedResult {ty : Ty} (same : ∀ result, compiler.result = some result → ty.sameShape result = true) :
    (returnedResult compiler ty).sameShape ty = true := by
  unfold returnedResult
  split
  · rename_i result found
    have shape := sameShape_symm (same result found)
    split_ifs
    · exact shape
    · exact sameShape_trans (sameShape_union shape) shape
  · exact sameShape_refl ty

theorem codes_compileReturn {source : Nat} (needed : source ∈ needs)
    (typed : ∀ ty, compiler.result = some ty → compiler.Typed source ty) :
    Stops compiler needs (compileReturn source) := by
  refine .tyOf fun ty known => ?_
  have same (result : Ty) (found : compiler.result = some result) : ty.sameShape result = true := by
    obtain ⟨ty', known', shape⟩ := typed result found
    obtain rfl : ty = ty' := Option.some.inj (known.symm.trans known')
    exact shape
  have returned := sameShape_returnedResult same
  refine .modify ⟨List.prefix_rfl, List.prefix_rfl, fun result found => ⟨_, rfl, ?_⟩, rfl⟩ rfl
    (fun fact ready _ => ready.inScope ⟨rfl, rfl⟩) fun _ after ran => ?_
  · exact sameShape_trans returned (same result found)
  · obtain ⟨index, last, pushed, ran⟩ := bind_run.mp ran
    cases ran
    obtain ⟨-, rfl⟩ := push_run pushed
    refine ⟨@Emits.final _ needs _ (.return source) ⟨⟨rfl, rfl, rfl⟩, trivial⟩ rfl
      fun setting fulfils fact initialized => ?_, rfl, rfl⟩
    have shape := sameShape_trans (fulfils.result _ rfl) returned
    have read := fulfils.source known (initialized source needed)
    simp only [mapTable, Vm.Program.verifyInstruction, read, ok_bind, sameShape_eq_ok shape, pure_eq_ok]

/-! ## Blocks -/

/-- A step whose code control leaves unless the step ends its block. -/
abbrev Proceeds (compiler : Compiler) (needs : List Nat) (action : CompileM Bool) : Prop :=
  Codes compiler needs action (fun _ => []) (fun terminated => !terminated) fun _ after => compiler.Scoped after

/-- Statements may bring locals into scope. -/
abbrev Opens (compiler : Compiler) (needs : List Nat) (action : CompileM Bool) : Prop :=
  Codes compiler needs action (fun _ => []) (fun terminated => !terminated) fun _ after =>
    after.captures = compiler.captures

theorem Codes.falls {α : Type} {action : CompileM α} {gives : α → List Nat} {holds : α → Compiler → Prop}
    (codes : Codes compiler needs action gives (fun _ => true) holds)
    (within : ∀ value after, holds value after → compiler.Scoped after) :
    Proceeds compiler needs (do let _ ← action; return false) :=
  codes.bind fun value after _ held => .pure rfl (by simp) (within value after held)

theorem Codes.ends {action : CompileM Unit} (stops : Stops compiler needs action) :
    Proceeds compiler needs (do action; return true) := by
  intro value after ran
  obtain ⟨⟨⟩, middle, here, ran⟩ := bind_run.mp ran
  cases ran
  exact stops () _ here

theorem proceeds_acts {action : CompileM Unit} (acts : Acts compiler needs action) :
    Proceeds compiler needs (do action; return false) :=
  acts.falls fun _ _ kept => kept.toScoped

theorem proceeds_expr (expression : Expr) (expected : Option Ty) :
    Proceeds compiler needs (do let _ ← compileExpr expression expected; return false) :=
  (yields_expr expression compiler needs expected).falls fun _ _ held => held.2.toScoped

theorem proceeds_compileCallStatement (callee : Expr) (args : List Expr) :
    Proceeds compiler needs (compileCallStatement callee args) := by
  refine .lift fun name _ => ?_
  split_ifs
  · exact proceeds_acts (codes_compileRequire args)
  · exact (codes_compileAbort args).ends
  · exact proceeds_acts (codes_compileWrite args (.inl ⟨rfl, rfl⟩))
  · exact proceeds_acts (codes_compileWrite args (.inr ⟨rfl, rfl⟩))
  · exact proceeds_acts (codes_compileDelete args)
  · exact proceeds_expr _ _

theorem codes_compileBinding (pattern : Pattern) (annotated : Option Ty) (init : Expr) (diverges : Bool) :
    Codes compiler needs (compileBinding pattern annotated init diverges) (fun _ => []) (fun _ => true)
      fun _ after => after.captures = compiler.captures := by
  refine .lift fun name _ => .reject fun _ => ?_
  refine (yields_expr init compiler needs annotated).bind fun source first more ⟨typed, kept⟩ => ?_
  refine .tyOf fun sourceType known => ?_
  refine (codes_register _).bind fun register second more' ⟨fresh, kept'⟩ => ?_
  have same : sourceType.sameShape (annotated.getD sourceType) = true := by
    cases annotated with
    | none => exact sameShape_refl sourceType
    | some ty =>
        obtain ⟨ty', known', shape⟩ := typed ty rfl
        obtain rfl : sourceType = ty' := Option.some.inj (known.symm.trans known')
        exact shape
  refine (codes_move (by simp) fresh (more'.typed known) same).bind fun _ third _ kept'' => ?_
  have captures := ((kept.trans kept').trans kept'').captures
  have same : third.Extends { third with
      locals := Function.update third.locals name (some ⟨register, pattern.mutable⟩) } :=
    ⟨List.prefix_rfl, List.prefix_rfl, fun ty known => ⟨ty, known, sameShape_refl ty⟩, rfl⟩
  exact .modified same rfl (fun fact ready initialized =>
    ⟨forall_update (initialized register (by simp)) ready.locals, ready.captures⟩) captures

/-- A block leaves the locals around it as they were. -/
theorem proceeds_compileBlock {statements : CompileM Bool} (opens : Opens compiler needs statements) :
    Proceeds compiler needs (compileBlock statements) := by
  refine .get fun terminated after ran => ?_
  obtain ⟨value, middle, here, ran⟩ := bind_run.mp ran
  cases ran
  obtain ⟨emits, captures⟩ := opens terminated middle here
  exact ⟨emits.restore captures, rfl, captures⟩

theorem proceeds_compileIf (condition : Expr) {body : CompileM Bool}
    (opens : ∀ (compiler : Compiler) (needs : List Nat), Opens compiler needs body) :
    Proceeds compiler needs (compileIf condition body) := by
  refine (yields_expr condition compiler needs _).bind fun condition start more ⟨typed, kept⟩ => ?_
  intro _ after ran
  obtain ⟨otherwise, second, jumped, ran⟩ := bind_run.mp ran
  obtain ⟨rfl, rfl⟩ := jump_eq_ok jumped
  obtain ⟨terminated, third, blocked, ran⟩ := bind_run.mp ran
  obtain ⟨⟨⟩, fourth, patched, ran⟩ := bind_run.mp ran
  cases ran
  obtain ⟨emits, inner⟩ := proceeds_compileBlock (opens _ (needs ++ [condition])) terminated third blocked
  have inside : start.Scoped third := (start.kept_with _).toScoped.trans inner
  obtain ⟨-, outer⟩ := patchJump_run patched
  exact ⟨Emits.around (typed .boolean rfl) (by simp) emits inside patched,
    (kept.toScoped.trans inside).trans outer.toScoped⟩

/-- A branch that ends needs no jump over the alternative. -/
theorem proceeds_compileIfElse (condition : Expr) {body alternative : CompileM Bool}
    (opens : ∀ (compiler : Compiler) (needs : List Nat), Opens compiler needs body)
    (proceeds : ∀ (compiler : Compiler) (needs : List Nat), Proceeds compiler needs alternative) :
    Proceeds compiler needs (compileIfElse condition body alternative) := by
  refine (yields_expr condition compiler needs _).bind fun condition start more ⟨typed, kept⟩ => ?_
  have needed : condition ∈ needs ++ [condition] := by simp
  generalize needs ++ [condition] = needs' at needed ⊢
  intro ended after ran
  obtain ⟨otherwise, second, jumped, ran⟩ := bind_run.mp ran
  obtain ⟨rfl, rfl⟩ := jump_eq_ok jumped
  obtain ⟨terminated, third, blocked, ran⟩ := bind_run.mp ran
  obtain ⟨emits, inner⟩ := proceeds_compileBlock (opens _ needs') terminated third blocked
  have inside : start.Scoped third := (start.kept_with _).toScoped.trans inner
  cases terminated with
  | true =>
      obtain ⟨⟨⟩, fourth, patched, ran⟩ := bind_run.mp ran
      obtain ⟨-, outer⟩ := patchJump_run patched
      obtain ⟨emits', other⟩ := proceeds fourth needs' ended after ran
      refine ⟨(Emits.around (typed .boolean rfl) needed emits inside patched).trans ?_,
        ((kept.toScoped.trans inside).trans outer.toScoped).trans other⟩
      rwa [List.append_nil]
  | false =>
      obtain ⟨stop, fourth, jumped', ran⟩ := bind_run.mp ran
      obtain ⟨rfl, rfl⟩ := jump_eq_ok jumped'
      obtain ⟨⟨⟩, fifth, patched, ran⟩ := bind_run.mp ran
      obtain ⟨_, sixth, followed, ran⟩ := bind_run.mp ran
      obtain ⟨⟨⟩, seventh, patched', ran⟩ := bind_run.mp ran
      cases ran
      obtain ⟨-, outer⟩ := patchJump_run patched
      obtain ⟨emits', other⟩ := proceeds fifth needs' _ sixth followed
      obtain ⟨-, last⟩ := patchJump_run patched'
      refine ⟨Emits.alternatives (typed .boolean rfl) needed emits inside patched emits' other patched', ?_⟩
      exact ((((kept.toScoped.trans inside).trans (third.kept_with _).toScoped).trans outer.toScoped).trans
        other).trans last.toScoped

mutual

/-- An expression statement. -/
theorem proceeds_statementExpr : ∀ (expression : Expr) (compiler : Compiler) (needs : List Nat),
    Proceeds compiler needs (compileStatementExpr expression)
  | .ifThen condition body => fun compiler needs => by
      rw [compileStatementExpr]
      exact proceeds_compileIf condition fun compiler needs => opens_statements body compiler needs
  | .ifThenElse condition body alternative => fun compiler needs => by
      rw [compileStatementExpr]
      exact proceeds_compileIfElse condition (fun compiler needs => opens_statements body compiler needs)
        fun compiler needs => proceeds_statementExpr alternative compiler needs
  | .block false body => fun compiler needs => by
      rw [compileStatementExpr]
      exact proceeds_compileBlock (opens_statements body compiler needs)
  | .returnValue value => fun compiler needs => by
      rw [compileStatementExpr]
      refine .get ((yields_expr value compiler needs _).bind fun source middle more ⟨typed, kept⟩ => ?_)
      refine (codes_compileReturn (by simp) fun ty found => typed ty ?_).ends.weaken (List.Subset.refl _)
        (fun _ => List.nil_subset _) fun _ _ _ inside => kept.toScoped.trans inside
      rw [← kept.result]
      exact found
  | .returnUnit => fun compiler needs => by
      rw [compileStatementExpr]
      refine .get (.reject fun plain => ?_)
      refine (codes_constant .unit []).bind fun source middle more ⟨fresh, kept⟩ => ?_
      refine (codes_compileReturn (by simp) fun ty found => ⟨.unit, fresh, ?_⟩).ends.weaken (List.Subset.refl _)
        (fun _ => List.nil_subset _) fun _ _ _ inside => kept.toScoped.trans inside
      rw [kept.result] at found
      simp only [found, Option.any_some, decide_eq_true_eq, not_not] at plain
      rw [plain]
      rfl
  | .assign target value => fun compiler needs => by
      rw [compileStatementExpr]
      exact proceeds_acts (codes_assignValue target value none (by simp))
  | .binary op left right => fun compiler needs => by
      rw [compileStatementExpr]
      cases taken : assignmentOp op with
      | none => exact proceeds_expr _ none
      | some opcode =>
          refine proceeds_acts (codes_assignValue left right (some opcode) fun code isCode ty => ?_)
          cases isCode
          exact resultType_assignmentOp taken ty
  | .call callee args => fun compiler needs => by
      rw [compileStatementExpr]
      exact proceeds_compileCallStatement callee args
  | .path name => fun compiler needs => by
      rw [compileStatementExpr]
      refine .lift fun name _ => ?_
      split_ifs
      · exact (codes_compileAbort []).ends
      · exact proceeds_expr _ none
  | .paren inner | .group inner | .lit inner | .unary _ inner | .index _ inner | .tuple inner
  | .field _ inner | .block true inner | .unsupported => fun compiler needs => by
      simp only [compileStatementExpr]
      exact proceeds_expr _ none

/-- Statements of a block. -/
theorem opens_statements : ∀ (statements : List Statement) (compiler : Compiler) (needs : List Nat),
    Opens compiler needs (compileStatements statements false)
  | [] => fun compiler needs => by
      rw [compileStatements]
      exact .pure rfl (by simp) rfl
  | statement :: rest => fun compiler needs => by
      rw [compileStatements]
      refine .reject fun _ => ?_
      intro ended after ran
      obtain ⟨terminated, middle, here, ran⟩ := bind_run.mp ran
      obtain ⟨emits, captures⟩ := opens_statement statement compiler needs terminated middle here
      cases terminated with
      | false =>
          obtain ⟨emits', captures'⟩ := opens_statements rest middle needs ended after ran
          refine ⟨emits.trans ?_, captures'.trans captures⟩
          rwa [List.append_nil]
      | true =>
          cases rest with
          | nil =>
              rw [compileStatements] at ran
              cases ran
              exact ⟨emits, captures⟩
          | cons other rest =>
              rw [compileStatements] at ran
              cases ran

/-- A statement. -/
theorem opens_statement : ∀ (statement : Statement) (compiler : Compiler) (needs : List Nat),
    Opens compiler needs (compileStatement statement)
  | .binding pattern annotated init diverges => fun compiler needs => by
      rw [compileStatement]
      exact (codes_compileBinding pattern annotated init diverges).bind fun _ after _ captures =>
        .pure rfl (by simp) captures
  | .uninitialized pattern => fun compiler needs => by
      rw [compileStatement]
      exact .lift fun _ _ => .fail
  | .expr expression => fun compiler needs => by
      rw [compileStatement]
      exact (proceeds_statementExpr expression compiler needs).weaken (List.Subset.refl _) (fun _ => List.nil_subset _)
        fun _ _ _ inside => inside.captures
  | .unsupported => fun compiler needs => by
      rw [compileStatement]
      exact .fail

end

end BlopDb.Macros
